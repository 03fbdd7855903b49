import QChain.Node.Genesis

/-!
# Emission over a gap of rounds

Nothing is written in a round without transactions: the next transaction mints the v6 emission of
every round since the last one. Minting the same rounds in several steps rounds down once more for
each step, as long as no product saturates.
-/

namespace QChain

section

variable (totalStaked : U64) (aprBps : UInt16)

/-- The units that calls of `emission_for_rounds` one after the other mint, times
`EMISSION_PRECISION`, and the carry after the last. -/
def emissionOfCalls : List U64 → U128 → ℕ
  | [], carry => carry
  | rounds :: rest, carry =>
    (emissionForRounds totalStaked aprBps rounds carry).1 * emissionPrecision +
      emissionOfCalls rest (emissionForRounds totalStaked aprBps rounds carry).2

/-- The product that a number of rounds comes to. -/
def scaledEmission (n : ℕ) : ℕ := totalStaked * aprBps.toNat * n * emissionPrecision

/-- The emission of a number of rounds, rounded down once. -/
def flooredEmission (n : ℕ) : ℕ :=
  scaledEmission totalStaked aprBps n / (10000 * roundsPerYear)

end

variable {totalStaked : U64} {aprBps : UInt16} {carry : U128}

/-- A call that saturates nowhere loses only the fraction of a fixed-point unit. -/
theorem emissionForRounds_eq {rounds : U64}
    (hscaled : scaledEmission totalStaked aprBps rounds < 2 ^ 128)
    (htotal : carry + flooredEmission totalStaked aprBps rounds < 2 ^ 128) :
    (emissionForRounds totalStaked aprBps rounds carry).1 * emissionPrecision +
        (emissionForRounds totalStaked aprBps rounds carry).2 =
      carry + flooredEmission totalStaked aprBps rounds := by
  unfold flooredEmission scaledEmission at *
  have hrounds : (totalStaked * aprBps.toNat * rounds : ℕ) < 2 ^ 128 :=
    lt_of_le_of_lt (Nat.le_mul_of_pos_right _ (by decide)) hscaled
  have hyear : (totalStaked * aprBps.toNat : ℕ) < 2 ^ 128 :=
    lt_of_lt_of_le (Nat.mul_lt_mul'' totalStaked.toNat_lt aprBps.toNat_lt) (by decide)
  simp only [emissionForRounds, Word.toNat_clamp_of_lt hyear, Word.toNat_clamp_of_lt hrounds,
    Word.toNat_clamp_of_lt hscaled, Word.toNat_clamp_of_lt htotal]
  generalize (carry + totalStaked * aprBps.toNat * rounds * emissionPrecision /
    (10000 * roundsPerYear) : ℕ) = total at htotal
  have hwhole : ((Word.clamp (total / emissionPrecision) : U64) : ℕ) * emissionPrecision ≤ total :=
    (Nat.mul_le_mul_right _ (Word.toNat_clamp_le _)).trans (Nat.div_mul_le_self _ _)
  rw [Word.toNat_ofNat_of_lt (by omega)]
  omega

/-- Where no product saturates, calls lose at most one fixed-point unit each. -/
theorem emissionOfCalls_bounds {calls : List U64} {n : ℕ} (hn : n = (calls.map Word.toNat).sum)
    (hscaled : scaledEmission totalStaked aprBps n < 2 ^ 128)
    (htotal : carry + flooredEmission totalStaked aprBps n < 2 ^ 128) :
    emissionOfCalls totalStaked aprBps calls carry ≤
        carry + flooredEmission totalStaked aprBps n ∧
      carry + flooredEmission totalStaked aprBps n ≤
        emissionOfCalls totalStaked aprBps calls carry + calls.length := by
  induction calls generalizing carry n with
  | nil =>
    subst hn
    simp [emissionOfCalls, flooredEmission, scaledEmission]
  | cons rounds rest ih =>
    obtain ⟨m, hm⟩ : ∃ m, m = (rest.map Word.toNat).sum := ⟨_, rfl⟩
    have hsum : scaledEmission totalStaked aprBps n =
        scaledEmission totalStaked aprBps rounds + scaledEmission totalStaked aprBps m := by
      rw [hn, hm, List.map_cons, List.sum_cons]
      simp only [scaledEmission, Nat.mul_add, Nat.add_mul]
    -- the floor of the sum is the sum of the floors, or one more
    have hfloor : flooredEmission totalStaked aprBps rounds + flooredEmission totalStaked aprBps m ≤
        flooredEmission totalStaked aprBps n ∧ flooredEmission totalStaked aprBps n ≤
        flooredEmission totalStaked aprBps rounds + flooredEmission totalStaked aprBps m + 1 := by
      unfold flooredEmission roundsPerYear
      omega
    have hfirst := @emissionForRounds_eq totalStaked aprBps carry rounds (by omega) (by omega)
    have hrest := @ih (emissionForRounds totalStaked aprBps rounds carry).2 m hm (by omega)
      (by omega)
    rw [emissionOfCalls, List.length_cons]
    omega

/-- The emission of rounds hardly depends on how they are grouped. Where the product for all of
them does not saturate, one call for them comes to as much as several, or to more by at most one
fixed-point unit for each. -/
theorem emission_grouping (calls : List U64) (n : U64) (hn : (n : ℕ) = (calls.map Word.toNat).sum)
    (hcarry : (carry : ℕ) < emissionPrecision)
    (hscaled : scaledEmission totalStaked aprBps n < 2 ^ 128) :
    emissionOfCalls totalStaked aprBps calls carry ≤
        emissionOfCalls totalStaked aprBps [n] carry ∧
      emissionOfCalls totalStaked aprBps [n] carry ≤
        emissionOfCalls totalStaked aprBps calls carry + calls.length := by
  have htotal : carry + flooredEmission totalStaked aprBps n < 2 ^ 128 := by
    unfold emissionPrecision at hcarry
    unfold flooredEmission roundsPerYear
    omega
  rw [emissionOfCalls, emissionOfCalls, emissionForRounds_eq hscaled htotal]
  exact emissionOfCalls_bounds hn hscaled htotal

theorem emission_grouping_two :
    emissionOfCalls 1000000000000000 1200 [400, 600] 5 ≤
        emissionOfCalls 1000000000000000 1200 [1000] 5 ∧
      emissionOfCalls 1000000000000000 1200 [1000] 5 ≤
        emissionOfCalls 1000000000000000 1200 [400, 600] 5 + 2 :=
  emission_grouping [400, 600] 1000 (by decide) (by decide) (by decide)

/-- With the whole supply staked at the highest rate, a year in one call and the halves of it all
saturate: the one call comes to half as much. -/
theorem emission_grouping_saturates :
    emissionOfCalls (Word.ofNat maxSupplyAtoms) maxEmissionAprBps [63072000] 0 + 2 <
      emissionOfCalls (Word.ofNat maxSupplyAtoms) maxEmissionAprBps [31536000, 31536000] 0 := by
  decide +kernel

end QChain
