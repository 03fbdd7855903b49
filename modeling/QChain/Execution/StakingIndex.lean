import Mathlib
import QChain.Execution.StakingV7

/-!
# The staking index

The fixed-point arithmetic of v7 staking on natural numbers. Every conversion rounds down, and a sum
of values is at most the value of the sum. A deposit is priced at the index the quanto is expected
to close with; the index it closes with is never higher, and the emission is what the value of all
earning shares grows by.
-/

namespace QChain

open Transact Exec

/-! ### Values and prices -/

section

variable {shares index : U128}

/-- Products of shares and index saturate only at values no balance can back. -/
theorem toNat_positionValue :
    (positionValue shares index : ℕ) = min (shares * index : ℕ) (2 ^ 128 - 1) / indexScale := by
  rw [positionValue, Word.toNat_clamp]
  apply Word.toNat_ofNat_of_lt
  have : min ((shares : ℕ) * index) (2 ^ 128 - 1) / indexScale ≤ 2 ^ 128 - 1 :=
    (Nat.div_le_self _ _).trans (min_le_right _ _)
  omega

theorem positionValue_le : (positionValue shares index : ℕ) ≤ shares * index / indexScale := by
  rw [toNat_positionValue]
  exact Nat.div_le_div_right (min_le_left _ _)

/-- A value below the largest balance is the exact quotient. -/
theorem positionValue_of_lt (h : (positionValue shares index : ℕ) < 2 ^ 64) :
    (positionValue shares index : ℕ) = shares * index / indexScale ∧
      (shares * index : ℕ) < 2 ^ 64 * indexScale := by
  have hvalue : min ((shares : ℕ) * index) (2 ^ 128 - 1) < 2 ^ 64 * indexScale := by
    rw [toNat_positionValue, Nat.div_lt_iff_lt_mul (by decide)] at h
    exact h
  have hscale : 2 ^ 64 * indexScale < 2 ^ 128 - 1 := by decide
  have hmin : min ((shares : ℕ) * index) (2 ^ 128 - 1) = shares * index := by omega
  rw [toNat_positionValue, hmin]
  exact ⟨rfl, by omega⟩

end

section

variable {amount : U64} {index : U128}

theorem toNat_sharesForDeposit :
    (sharesForDeposit amount index : ℕ) = amount * indexScale / index := by
  have hamount := amount.toNat_lt
  have hbound : (amount : ℕ) * indexScale < 2 ^ 128 := by
    unfold indexScale
    omega
  rw [sharesForDeposit, Word.toNat_clamp_of_lt hbound]
  exact Word.toNat_ofNat_of_lt (lt_of_le_of_lt (Nat.div_le_self _ _) hbound)

/-- A deposit's shares are worth at most the deposit. -/
theorem sharesForDeposit_mul_le :
    (sharesForDeposit amount index * index : ℕ) ≤ amount * indexScale := by
  rw [toNat_sharesForDeposit]
  exact Nat.div_mul_le_self _ _

/-- With one share more they would be worth more than the deposit. -/
theorem lt_sharesForDeposit_succ_mul (h : 0 < (index : ℕ)) :
    (amount * indexScale : ℕ) < (sharesForDeposit amount index + 1) * index := by
  rw [toNat_sharesForDeposit, Nat.mul_comm _ (index : ℕ)]
  exact Nat.lt_mul_div_succ _ h

end

theorem le_advanceStakingIndex {index rateFp : U128} :
    index ≤ advanceStakingIndex index rateFp := by
  have hindex := index.toNat_lt
  rw [Word.le_iff, advanceStakingIndex, Word.toNat_clamp]
  exact le_min (Nat.le_add_right _ _) (by omega)

/-! ### Emission -/

section

variable {shares index target : U128}

/-- The emission is what the value of the shares grows by. -/
theorem toNat_emissionForQuanto :
    (emissionForQuanto shares index target : ℕ) =
      positionValue shares target - positionValue shares index := by
  have := (positionValue shares target).toNat_lt
  exact Word.toNat_ofNat_of_lt (by omega)

/-- A budget that does not pay for the growth to the target pays for less: the value at the
target is more than the budget above the present value. -/
theorem mul_div_lt_of_lt_emission {budget : ℕ}
    (hexact : (positionValue shares index : ℕ) = shares * index / indexScale)
    (hbudget : budget < emissionForQuanto shares index target) :
    (index : ℕ) + budget * indexScale / shares < target := by
  rw [toNat_emissionForQuanto] at hbudget
  have htarget : (positionValue shares target : ℕ) ≤ shares * target / indexScale :=
    positionValue_le
  -- the value at the target exceeds the exact value before by more than the budget
  have hstep : (shares * index / indexScale + budget + 1) * indexScale ≤ (shares * target : ℕ) := by
    apply Nat.mul_le_of_le_div
    omega
  have hfloor : (shares * index : ℕ) < (shares * index / indexScale + 1) * indexScale := by
    rw [Nat.mul_comm _ indexScale]
    exact Nat.lt_mul_div_succ _ (by decide)
  have hgrowth : (shares * index : ℕ) + budget * indexScale < shares * target := by
    have hsplit : (shares * index / indexScale + budget + 1) * indexScale =
        (shares * index / indexScale + 1) * indexScale + budget * indexScale := by ring
    omega
  have hdelta : (shares : ℕ) * (budget * indexScale / shares) ≤ budget * indexScale :=
    Nat.mul_div_le _ _
  by_contra hle
  have hmul : (shares * target : ℕ) ≤ shares * (index + budget * indexScale / shares) :=
    Nat.mul_le_mul_left _ (not_lt.1 hle)
  rw [Nat.mul_add] at hmul
  omega

/-- The growth of the index that a budget pays for costs at most the budget: the division of the
budget and that of the value both round down. -/
theorem growth_le_budget {budget : ℕ} :
    (shares * (index + budget * indexScale / shares) / indexScale : ℕ) ≤
      shares * index / indexScale + budget := by
  have hdelta : (shares : ℕ) * (budget * indexScale / shares) ≤ budget * indexScale :=
    Nat.mul_div_le _ _
  calc (shares * (index + budget * indexScale / shares) / indexScale : ℕ)
      = (shares * index + shares * (budget * indexScale / shares)) / indexScale := by
        rw [Nat.mul_add]
    _ ≤ (shares * index + budget * indexScale) / indexScale :=
        Nat.div_le_div_right (Nat.add_le_add_left hdelta _)
    _ = shares * index / indexScale + budget := Nat.add_mul_div_right _ _ (by decide)

/-- The index that a budget backs lies between the present one and the target, which it reaches
if the budget pays for it. The emission is what the value grows by, within the budget. -/
theorem indexForBackedEmission_spec {budget : U128} (htarget : index ≤ target)
    (hexact : (positionValue shares index : ℕ) = shares * index / indexScale)
    (hbudget : budget < emissionForQuanto shares index target →
      (budget * indexScale : ℕ) < 2 ^ 128) :
    ∃ newIndex, indexForBackedEmission shares index target budget =
        (newIndex, emissionForQuanto shares index newIndex) ∧
      index ≤ newIndex ∧ newIndex ≤ target ∧ emissionForQuanto shares index newIndex ≤ budget ∧
      (emissionForQuanto shares index target ≤ budget → newIndex = target) := by
  dsimp only [indexForBackedEmission]
  split_ifs with hshares hpaid
  · have hzero : emissionForQuanto shares index target = 0 := by
      rw [← Word.toNat_inj, toNat_emissionForQuanto, toNat_positionValue, toNat_positionValue,
        hshares]
      simp
    refine ⟨target, by rw [hzero], htarget, le_rfl, ?_, fun _ => rfl⟩
    rw [hzero]
    exact Nat.zero_le _
  · exact ⟨target, rfl, htarget, le_rfl, hpaid, fun _ => rfl⟩
  · have hbelow := mul_div_lt_of_lt_emission hexact (not_le.1 hpaid)
    have htargetLt := target.toNat_lt
    rw [Word.toNat_clamp_of_lt (hbudget (not_le.1 hpaid))]
    have hnew : ((Word.clamp (index + budget * indexScale / shares) : U128) : ℕ) =
        index + budget * indexScale / shares := Word.toNat_clamp_of_lt (by omega)
    refine ⟨_, rfl, ?_, ?_, ?_, fun hfits => absurd hfits hpaid⟩
    · rw [Word.le_iff, hnew]
      exact Nat.le_add_right _ _
    · rw [Word.le_iff, hnew]
      exact hbelow.le
    · rw [Word.le_iff, toNat_emissionForQuanto, hexact]
      apply Nat.sub_le_iff_le_add'.2
      apply positionValue_le.trans
      rw [hnew]
      exact growth_le_budget

/-- Growth within a budget. If the value at the target does not saturate, the index lies between
the present one and the target, the emission is the growth of the floored value and within the
budget, and the target is reached whenever the budget pays for it. -/
theorem indexForBackedEmission_backed (shares index target budget : U128) (htarget : index ≤ target)
    (hlt : (shares * target : ℕ) < 2 ^ 128) :
    ∃ newIndex emission, indexForBackedEmission shares index target budget = (newIndex, emission) ∧
      index ≤ newIndex ∧ newIndex ≤ target ∧ emission ≤ budget ∧
      (emission : ℕ) = shares * newIndex / indexScale - shares * index / indexScale ∧
      (emissionForQuanto shares index target ≤ budget → newIndex = target) := by
  have hexact : ∀ i : U128, i ≤ target →
      (positionValue shares i : ℕ) = shares * i / indexScale := by
    intro i hi
    have hmul : (shares * i : ℕ) ≤ shares * target := Nat.mul_le_mul_left _ hi
    rw [toNat_positionValue, min_eq_left (by omega)]
  -- a budget that is too small is less than the value at the target: its product is exact as well
  have hbudget : budget < emissionForQuanto shares index target →
      (budget * indexScale : ℕ) < 2 ^ 128 := by
    intro hless
    rw [Word.lt_iff, toNat_emissionForQuanto, hexact target le_rfl] at hless
    exact lt_of_le_of_lt (Nat.mul_le_of_le_div _ _ _ (hless.le.trans (Nat.sub_le _ _))) hlt
  obtain ⟨newIndex, hresult, hle, hbelow, hpaid, hfull⟩ :=
    indexForBackedEmission_spec htarget (hexact index htarget) hbudget
  refine ⟨newIndex, _, hresult, hle, hbelow, hpaid, ?_, hfull⟩
  rw [toNat_emissionForQuanto, hexact newIndex hbelow, hexact index htarget]

/-- A budget of five atoms where the target needs ten: the index stops half way. -/
theorem indexForBackedEmission_backed_halfway :
    ∃ newIndex emission : U128,
      indexForBackedEmission 1000 initialStakingIndex (Word.ofNat (indexScale + 10000000000)) 5 =
        (newIndex, emission) ∧ emission ≤ 5 ∧ (newIndex : ℕ) = indexScale + 5000000000 := by
  obtain ⟨newIndex, emission, hresult, -, -, hle, -⟩ := indexForBackedEmission_backed 1000
    initialStakingIndex (Word.ofNat (indexScale + 10000000000)) 5 (by decide) (by decide)
  refine ⟨newIndex, emission, hresult, hle, ?_⟩
  obtain rfl := congrArg Prod.fst hresult
  decide +kernel

end

/-! ### The close of a quanto -/

namespace GlobalStakingState

variable (g : GlobalStakingState)

/-- The index the current quanto is expected to close with, at which deposits are priced. -/
def nextIndex : U128 := advanceStakingIndex g.index g.rateFp

/-- The index the current quanto closes with and the emission it pays, under the hard cap out of
the given budget. -/
def growth (hardCap : Bool) (budget : U64) : U128 × U128 :=
  if hardCap then
    indexForBackedEmission g.totalShares g.index g.nextIndex (Word.ofNat budget)
  else
    (g.nextIndex, emissionForQuanto g.totalShares g.index g.nextIndex)

/-- The totals after the close of the current quanto. -/
def closed (newIndex : U128) : GlobalStakingState :=
  { g with
    index := newIndex
    lastSettledQuanto := g.currentQuanto
    currentQuanto := Word.clamp (g.currentQuanto + 1)
    totalShares := Word.clamp (g.totalShares + g.pendingShares)
    pendingShares := 0 }

variable {g : GlobalStakingState} {hardCap : Bool} {budget : U64}

/-- The index never falls. -/
theorem index_le_growth : g.index ≤ (g.growth hardCap budget).1 := by
  unfold growth
  split_ifs
  · dsimp only [indexForBackedEmission]
    split_ifs
    · exact le_advanceStakingIndex
    · exact le_advanceStakingIndex
    · have hlt := g.index.toNat_lt
      rw [Word.le_iff, Word.toNat_clamp]
      exact le_min (Nat.le_add_right _ _) (by omega)
  · exact le_advanceStakingIndex

/-- The growth to the expected index is paid for: there is no hard cap, nobody earns, or the
budget covers the emission. -/
def Backed (g : GlobalStakingState) (hardCap : Bool) (budget : U64) : Prop :=
  hardCap = true → (g.totalShares : ℕ) = 0 ∨
    (emissionForQuanto g.totalShares g.index g.nextIndex : ℕ) ≤ budget

instance : Decidable (g.Backed hardCap budget) := by
  unfold Backed
  infer_instance

/-- The index reaches the expected one where that is paid for. -/
theorem growth_of_backed (h : g.Backed hardCap budget) :
    (g.growth hardCap budget).1 = g.nextIndex := by
  unfold growth
  split_ifs with hcap
  · have hlt := budget.toNat_lt
    have hbudget : ((Word.ofNat budget : U128) : ℕ) = budget := Word.toNat_ofNat_of_lt (by omega)
    dsimp only [indexForBackedEmission]
    split_ifs with hnone hpaid
    · rfl
    · rfl
    · rw [Word.le_iff, hbudget] at hpaid
      exact absurd (h hcap) (not_or.2 ⟨hnone, hpaid⟩)
  · rfl

/-- The index never falls, never grows beyond the expected one, and the emission is what the value
of the earning shares grows by. -/
theorem growth_spec (hvalue : (positionValue g.totalShares g.index : ℕ) < 2 ^ 64) :
    g.index ≤ (g.growth hardCap budget).1 ∧ (g.growth hardCap budget).1 ≤ g.nextIndex ∧
      ((g.growth hardCap budget).2 : ℕ) =
        positionValue g.totalShares (g.growth hardCap budget).1 -
          positionValue g.totalShares g.index := by
  unfold growth
  split_ifs
  · have hlt := budget.toNat_lt
    have hscaled : ((Word.ofNat budget : U128) * indexScale : ℕ) < 2 ^ 128 := by
      rw [Word.toNat_ofNat_of_lt (by omega), indexScale]
      omega
    have hnext : g.index ≤ g.nextIndex := le_advanceStakingIndex
    obtain ⟨newIndex, hresult, hle, htarget, -⟩ :=
      indexForBackedEmission_spec hnext (positionValue_of_lt hvalue).1 fun _ => hscaled
    rw [hresult]
    exact ⟨hle, htarget, toNat_emissionForQuanto⟩
  · exact ⟨le_advanceStakingIndex, le_rfl, toNat_emissionForQuanto⟩

end GlobalStakingState

/-- The emission is paid into the staking reserve, under the hard cap out of the emission
reserve. -/
def payEmission (hardCap : Bool) (emission : U64) : Exec Unit := do
  if 0 < (emission : ℕ) then
    if hardCap then
      let account := (← get).getOrNew emissionReserveId stakingProgramId
      put emissionReserveId
        { account with balance := ← expect (checkedSub account.balance emission) }
    creditOrPanic stakingReserveId stakingProgramId emission

/-- What the emission reserve has to pay emission from. -/
def emissionBudget (accounts : Accounts) : U64 :=
  ((accounts.lookup emissionReserveId).map (·.balance)).getD 0

/-- The close of the current quanto: the emission is paid and the new totals are written. -/
theorem wp_settleQuantoEx {accounts : Accounts} {g : GlobalStakingState} {hardCap : Bool}
    {Q : U64 → Accounts → Prop} (hg : storedGlobal accounts = some g) :
    Wp (settleQuantoEx g.currentQuanto hardCap) accounts Q ↔
      Wp (payEmission hardCap (Word.clamp (g.growth hardCap (emissionBudget accounts)).2)) accounts
        fun _ accounts' =>
          Wp (writeGlobal (g.closed (g.growth hardCap (emissionBudget accounts)).1)) accounts'
            fun _ => Q (Word.clamp (g.growth hardCap (emissionBudget accounts)).2) := by
  have hcurrent : ∀ X : GlobalStakingState → Prop,
      (∀ g', storedGlobal accounts = some g' → X g') ↔ X g := by
    intro X
    rw [hg]
    simp
  unfold settleQuantoEx
  rw [wp_bind, wp_readGlobal, hcurrent, if_neg (not_not_intro rfl), wp_bind, wp_balanceOrZero]
  have hgrowth : (if hardCap then indexForBackedEmission g.totalShares g.index
        (advanceStakingIndex g.index g.rateFp) (Word.ofNat (emissionBudget accounts))
      else (advanceStakingIndex g.index g.rateFp,
        emissionForQuanto g.totalShares g.index (advanceStakingIndex g.index g.rateFp))) =
      g.growth hardCap (emissionBudget accounts) := rfl
  dsimp only
  rw [← emissionBudget, hgrowth]
  simp only [payEmission, wp_ite, wp_rules, Exec.wp_put]
  rfl

end QChain
