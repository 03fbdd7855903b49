import QChain.Consensus.CertifiedDag
import QChain.Consensus.State
import QChain.Consensus.Verdicts

/-!
# The frontier clamp at an epoch boundary

`advance` resolves no round beyond the last one of the frontier epoch. A round that fails to commit
directly is settled by the first later round that does, and the clamp hides those beyond the
boundary. So the epoch is settled exactly if every such round is followed by a directly committed
round of the same epoch (`WitnessedBelow`).
-/

namespace QChain

section Clamp

variable [Crypto]

namespace Bullshark

variable {b : Bullshark} {upTo upTo' : ℕ}

/-! ### Two bounds -/

/-- A round does the same under two bounds that resolve it alike. -/
theorem stepRound_congr {r : ℕ} (h : b.resolve r upTo = b.resolve r upTo') (st : OrderState) :
    b.stepRound upTo r st = b.stepRound upTo' r st := by
  simp only [stepRound, cachedOutcome, h]

/-- If all rounds up to the lower of two bounds are resolved alike, a pass that gets beyond
it under the higher bound gets beyond it under the lower one. -/
theorem lt_extendOrderLoop_of_congr
    (hres : ∀ r ≤ upTo, b.resolve r upTo = b.resolve r upTo') (hle : upTo ≤ upTo')
    {fuel fuel' round : ℕ} {st : OrderState} (hfuel : upTo + 1 - round ≤ fuel)
    (hpass : upTo < (b.extendOrderLoop upTo' fuel' round st).2) :
    upTo < (b.extendOrderLoop upTo fuel round st).2 := by
  induction fuel generalizing fuel' round st with
  | zero =>
    show upTo < round
    omega
  | succ fuel ih =>
    rw [extendOrderLoop_succ]
    by_cases hround : round ≤ upTo
    · rw [if_pos hround, stepRound_congr (hres round hround)]
      cases fuel' with
      | zero =>
        have hlt : upTo < round := hpass
        omega
      | succ fuel' =>
        rw [extendOrderLoop_succ, if_pos (hround.trans hle)] at hpass
        cases hgo : (b.stepRound upTo' round st).2 with
        | true =>
          rw [hgo, if_pos rfl] at hpass
          rw [if_pos rfl]
          exact ih (by omega) hpass
        | false =>
          rw [hgo, if_neg (by simp)] at hpass
          have hlt : upTo < round := hpass
          omega
    · rw [if_neg hround]
      show upTo < round
      omega

/-! ### Where the clamp does no harm -/

/-- Every round below the boundary whose leader is present without committing directly is
followed by a directly committed round below the boundary. -/
def WitnessedBelow (b : Bullshark) (boundary : ℕ) : Prop :=
  ∀ r < boundary, b.directStatus r = .skipped → (b.leaderCertificate r).isSome →
    ∃ w < boundary, r < w ∧ (b.directStatus w).isCommitted

instance (b : Bullshark) (boundary : ℕ) : Decidable (b.WitnessedBelow boundary) :=
  inferInstanceAs (Decidable (∀ r < boundary, b.directStatus r = .skipped →
    (b.leaderCertificate r).isSome → ∃ w < boundary, r < w ∧ (b.directStatus w).isCommitted))

/-- A round is resolved alike under two bounds that find the same witness. -/
theorem resolve_congr {r : ℕ} (h : b.directStatus r = .skipped →
    (b.leaderCertificate r).isSome →
      b.ultimateWitness (satAdd r 1) upTo = b.ultimateWitness (satAdd r 1) upTo') :
    b.resolve r upTo = b.resolve r upTo' := by
  by_cases hskip : b.directStatus r = .skipped
  · cases hleader : b.leaderCertificate r with
    | none => rw [resolve_of_absent hskip hleader, resolve_of_absent hskip hleader]
    | some c =>
      have hw := h hskip (by rw [hleader]; rfl)
      simp only [resolve, hskip, hleader, hw]
  · rw [resolve_of_ne_skipped hskip, resolve_of_ne_skipped hskip]

/-- A pass bounded to the rounds below a boundary settles them all exactly if they are
witnessed below it, provided that a pass with a higher bound does. -/
theorem boundary_le_extendOrder_iff {boundary : ℕ} {seen : Finset Digest}
    (hpos : 0 < boundary) (hmax : boundary ≤ u64Max) (hle : boundary ≤ upTo' + 1)
    (hpass : boundary ≤ (b.extendOrder 0 upTo' seen ∅).2) :
    boundary ≤ (b.extendOrder 0 (boundary - 1) seen ∅).2 ↔ b.WitnessedBelow boundary := by
  have hdecided : ∀ k < boundary, b.directStatus k ≠ .undecided := by
    intro k hk hundecided
    apply b.resolve_ne_undecided_of_lt (hk.trans_le hpass)
    rw [resolve_of_ne_skipped (by rw [hundecided]; simp), hundecided]
  have hnext : ∀ r < boundary, satAdd r 1 = r + 1 := fun r hr => satAdd_of_le (by omega)
  constructor
  · intro hclamped r hr hskip hleader
    obtain ⟨c, hc⟩ := Option.isSome_iff_exists.1 hleader
    cases hw : b.ultimateWitness (satAdd r 1) (boundary - 1) with
    | none =>
      refine absurd (resolve_of_no_witness hskip hc hw) ?_
      exact b.resolve_ne_undecided_of_lt (hr.trans_le hclamped)
    | some d =>
      obtain ⟨w, hrw, hwle, hd, -⟩ := ultimateWitness_eq_some (by omega) hw
      rw [hnext r hr] at hrw
      exact ⟨w, by omega, by omega, RoundOutcome.isCommitted_iff.2 ⟨d, hd⟩⟩
  · intro hwitnessed
    have hres : ∀ r ≤ boundary - 1, b.resolve r (boundary - 1) = b.resolve r upTo' := by
      intro r hr
      apply resolve_congr
      intro hskip hleader
      obtain ⟨w, hw, hrw, hcommit⟩ := hwitnessed r (by omega) hskip hleader
      obtain ⟨d, hd⟩ := exists_ultimateWitness_eq (by omega) hrw
        (fun k hk => hdecided k (by omega)) hcommit
      rw [hnext r (by omega), hd _ (by omega), hd _ (by omega)]
    have hlt : boundary - 1 < (b.extendOrder 0 (boundary - 1) seen ∅).2 :=
      lt_extendOrderLoop_of_congr hres (by omega) le_rfl (Nat.lt_of_lt_of_le (by omega) hpass)
    omega

end Bullshark

/-! ### The boundary of the frontier epoch -/

/-- The first round after the frontier epoch. -/
def ValidatorSchedule.boundary (s : ValidatorSchedule) : ℕ :=
  (s.frontierEpoch + 1) * s.epochRounds

omit [Crypto] in
theorem ValidatorSchedule.resolvableFrontierRound_eq {s : ValidatorSchedule}
    (hpos : 0 < s.boundary) (hfit : s.boundary ≤ u64Max) :
    s.resolvableFrontierRound = s.boundary - 1 := by
  have hrounds : 0 < s.epochRounds := Nat.pos_of_mul_pos_left hpos
  have hepoch : s.frontierEpoch + 1 ≤ u64Max :=
    (Nat.le_mul_of_pos_right _ hrounds).trans hfit
  have hsucc : satAdd s.frontierEpoch 1 = s.frontierEpoch + 1 := satAdd_of_le hepoch
  rw [resolvableFrontierRound, if_neg (by omega), hsucc, satMul]
  exact congrArg (· - 1) (min_eq_left hfit)

/-- If the unclamped rule settles the frontier epoch, `advance` settles it exactly if its
rounds are witnessed within the epoch. -/
theorem boundary_le_finalizedFloor_iff (schedule : ValidatorSchedule) (dag : DagStore)
    (hfit : schedule.boundary ≤ u64Max)
    (hpass : schedule.boundary ≤
      (Bullshark.extendOrder ⟨dag, schedule, 0⟩ 0 dag.highestRound ∅ ∅).2) :
    schedule.boundary ≤ (ConsensusState.new.advance dag schedule).1.finalizedFloor ↔
      Bullshark.WitnessedBelow ⟨dag, schedule, 0⟩ schedule.boundary := by
  rcases Nat.eq_zero_or_pos schedule.boundary with hzero | hpos
  · rw [hzero]
    exact ⟨fun _ r hr => absurd hr (Nat.not_lt_zero r), fun _ => Nat.zero_le _⟩
  · have hhigh := hpass.trans (Bullshark.snd_extendOrder_le _)
    have hup : ConsensusState.upTo dag schedule = schedule.boundary - 1 := by
      rw [ConsensusState.upTo, schedule.resolvableFrontierRound_eq hpos hfit]
      omega
    have hfloor : (ConsensusState.new.advance dag schedule).1.finalizedFloor =
        (Bullshark.extendOrder ⟨dag, schedule, 0⟩ 0 (schedule.boundary - 1) ∅ ∅).2 := by
      rw [← hup]
      show (if _ then _ else _) = _
      split_ifs with hlt
      · rfl
      · exact (Nat.eq_zero_of_not_pos hlt).symm
    rw [hfloor]
    exact Bullshark.boundary_le_extendOrder_iff hpos hfit hhigh hpass

end Clamp

/-! ### A boundary that is never reached

Four validators with one vote each; 1 leads rounds 0 and 1. No certificate of round 1 lists
the leader of round 0, and the leader of round 1 is committed by round 2. Round 0 is
settled by the commit of round 1. -/

section Deadlock

/-- The digests of the certificates, by round and author. -/
def deadlockDigests : List (ℕ × ℕ × Digest) :=
  [(0, 1, 0xa66dfffa7e0b08d529ceb2ea41551561aacbd686e90540ec3220dee561e62685),
   (0, 2, 0x2505d57eba3f73748181a6a7243fec174baa9e2891e5cb39fb99738fe63e01ef),
   (0, 3, 0x721fe7603b2f37f99269e738b5f4ca1171d7b6751f65f1999f09b8da4ee76273),
   (0, 4, 0x60a50417790282905854687c8566d013dcbb20178afe5e211059d543e1fbdd24),
   (1, 1, 0x5e8e1eb2dd8f9f46a9e6c0a986ba6312be8819077dbb194cd72357f44cf4977d),
   (1, 2, 0x6655905e1243e70b97dd90ffc395f6d4cd2ad6f438738d401ef90c8d6ae08bea),
   (1, 3, 0x24813e9a7e3b288e9e5173514fb18150497aed72ecc504bca4491712897d548b),
   (1, 4, 0x8afd3c063b2d768a164967d21cf84df7bc9b104af321224aa5d8db14a4b48631),
   (2, 1, 0xb02f6d82c8b9b4f959a24547ce822eaf0d722de7740d32416fea8f06d33860cc),
   (2, 2, 0xcd6be072d652dbce06c5cccb14c8baa2cd0b4c771fcbddd952295ccad0be97d8),
   (2, 3, 0xc265805026c8e6c239c191e7bb8d2a6060b6112c8c54eb08a7adbcac1b30001c)]

/-- SHA3-256 on the inputs of the DAG. -/
@[reducible] def deadlockCrypto : Crypto := .ofTable deadlockDigests

def deadlockCommittee : ValidatorSet := .equalStakes 4

def deadlockDag : List Certificate :=
  [(0, 1, []), (0, 2, []), (0, 3, []), (0, 4, []),
   (1, 1, [2, 3, 4]), (1, 2, [2, 3, 4]), (1, 3, [2, 3, 4]), (1, 4, [2, 3, 4]),
   (2, 1, [1, 2, 3]), (2, 2, [1, 2, 3]), (2, 3, [1, 2, 3])].map
    fun (round, author, parents) => certificateAt deadlockDigests round author parents

/-- A store that holds the whole DAG. -/
def deadlockStore : DagStore := deadlockDag.foldl (@DagStore.insert deadlockCrypto) .new

/-- With epochs of one round, the clamp hides the commit that settles round 0. The DAG is
certified and complete and its only installed committee is the one it is certified by. -/
theorem clamp_deadlock :
    let schedule : ValidatorSchedule := .new 1 deadlockCommittee
    @CertifiedDag deadlockCrypto deadlockCommittee {c | c ∈ deadlockDag} ∧
      (∀ c ∈ deadlockDag, ∀ p ∈ c.vertex.parents, deadlockStore.contains p) ∧
      (∀ e set, schedule.committees.lookup e = some set → set = deadlockCommittee) ∧
      schedule.boundary ≤ (@Bullshark.extendOrder deadlockCrypto ⟨deadlockStore, schedule, 0⟩ 0
        deadlockStore.highestRound ∅ ∅).2 ∧
      ¬ schedule.boundary ≤ (@ConsensusState.advance deadlockCrypto .new deadlockStore
        schedule).1.finalizedFloor := by
  refine ⟨?_, by decide +kernel, fun e set h => ?_, by decide +kernel, by decide +kernel⟩
  · exact @certifiedDag_of_list deadlockCrypto _ _ (by decide +kernel) (by decide +kernel)
      (by decide +kernel) (by decide +kernel) (by decide +kernel)
  · rw [ValidatorSchedule.new, Map.lookup_insert_eq] at h
    split_ifs at h
    · exact (Option.some.inj h).symm
    · cases h

/-- With epochs of two rounds, the commit of round 1 is within the epoch and the boundary is
reached. -/
theorem boundary_le_finalizedFloor_deadlock :
    let schedule : ValidatorSchedule := .new 2 deadlockCommittee
    schedule.boundary = 2 ∧ schedule.boundary ≤ (@ConsensusState.advance deadlockCrypto .new
      deadlockStore schedule).1.finalizedFloor := by
  refine ⟨rfl, ?_⟩
  apply (@boundary_le_finalizedFloor_iff deadlockCrypto _ _ ?_ ?_).2
  · decide +kernel
  · decide +kernel
  · decide +kernel

end Deadlock

end QChain
