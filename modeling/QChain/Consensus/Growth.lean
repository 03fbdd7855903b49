import QChain.Consensus.Agreement
import QChain.Consensus.Barrier

/-!
# Verdicts on a growing DAG

On a parent-closed DAG the direct verdict on a round is final: a commit keeps its support,
and a skipped leader cannot find enough of it any more, whatever is added to the DAG. A round
with a directly committed round above it and no undecided one in between is resolved, and
stays so (`Bullshark.Anchored`).
-/

namespace QChain

open Bullshark Finset RoundOutcome

variable [Crypto]

namespace View

variable {V : ValidatorSet} {G : Set Certificate} {b b' : Bullshark} {r : ℕ} (h : View V G b)
  (h' : View V G b') (hsub : b.dag.certs ⊆ b'.dag.certs)

include h h' hsub

theorem leaderCertificate_mono {c : Certificate} (hc : b.leaderCertificate r = some c) :
    b'.leaderCertificate r = some c := by
  obtain ⟨hmem, hleader⟩ := h.leaderCertificate_eq_some_iff.1 hc
  exact h'.leaderCertificate_eq_some_iff.2 ⟨hsub hmem, hleader⟩

theorem committed_mono {d : Digest} (hd : b.directStatus r = .committed d) :
    b'.directStatus r = .committed d := by
  obtain ⟨c, hc, rfl, hquorum⟩ := directStatus_eq_committed_iff.1 hd
  refine directStatus_eq_committed_iff.2
    ⟨c, h.leaderCertificate_mono h' hsub hc, rfl, ?_⟩
  have hsupport : b.supporters r c.digest ⊆ b'.supporters r c.digest := by
    intro a ha
    obtain ⟨c', hc', hrest⟩ := h.mem_supporters.1 ha
    exact h'.mem_supporters.2 ⟨c', hsub hc', hrest⟩
  rw [h.committee, h.supportingStake_eq] at hquorum
  rw [h'.committee, h'.supportingStake_eq]
  exact hquorum.trans (V.stake_mono hsupport)

end View

/-- Direct verdicts are permanent: under a fixed committee with one certificate per round and
author, a larger DAG commits what a smaller one commits, and commits nothing in a round that the
smaller one skips. Parents may be missing from both. -/
theorem directStatus_permanent {V : ValidatorSet} {certs certs' : List Certificate}
    (hsub : certs ⊆ certs') (hdag : DagStore.Unequivocal {c | c ∈ certs'})
    (hauthor : ∀ c ∈ certs', c.vertex.author ∈ V.members) (gcFloor gcFloor' r : ℕ) :
    let b : Bullshark := ⟨certs.foldl DagStore.insert .new, .single V, gcFloor⟩
    let b' : Bullshark := ⟨certs'.foldl DagStore.insert .new, .single V, gcFloor'⟩
    (∀ d, b.directStatus r = .committed d → b'.directStatus r = .committed d) ∧
      (b.directStatus r = .skipped → ∀ d, b'.directStatus r ≠ .committed d) := by
  intro b b'
  obtain ⟨hindexed, hcerts⟩ := DagStore.mem_certs_of_list (hdag.mono hsub)
  obtain ⟨hindexed', hcerts'⟩ := DagStore.mem_certs_of_list hdag
  have hcommittee := fun r => ValidatorSchedule.single_forRound V r
  have h : View V {c | c ∈ certs'} b := ⟨hindexed, hcerts.trans_subset hsub, hcommittee⟩
  have h' : View V {c | c ∈ certs'} b' := ⟨hindexed', hcerts'.subset, hcommittee⟩
  refine ⟨fun d hd => h.committed_mono h' ?_ hd, fun hs d hd => ?_⟩
  · rw [show b.dag.certs = _ from hcerts, show b'.dag.certs = _ from hcerts']
    exact hsub
  · obtain ⟨c, -, -, hdirect⟩ := h'.directCommit_of_committed hd
    exact h.not_directCommit_of_skipped hdag hauthor hs c hdirect

omit [Crypto] in
/-- A node that lacks three certificates of the fork skips round 0, which is not committed with all
of them, and commits the leader of round 2, as does one that has everything. -/
theorem directStatus_permanent_fork :
    let late := forkDag.filter fun c =>
      (c.vertex.round, c.vertex.author.val) ∉ [(0, 1), (1, 3), (1, 4)]
    let status := fun certs r => @Bullshark.directStatus forkCrypto
      ⟨certs.foldl (@DagStore.insert forkCrypto) .new, .single forkCommittee, 0⟩ r
    status late 0 = .skipped ∧ status late 2 = .committed (digestAt forkDigests 2 4) ∧
      (∀ d, status forkDag 0 ≠ .committed d) ∧
      status forkDag 2 = .committed (digestAt forkDigests 2 4) := by
  intro late status
  have hskipped : status late 0 = .skipped := by decide +kernel
  have hcommitted : status late 2 = .committed (digestAt forkDigests 2 4) := by decide +kernel
  let := forkCrypto
  have hsub : late ⊆ forkDag := List.filter_subset_self _
  have hpermanent := directStatus_permanent hsub certifiedDag_fork.toUnequivocal
    certifiedDag_fork.author_mem 0 0
  exact ⟨hskipped, hcommitted, (hpermanent 0).2 hskipped, (hpermanent 2).1 _ hcommitted⟩

namespace FullView

variable {V : ValidatorSet} {b b' : Bullshark} {r : ℕ}

/-- Every round has certificates up to that of any certificate. -/
theorem exists_round_eq (h : FullView V b) {c : Certificate} (hc : c ∈ b.dag.certs) {g : ℕ}
    (hg : g ≤ c.vertex.round) : ∃ c' ∈ b.dag.certs, c'.vertex.round = g := by
  obtain ⟨n, hn⟩ : ∃ n, c.vertex.round = g + n := ⟨c.vertex.round - g, by omega⟩
  induction n generalizing c with
  | zero => exact ⟨c, hc, hn⟩
  | succ n ih =>
    obtain ⟨c', hc', -, hround⟩ := h.exists_parent hc (by omega)
    exact ih hc' (by omega) (by omega)

/-- Known and possible supporters are different members. -/
theorem stake_le_of_subset (h : FullView V b) {d : Digest} {S : Finset ValidatorId}
    (hS : b.supporters r d ∪ b.unknown r ⊆ S) :
    b.supportingStake r d + b.unknownStake r ≤ V.stake S := by
  have hdisjoint : Disjoint (b.supporters r d) (b.unknown r) := by
    rw [disjoint_left]
    intro a ha hunknown
    obtain ⟨c, hc, hround, rfl, -⟩ := h.mem_supporters.1 ha
    exact (h.mem_unknown.1 hunknown).2 c hc hround rfl
  rw [h.supportingStake_eq, h.unknownStake_eq, ValidatorSet.stake, ValidatorSet.stake,
    ← sum_union hdisjoint]
  exact V.stake_mono hS

/-- A DAG as part of a larger one. -/
theorem view_of_subset (h : FullView V b) {G : Set Certificate} (hsub : b.dag.certs ⊆ G) :
    View V G b := ⟨h.indexed, hsub, h.committee⟩

section Growth

variable (h : FullView V b) (h' : FullView V b') (hsub : b.dag.certs ⊆ b'.dag.certs)

include h h' hsub

theorem unknown_anti : b'.unknown r ⊆ b.unknown r := by
  intro a ha
  obtain ⟨hmem, hnone⟩ := h'.mem_unknown.1 ha
  exact h.mem_unknown.2 ⟨hmem, fun c hc => hnone c (hsub hc)⟩

/-- Whoever supports a digest, or may still do, did so or might have done so before. -/
theorem supporters_union_unknown_subset (r : ℕ) (d : Digest) :
    b'.supporters r d ∪ b'.unknown r ⊆ b.supporters r d ∪ b.unknown r := by
  intro a ha
  rcases mem_union.1 ha with ha | ha
  · obtain ⟨c, hc, hround, rfl, hd⟩ := h'.mem_supporters.1 ha
    exact mem_union.2
      ((h.view_of_subset hsub).mem_supporters_or_unknown h'.certified.toUnequivocal
        h'.certified.author_mem hc hround hd)
  · exact mem_union_right _ (h.unknown_anti h' hsub ha)

theorem skipped_mono (hmax : r < u64Max) (hs : b.directStatus r = .skipped) :
    b'.directStatus r = .skipped := by
  rw [directStatus_eq_skipped_iff, h'.committee]
  rcases directStatus_eq_skipped_iff.1 hs with hnone | ⟨c, hc, hlt⟩ | ⟨hnone, hlt, hheld⟩
  · left
    rw [h'.leaderForRound_eq, ← h.leaderForRound_eq, hnone]
  · right
    left
    refine ⟨c, (h.view_of_subset hsub).leaderCertificate_mono h'.toView hsub hc, ?_⟩
    have hle := h'.stake_le_of_subset (h.supporters_union_unknown_subset h' hsub r c.digest)
    have hunion := V.stake_union_le (b.supporters r c.digest) (b.unknown r)
    rw [h.supportingStake_eq, h.unknownStake_eq, h.committee] at hlt
    omega
  · right
    rw [h.unknownStake_eq, h.committee] at hlt
    cases hleader : b'.leaderCertificate r with
    | none =>
      right
      refine ⟨rfl, ?_, ?_⟩
      · rw [h'.unknownStake_eq]
        exact (V.stake_mono (h.unknown_anti h' hsub)).trans_lt hlt
      · intro c hc p hp
        have hzero := h'.cut.knownSupportIsPermanentlyZero_eq_true
          (by rw [h'.gcFloor]; exact Nat.zero_le r) hmax
        simp only [knownSupportIsPermanentlyZero, List.all_eq_true] at hzero
        exact (b'.dag.contains_iff).1 (hzero c hc p hp)
    | some c =>
      left
      refine ⟨c, rfl, lt_of_le_of_lt (h'.stake_le_of_subset ?_) hlt⟩
      intro a ha
      rcases mem_union.1 (h.supporters_union_unknown_subset h' hsub r c.digest ha) with
        hsupp | hunknown
      · -- a supporter known before would have had the leader's certificate as a held parent
        obtain ⟨c', hc', hround, -, hd⟩ := h.mem_supporters.1 hsupp
        obtain ⟨l, hl⟩ := hheld c' (h.mem_nextRoundCerts.2 ⟨hc', hround⟩) _ hd
        obtain ⟨hcmem, hcleader⟩ := h'.leaderCertificate_eq_some_iff.1 hleader
        have hlmem := h.indexed.mem_certs hl
        have heq := h'.certified.eq_of_digest (hsub hlmem) hcmem (h.indexed.digest_eq hl)
        subst heq
        have hbefore := (h.view_of_subset hsub).leaderCertificate_eq_some_iff.2
          ⟨hlmem, hcleader⟩
        rw [hnone] at hbefore
        cases hbefore
      · exact hunknown

theorem decided_mono (hmax : r < u64Max) (hd : b.directStatus r ≠ .undecided) :
    b'.directStatus r ≠ .undecided := by
  cases hstatus : b.directStatus r with
  | committed d =>
    rw [(h.view_of_subset hsub).committed_mono h'.toView hsub hstatus]
    exact fun h => by cases h
  | skipped =>
    rw [h.skipped_mono h' hsub hmax hstatus]
    exact fun h => by cases h
  | undecided => exact absurd hstatus hd

end Growth

end FullView

/-! ### Anchored rounds -/

/-- Some round from `r` on is directly committed, all rounds below it being decided. -/
def Bullshark.Anchored (b : Bullshark) (r : ℕ) : Prop :=
  ∃ w, r ≤ w ∧ (b.directStatus w).isCommitted ∧ ∀ k < w, b.directStatus k ≠ .undecided

theorem Bullshark.Anchored.decided {b : Bullshark} {r : ℕ} (hr : b.Anchored r) :
    b.directStatus r ≠ .undecided := by
  obtain ⟨w, hrw, hw, hdecided⟩ := hr
  rcases Nat.eq_or_lt_of_le hrw with rfl | hlt
  · obtain ⟨d, hd⟩ := isCommitted_iff.1 hw
    rw [hd]
    exact fun h => by cases h
  · exact hdecided r hlt

/-- A round that commits with all lower rounds decided is anchored. -/
theorem Bullshark.anchored_of_resolve {b : Bullshark} {r upTo : ℕ} (hup : upTo < u64Max)
    (hr : r ≤ upTo) (hdecided : ∀ k < r, b.directStatus k ≠ .undecided) {d : Digest}
    (hres : b.resolve r upTo = .committed d) : b.Anchored r := by
  rcases resolve_eq_committed hres with hd | ⟨hskip, -, w, -, -, hw, -⟩
  · exact ⟨r, le_rfl, isCommitted_iff.2 ⟨d, hd⟩, hdecided⟩
  · obtain ⟨k, hrk, -, hk, hskipped⟩ := ultimateWitness_eq_some hup.le hw
    rw [satAdd_of_le (by omega)] at hrk hskipped
    refine ⟨k, by omega, isCommitted_iff.2 ⟨w, hk⟩, fun j hj => ?_⟩
    rcases Nat.lt_trichotomy j r with hlt | rfl | hgt
    · exact hdecided j hlt
    · rw [hskip]
      exact fun h => by cases h
    · rw [hskipped j hgt hj]
      exact fun h => by cases h

/-- Whatever a pass has in its cache at the end is anchored if that was so before. -/
theorem Bullshark.anchored_extendOrder {b : Bullshark} {upTo : ℕ} (hup : upTo < u64Max)
    {seen : Finset Digest} {cache : Map ℕ Digest}
    (hcache : ∀ k d, cache.lookup k = some d → b.Anchored k) :
    ∀ k d, (b.extendOrder 0 upTo seen cache).1.committedCache.lookup k = some d →
      b.Anchored k := by
  let Q : ℕ → Bullshark.OrderState → Prop := fun _ st =>
    ∀ k d, st.committedCache.lookup k = some d → b.Anchored k
  let I : ℕ → Bullshark.OrderState → Prop := fun round st =>
    Q round st ∧ ∀ k < round, b.directStatus k ≠ .undecided
  -- what the round puts into the cache is anchored, since the lower rounds are decided
  have hkeep : ∀ round st, round ≤ upTo → I round st →
      Q round (b.stepRound upTo round st).1 := by
    intro round st hround hI k d hlook
    rw [committedCache_stepRound] at hlook
    by_cases hk : k = round
    · subst hk
      cases hbefore : st.committedCache.lookup k with
      | some d' => exact hI.1 k d' hbefore
      | none =>
        rw [b.lookup_snd_cachedOutcome_self, b.fst_cachedOutcome hbefore] at hlook
        cases hres : b.resolve k upTo with
        | committed d' => exact Bullshark.anchored_of_resolve hup hround hI.2 hres
        | skipped | undecided =>
          rw [hres] at hlook
          cases hlook
    · rw [b.lookup_snd_cachedOutcome_of_ne hk] at hlook
      exact hI.1 k d hlook
  show Q (b.extendOrder 0 upTo seen cache).2 (b.extendOrder 0 upTo seen cache).1
  apply b.extendOrderLoop_rule (I := I) (Q := Q)
  · intro round st hround hI hgo
    refine ⟨hkeep round st hround hI, fun k hk => ?_⟩
    rcases Nat.lt_succ_iff_lt_or_eq.1 hk with hlt | rfl
    · exact hI.2 k hlt
    · intro hundecided
      have hne := b.cachedOutcome_ne_undecided hgo
      cases hbefore : st.committedCache.lookup k with
      | some d => exact (hI.1 k d hbefore).decided hundecided
      | none =>
        rw [b.fst_cachedOutcome hbefore, resolve_of_ne_skipped (by simp [hundecided])]
          at hne
        exact hne hundecided
  · intro round st hround hI _
    exact hkeep round st hround hI
  · intro round st _ hI
    exact hI.1
  · exact le_rfl
  · exact ⟨hcache, fun k hk => absurd hk (Nat.not_lt_zero k)⟩

namespace FullView

variable {V : ValidatorSet} {b b' : Bullshark} {r : ℕ}

/-- A directly committed round has a certificate. -/
theorem le_highestRound (h : FullView V b) {w : ℕ} (hw : (b.directStatus w).isCommitted) :
    w ≤ b.dag.highestRound := by
  obtain ⟨d, hd⟩ := isCommitted_iff.1 hw
  obtain ⟨c, hc, -, hdirect⟩ := h.directCommit_of_committed hd
  have hround : c.vertex.round = w := hdirect.1.2.1
  rw [← hround]
  exact h.indexed.round_le hc

theorem anchored_mono (h : FullView V b) (h' : FullView V b') (hsub : b.dag.certs ⊆ b'.dag.certs)
    (hr : b.Anchored r) : b'.Anchored r := by
  obtain ⟨w, hrw, hw, hdecided⟩ := hr
  have hmax := (h.le_highestRound hw).trans_lt h.highest_lt
  obtain ⟨d, hd⟩ := isCommitted_iff.1 hw
  have hcommitted := (h.view_of_subset hsub).committed_mono h'.toView hsub hd
  refine ⟨w, hrw, isCommitted_iff.2 ⟨d, hcommitted⟩, ?_⟩
  exact fun k hk => h.decided_mono h' hsub (by omega) (hdecided k hk)

/-- A round up to an anchored one is resolved. -/
theorem resolve_ne_undecided (h : FullView V b) {j : ℕ} (hj : b.Anchored j) (hr : r ≤ j) :
    b.resolve r b.dag.highestRound ≠ .undecided := by
  obtain ⟨w, hjw, hw, hdecided⟩ := hj
  have hle := h.le_highestRound hw
  have hmax := h.highest_lt
  have hdecided' : ∀ k ≤ w, b.directStatus k ≠ .undecided := by
    intro k hk
    exact Bullshark.Anchored.decided ⟨w, hk, hw, hdecided⟩
  by_cases hskip : b.directStatus r = .skipped
  · cases hc : b.leaderCertificate r with
    | none =>
      rw [resolve_of_absent hskip hc]
      exact fun h => by cases h
    | some t =>
      have hrw : r < w := by
        refine lt_of_le_of_ne (hr.trans hjw) fun heq => ?_
        rw [← heq, hskip] at hw
        cases hw
      obtain ⟨d, hd⟩ := exists_ultimateWitness_eq (by omega) hrw hdecided' hw
      have hwitness := hd b.dag.highestRound hle
      obtain ⟨k, -, -, hcommit, -⟩ := ultimateWitness_eq_some hmax.le hwitness
      obtain ⟨cw, hcw, rfl, -⟩ := h.directCommit_of_committed hcommit
      have hnext : satAdd r 1 = r + 1 := satAdd_of_le (by omega)
      rw [← hnext] at hwitness
      classical
      rw [resolve_of_witness hskip hc hwitness,
        h.cut.reaches_eq_decide hcw (by rw [h.gcFloor]; exact Nat.zero_le _)]
      by_cases hpath : b.Path cw.digest t.digest
      · simp [hpath]
      · simp [hpath]
  · rw [resolve_of_ne_skipped hskip]
    exact hdecided' r (hr.trans hjw)

/-- Nothing is missing from the history of a witness. -/
theorem skipsJustified (h : FullView V b) {upTo : ℕ} (hup : upTo ≤ u64Max) :
    b.SkipsJustified upTo := by
  intro r _ _ _ w hw d hreach
  obtain ⟨k, -, -, hk, -⟩ := ultimateWitness_eq_some hup hw
  obtain ⟨cw, hcw, rfl, -⟩ := h.directCommit_of_committed hk
  induction hreach with
  | refl => exact ⟨cw, hcw⟩
  | tail _ hstep _ =>
    obtain ⟨c, hget, hround, hmem⟩ := hstep
    obtain ⟨c', hc', rfl, -⟩ :=
      h.certified.parent_mem c (h.indexed.mem_certs hget) (by omega) _ hmem
    exact ⟨c', hc'⟩

end FullView

end QChain
