import QChain.Consensus.Agreement
import QChain.Consensus.Barrier

/-!
# Re-deriving the order after a restart

A node that restarts has its DAG from the GC barrier `g` on and resolves it again from a fresh
state. It gets the order of the whole DAG restricted to the rounds from `g` on, and stops where the
pass over the whole DAG stops. That pass emits nothing of those rounds before it comes to round
`g`; from there on both resolve every round alike.
-/

namespace QChain

open ConsensusState DagStore List PostOrder

section Rederivation

variable [Crypto] {V : ValidatorSet} {b b' : Bullshark} {upTo : ℕ}

/-- Above the barrier a walk emits what a walk over the whole DAG emits there. -/
theorem Cut.filter_history (h : Cut V b b') {seen seen' : Finset Digest}
    (hseen : ∀ x, b.dag.holdsFrom b'.gcFloor x = true → (x ∈ seen' ↔ x ∈ seen))
    {c : Certificate} (hc : c ∈ b.dag.certs) :
    (b.history seen c.digest).filter (b.dag.holdsFrom b'.gcFloor) =
      if b'.gcFloor ≤ c.vertex.round then b'.history seen' c.digest else [] := by
  have hget : b.dag.get c.digest = some c := hc
  have hlow : ∀ x, b.dag.holdsFrom b'.gcFloor x = false → ∀ p ∈ b.succ x,
      b.dag.holdsFrom b'.gcFloor p = false := by
    intro x hx p hp
    by_contra hfrom
    rw [Bool.not_eq_false] at hfrom
    rw [h.full.holdsFrom_of_mem_succ hp hfrom] at hx
    cases hx
  rw [Bullshark.history, visit_filter _ hseen (fun x hx => h.succ_eq_filter hx) hlow,
    holdsFrom_digest hc, filter_nil]
  by_cases hround : b'.gcFloor ≤ c.vertex.round
  · have hget' : b'.dag.get c.digest = some c := h.above c hc hround
    rw [decide_eq_true hround, if_pos rfl, if_pos hround, Bullshark.history,
      Bullshark.rank_of_get hget, Bullshark.rank_of_get hget']
  · rw [decide_eq_false hround, if_neg (by simp), if_neg hround]

/-- The second pass has emitted what the first has emitted at the barrier or above, and no
cache has an entry for the rounds to come. -/
structure Rederives (b b' : Bullshark) (round : ℕ) (st st' : Bullshark.OrderState) : Prop where
  ordered : st'.ordered = st.ordered.filter (b.dag.holdsFrom b'.gcFloor)
  seen : ∀ x, b.dag.holdsFrom b'.gcFloor x = true → (x ∈ st'.seen ↔ x ∈ st.seen)
  uncached : ∀ k, round ≤ k → st.committedCache.lookup k = none
  uncached' : ∀ k, round ≤ k → st'.committedCache.lookup k = none

/-- What a round adds to both passes keeps them related. -/
theorem Cut.rederives_append (h : Cut V b b') {round : ℕ} {st st' : Bullshark.OrderState}
    (hst : Rederives b b' round st st') {c : Certificate} (hc : c ∈ b.dag.certs)
    (hround : b'.gcFloor ≤ c.vertex.round) {cache cache' : Map ℕ Digest}
    (huncached : ∀ k, round + 1 ≤ k → cache.lookup k = none)
    (huncached' : ∀ k, round + 1 ≤ k → cache'.lookup k = none) :
    Rederives b b' (round + 1)
      ⟨st.ordered ++ b.history st.seen c.digest, st.seen ∪ (b.history st.seen c.digest).toFinset,
        cache⟩
      ⟨st'.ordered ++ b'.history st'.seen c.digest,
        st'.seen ∪ (b'.history st'.seen c.digest).toFinset, cache'⟩ := by
  have hhistory := h.filter_history hst.seen hc
  rw [if_pos hround] at hhistory
  refine ⟨?_, fun x hx => ?_, huncached, huncached'⟩
  · rw [filter_append, ← hst.ordered, hhistory]
  · simp only [Finset.mem_union, mem_toFinset, hst.seen x hx, ← hhistory, mem_filter,
      hx, and_true]

/-- The cache has no entry beyond a round it just passed. -/
theorem Bullshark.uncached_succ (b : Bullshark) (upTo : ℕ) {round : ℕ} {cache : Map ℕ Digest}
    (hcache : ∀ k, round ≤ k → cache.lookup k = none) (k : ℕ) (hk : round + 1 ≤ k) :
    (b.cachedOutcome upTo round cache).2.lookup k = none := by
  rw [b.lookup_snd_cachedOutcome_of_ne (by omega)]
  exact hcache k (by omega)

/-- Below the barrier the pass over the whole DAG emits nothing that is kept. -/
theorem Cut.rederives_below (h : Cut V b b') (hup : upTo < u64Max) {round : ℕ}
    {st : Bullshark.OrderState} (hlt : round < b'.gcFloor) (hle : round ≤ upTo)
    (hres : b.resolve round upTo ≠ .undecided) (hst : Rederives b b' round st ⟨[], ∅, ∅⟩) :
    (b.stepRound upTo round st).2 = true ∧
      Rederives b b' (round + 1) (b.stepRound upTo round st).1 ⟨[], ∅, ∅⟩ := by
  have hzero : b.gcFloor ≤ round := by
    rw [h.full.gcFloor]
    exact Nat.zero_le _
  have houtcome : (b.cachedOutcome upTo round st.committedCache).1 = b.resolve round upTo :=
    b.fst_cachedOutcome (hst.uncached round le_rfl)
  have hheld : ∀ d, (b.cachedOutcome upTo round st.committedCache).1 = .committed d →
      ∃ c ∈ b.dag.certs, c.digest = d ∧ c.vertex.round = round := by
    intro d hd
    rw [houtcome] at hd
    exact h.full.cut.exists_of_resolve hzero hle hup hd
  rw [h.full.cut.stepRound_of_held fun d hd => ?_, houtcome]
  · have huncached := b.uncached_succ upTo hst.uncached
    cases hcase : b.resolve round upTo with
    | committed d =>
      obtain ⟨c, hc, rfl, hround⟩ := hheld d (by rw [houtcome, hcase])
      have hhistory := h.filter_history hst.seen hc
      rw [if_neg (by omega), filter_eq_nil_iff] at hhistory
      refine ⟨rfl, ?_, fun x hx => ?_, huncached, fun k _ => AList.lookup_empty k⟩
      · rw [filter_append, ← hst.ordered, nil_append]
        exact (filter_eq_nil_iff.2 hhistory).symm
      · rw [hst.seen x hx, Finset.mem_union, mem_toFinset]
        exact ⟨Or.inl, fun hmem => hmem.resolve_right fun hmem => hhistory x hmem hx⟩
    | skipped => exact ⟨rfl, hst.ordered, hst.seen, huncached, fun k _ => AList.lookup_empty k⟩
    | undecided => exact absurd hcase hres
  · obtain ⟨c, hc, hdigest, hround⟩ := hheld d hd
    exact ⟨c, hc, hdigest, by omega⟩

/-- From the barrier on a round does to both passes the same. -/
theorem Cut.rederives_step (h : Cut V b b') (hup : upTo < u64Max) {round : ℕ}
    {st st' : Bullshark.OrderState} (hge : b'.gcFloor ≤ round) (hle : round ≤ upTo)
    (hst : Rederives b b' round st st') :
    (b.stepRound upTo round st).2 = (b'.stepRound upTo round st').2 ∧
      Rederives b b' (round + 1) (b.stepRound upTo round st).1
        (b'.stepRound upTo round st').1 := by
  have houtcome : (b.cachedOutcome upTo round st.committedCache).1 = b.resolve round upTo :=
    b.fst_cachedOutcome (hst.uncached round le_rfl)
  have houtcome' : (b'.cachedOutcome upTo round st'.committedCache).1 = b.resolve round upTo := by
    rw [b'.fst_cachedOutcome (hst.uncached' round le_rfl), h.resolve_eq hge hle hup]
  have hheld : ∀ d, b.resolve round upTo = .committed d →
      ∃ c ∈ b'.dag.certs, c.digest = d ∧ c.vertex.round = round :=
    fun d hd => h.exists_of_resolve hge hle hup hd
  have hzero : b.gcFloor ≤ round := by
    rw [h.full.gcFloor]
    exact Nat.zero_le _
  rw [h.full.cut.stepRound_of_held fun d hd => ?_, h.stepRound_of_held fun d hd => ?_, houtcome,
    houtcome']
  · have huncached := b.uncached_succ upTo hst.uncached
    have huncached' := b'.uncached_succ upTo hst.uncached'
    cases hcase : b.resolve round upTo with
    | committed d =>
      obtain ⟨c, hc, rfl, hround⟩ := hheld d hcase
      exact ⟨rfl, h.rederives_append hst (h.sub hc) (by omega) huncached huncached'⟩
    | skipped | undecided => exact ⟨rfl, hst.ordered, hst.seen, huncached, huncached'⟩
  · rw [houtcome'] at hd
    obtain ⟨c, hc, hdigest, hround⟩ := hheld d hd
    exact ⟨c, hc, hdigest, by omega⟩
  · rw [houtcome] at hd
    obtain ⟨c, hc, hdigest, hround⟩ := hheld d hd
    exact ⟨c, h.sub hc, hdigest, by omega⟩

/-- A fresh pass above the barrier re-derives the order of a pass over the whole DAG that
gets at least to the barrier. -/
theorem Cut.extendOrder_eq (h : Cut V b b') (hup : upTo < u64Max)
    (hg : b'.gcFloor ≤ (b.extendOrder 0 upTo ∅ ∅).2) :
    (b.extendOrder 0 upTo ∅ ∅).2 = (b'.extendOrder b'.gcFloor upTo ∅ ∅).2 ∧
      (b'.extendOrder b'.gcFloor upTo ∅ ∅).1.ordered =
        (b.extendOrder 0 upTo ∅ ∅).1.ordered.filter (b.dag.holdsFrom b'.gcFloor) := by
  have hle : b'.gcFloor ≤ upTo + 1 := hg.trans (b.snd_extendOrder_le)
  have hstart : Rederives b b' 0 ⟨[], ∅, ∅⟩ ⟨[], ∅, ∅⟩ :=
    ⟨rfl, fun _ _ => Iff.rfl, fun k _ => AList.lookup_empty k, fun k _ => AList.lookup_empty k⟩
  -- the pass over the whole DAG comes by the barrier without having emitted what is kept
  obtain ⟨st, hst, heq⟩ := b.exists_extendOrderLoop_eq
    (I := fun round st => Rederives b b' round st ⟨[], ∅, ∅⟩) hle (fun round st hlt hst =>
      h.rederives_below hup hlt (by omega) (b.resolve_ne_undecided_of_lt (hlt.trans_le hg)) hst)
    (Nat.zero_le _) hstart
  have hsim := Bullshark.extendOrderLoop_simulation
    (R := fun round st st' => b'.gcFloor ≤ round ∧ Rederives b b' round st st')
    (Q := fun st st' => st'.ordered = st.ordered.filter (b.dag.holdsFrom b'.gcFloor))
    (fun round st st' hround hR => by
      obtain ⟨hgo, hnext⟩ := h.rederives_step hup hR.1 hround hR.2
      exact ⟨hgo, fun _ => ⟨by omega, hnext⟩, fun _ => hnext.ordered⟩)
    (fun _ _ _ _ hR => hR.2.ordered) le_rfl ⟨le_rfl, hst⟩
  rw [Bullshark.extendOrder, Bullshark.extendOrder, heq]
  exact hsim

/-- The DAG of a list of certificates, resolved as a whole and above a barrier. -/
theorem cut_of_list {certs : List Certificate} (hdag : CertifiedDag V {c | c ∈ certs})
    (hmax : ∀ c ∈ certs, c.vertex.round < u64Max) (g : ℕ) :
    let dag := certs.foldl DagStore.insert .new
    Cut V ⟨dag, .single V, 0⟩ ⟨(dag.pruneBelow g).1, .single V, g⟩ := by
  intro dag
  obtain ⟨hindexed, hcerts⟩ := mem_certs_of_list hdag.toUnequivocal
  have hcommittee := fun r => ValidatorSchedule.single_forRound V r
  refine ⟨⟨⟨hindexed, fun c hc => hc, hcommittee⟩, ?_, rfl, ?_⟩,
    indexed_pruneBelow hindexed g, fun c hc => ?_, fun c hc hround => ?_, hcommittee⟩
  · rw [hcerts]
    exact hdag
  · exact highestRound_lt_of_list (by decide) hmax
  · exact ((mem_certs_pruneBelow hindexed).1 hc).1
  · exact (mem_certs_pruneBelow hindexed).2 ⟨hc, hround⟩

/-- Resolving a parent-closed DAG again, from a fresh state with the barrier at a round the
full resolution has reached and on what pruning leaves above it, yields the full order
restricted to the certificates from that round on, and stops at the same round. -/
theorem rederivation (certs : List Certificate) (hdag : CertifiedDag V {c | c ∈ certs})
    (hmax : ∀ c ∈ certs, c.vertex.round < u64Max) (g : ℕ) :
    let dag := certs.foldl DagStore.insert .new
    let full := ConsensusState.new.advance dag (.single V)
    let rederived :=
      (ConsensusState.new.setGcFloor g).advance (dag.pruneBelow g).1 (.single V)
    g ≤ full.1.finalizedFloor →
      rederived.2 = full.2.filter (dag.holdsFrom g) ∧
        rederived.1.finalizedFloor = full.1.finalizedFloor := by
  intro dag full rederived hg
  have hcut := cut_of_list hdag hmax g
  have hup : ConsensusState.upTo dag (.single V) < u64Max :=
    (min_le_left _ _).trans_lt hcut.full.highest_lt
  let pass := Bullshark.extendOrder ⟨dag, .single V, 0⟩ 0 (ConsensusState.upTo dag (.single V)) ∅ ∅
  let repass := Bullshark.extendOrder ⟨(dag.pruneBelow g).1, .single V, g⟩ g
    (ConsensusState.upTo dag (.single V)) ∅ ∅
  have hfull : full.1.finalizedFloor = pass.2 := by
    rw [finalizedFloor_advance]
    exact max_eq_right (Nat.zero_le pass.2)
  have hrederived : rederived.2 = repass.1.ordered ∧
      rederived.1.finalizedFloor = max g repass.2 := by
    have hfloor := finalizedFloor_advance (ConsensusState.new.setGcFloor g)
      (dag.pruneBelow g).1 (.single V)
    rw [setGcFloor_new] at hfloor
    show ((ConsensusState.new.setGcFloor g).advance _ _).2 = _ ∧
      ((ConsensusState.new.setGcFloor g).advance _ _).1.finalizedFloor = _
    rw [setGcFloor_new]
    exact ⟨rfl, hfloor⟩
  rw [hfull] at hg
  obtain ⟨hstop, hordered⟩ := hcut.extendOrder_eq hup hg
  refine ⟨hrederived.1.trans hordered, ?_⟩
  rw [hrederived.2, hfull, ← hstop]
  exact max_eq_right hg

end Rederivation

/-! ### The fork, from round 1 on

A node that has kept the rounds from 1 on re-derives the last four of the eight certificates
of the order. -/

theorem rederivation_fork :
    let dag := forkDag.foldl (@DagStore.insert forkCrypto) .new
    let full := @ConsensusState.advance forkCrypto .new dag (.single forkCommittee)
    let rederived := @ConsensusState.advance forkCrypto (.setGcFloor .new 1) (dag.pruneBelow 1).1
      (.single forkCommittee)
    full.1.finalizedFloor = 3 ∧ full.2.length = 8 ∧ rederived.2.length = 4 ∧
      rederived.2 = full.2.filter (dag.holdsFrom 1) ∧
        rederived.1.finalizedFloor = full.1.finalizedFloor := by
  refine ⟨by decide +kernel, by decide +kernel, by decide +kernel, ?_⟩
  apply @rederivation forkCrypto _ forkDag certifiedDag_fork
  · decide +kernel
  · decide +kernel

end QChain
