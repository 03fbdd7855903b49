import QChain.Consensus.Bullshark
import QChain.Graph.PostOrder

/-!
# The causal walk is the recursive post-order

`walk_causal_history` runs on an explicit stack and merges its emissions only when its root is
fully present. It is the recursive post-order `PostOrder.visit` on the graph of parent links, cut
off at the GC barrier, if every digest reachable through unemitted certificates is held
(`Complete`); otherwise it fails and changes nothing. The proof follows the stack: `Visited` says
what processing the entry frames of a list of digests does, whatever lies below them.
-/

namespace QChain

open List

namespace Bullshark

open PostOrder

variable (b : Bullshark)

/-! ### The graph a walk follows -/

/-- The parents a walk visits from a digest: none if it is missing or at the barrier. -/
def succ (d : Digest) : List Digest :=
  match b.dag.get d with
  | none => []
  | some cert =>
    if cert.vertex.round ≤ b.gcFloor then [] else cert.vertex.parents.insertionSort (· ≤ ·)

/-- The round of a held certificate, `0` for a missing one. -/
def rank (d : Digest) : ℕ :=
  match b.dag.get d with
  | none => 0
  | some cert => cert.vertex.round

/-- Held parents of a certificate above the barrier have smaller rounds. -/
def ParentsBelow : Prop :=
  ∀ ⦃d c⦄, b.dag.get d = some c → b.gcFloor < c.vertex.round → ∀ p ∈ c.vertex.parents,
    ∀ ⦃c'⦄, b.dag.get p = some c' → c'.vertex.round < c.vertex.round

/-- Every digest reachable through unemitted certificates is emitted or held. -/
def Complete (seen : Finset Digest) (d : Digest) : Prop :=
  ∀ v, Reach b.succ seen d v → v ∈ seen ∨ ∃ c, b.dag.get v = some c

variable {b} {d : Digest} {st : WalkState} {c : Certificate} {n : ℕ} {ps : List Digest}

theorem succ_of_get (h : b.dag.get d = some c) (hround : b.gcFloor < c.vertex.round) :
    b.succ d = c.vertex.parents.insertionSort (· ≤ ·) := by
  simp [succ, h, Nat.not_le.2 hround]

theorem succ_of_round_le (h : b.dag.get d = some c) (hround : c.vertex.round ≤ b.gcFloor) :
    b.succ d = [] := by
  simp [succ, h, hround]

theorem succ_of_get_none (h : b.dag.get d = none) : b.succ d = [] := by
  simp [succ, h]

theorem rank_of_get (h : b.dag.get d = some c) : b.rank d = c.vertex.round := by
  simp [rank, h]

theorem mem_succ {p : Digest} (hp : p ∈ b.succ d) :
    ∃ c, b.dag.get d = some c ∧ b.gcFloor < c.vertex.round ∧ p ∈ c.vertex.parents := by
  cases hget : b.dag.get d with
  | none => simp [succ_of_get_none hget] at hp
  | some c =>
    by_cases hround : c.vertex.round ≤ b.gcFloor
    · simp [succ_of_round_le hget hround] at hp
    · rw [succ_of_get hget (Nat.not_le.1 hround), mem_insertionSort] at hp
      exact ⟨c, rfl, Nat.not_le.1 hround, hp⟩

theorem ranked_succ (hdag : b.ParentsBelow) : Ranked b.succ b.rank := by
  intro d p hp
  obtain ⟨c, hget, hround, hpar⟩ := mem_succ hp
  rw [rank_of_get hget]
  cases hgetp : b.dag.get p with
  | none =>
    simp only [rank, hgetp]
    omega
  | some c' =>
    rw [rank_of_get hgetp]
    exact hdag hget hround p hpar hgetp

variable {seen : Finset Digest}

theorem complete_of_mem (h : d ∈ seen) : b.Complete seen d := by
  intro v hv
  rcases Relation.ReflTransGen.cases_head hv with rfl | ⟨x, ⟨hd, -⟩, -⟩
  · exact Or.inl h
  · exact absurd h hd

theorem not_complete_of_get_none (hd : d ∉ seen) (hget : b.dag.get d = none) :
    ¬ b.Complete seen d := by
  intro h
  rcases h d Relation.ReflTransGen.refl with hmem | ⟨c, hc⟩
  · exact hd hmem
  · rw [hget] at hc
    cases hc

theorem complete_iff_of_get (hd : d ∉ seen) (hget : b.dag.get d = some c) :
    b.Complete seen d ↔ ∀ p ∈ b.succ d, b.Complete seen p := by
  constructor
  · intro h p hp v hv
    exact h v (Relation.ReflTransGen.head ⟨hd, hp⟩ hv)
  · intro h v hv
    rcases Relation.ReflTransGen.cases_head hv with rfl | ⟨p, ⟨-, hp⟩, hpv⟩
    · exact Or.inr ⟨c, hget⟩
    · exact h p hp v hpv

/-! ### Processing stack frames -/

/-- Popping `k` frames deals with the frames `fs`, whatever lies below them. -/
def Processes (b : Bullshark) (seen : Finset Digest) (k : ℕ) (fs : List WalkStep)
    (st st' : WalkState) : Prop :=
  ∀ fuel stack, b.walkLoop seen (k + fuel) (fs ++ stack) st = b.walkLoop seen fuel stack st'

theorem Processes.trans {k k' : ℕ} {fs fs' : List WalkStep} {st' st'' : WalkState}
    (h : b.Processes seen k fs st st') (h' : b.Processes seen k' fs' st' st'') :
    b.Processes seen (k + k') (fs ++ fs') st st'' := by
  intro fuel stack
  rw [Nat.add_assoc, append_assoc, h, h']

theorem walkLoop_nil (fuel : ℕ) (st : WalkState) : b.walkLoop seen fuel [] st = st := by
  cases fuel <;> rfl

/-- The frames still to be popped for certificates the memo does not record. -/
def pending (b : Bullshark) (st : WalkState) : ℕ :=
  b.dag.byDigest.weightOutside (fun c => 1 + c.vertex.parents.length) (· ∈ st.memo)

/-- Buffered digests are the resolved ones among those the memo records. -/
structure WalkInv (b : Bullshark) (seen : Finset Digest) (st : WalkState) : Prop where
  mem_localSeen : ∀ x, x ∈ st.localSeen ↔ x ∈ st.localOrdered
  memo_of_localSeen : ∀ x ∈ st.localSeen, x ∈ st.memo
  complete_iff : ∀ x ∈ st.memo, x ∈ st.localSeen ↔ b.Complete seen x

theorem walkInv_init (seen : Finset Digest) : b.WalkInv seen .init where
  mem_localSeen x := by simp [WalkState.init]
  memo_of_localSeen x hx := by simp [WalkState.init] at hx
  complete_iff x hx := absurd hx (AList.notMem_empty x)

theorem mem_memo_emit {x : Digest} : x ∈ (st.emit d).memo ↔ x = d ∨ x ∈ st.memo :=
  AList.mem_insert _

theorem mem_memo_fail {x : Digest} : x ∈ (st.fail d).memo ↔ x = d ∨ x ∈ st.memo :=
  AList.mem_insert _

theorem WalkInv.emit (h : b.WalkInv seen st) (hd : b.Complete seen d) :
    b.WalkInv seen (st.emit d) where
  mem_localSeen x := by
    simp only [WalkState.emit, Finset.mem_insert, mem_append, mem_singleton,
      h.mem_localSeen, or_comm]
  memo_of_localSeen x hx := by
    rw [mem_memo_emit]
    exact (Finset.mem_insert.1 hx).imp_right (h.memo_of_localSeen x)
  complete_iff x hx := by
    simp only [WalkState.emit, Finset.mem_insert]
    rcases mem_memo_emit.1 hx with rfl | hx
    · simp [hd]
    · rw [h.complete_iff x hx]
      constructor
      · rintro (rfl | hx)
        · exact hd
        · exact hx
      · exact Or.inr

theorem WalkInv.fail (h : b.WalkInv seen st) (hd : ¬ b.Complete seen d) (hmemo : d ∉ st.memo) :
    b.WalkInv seen (st.fail d) where
  mem_localSeen := h.mem_localSeen
  memo_of_localSeen x hx := mem_memo_fail.2 (Or.inr (h.memo_of_localSeen x hx))
  complete_iff x hx := by
    show x ∈ st.localSeen ↔ _
    rcases mem_memo_fail.1 hx with rfl | hx
    · have hnot : x ∉ st.localSeen := fun hx' => hmemo (h.memo_of_localSeen x hx')
      simp [hnot, hd]
    · exact h.complete_iff x hx

/-- What processing the entry frames of `ps` does to the state: the memo grows by digests
below `ps` and settles each of them, the frames popped are paid for, and if all of `ps`
are complete the buffer grows by their post-order. -/
structure Visited (b : Bullshark) (seen : Finset Digest) (n : ℕ) (ps : List Digest)
    (st st' : WalkState) (k : ℕ) : Prop where
  processes : b.Processes seen k (ps.map .enter) st st'
  inv : b.WalkInv seen st'
  memo_mono : ∀ x ∈ st.memo, x ∈ st'.memo
  settled : ∀ p ∈ ps, p ∈ seen ∨ p ∈ st'.memo
  memo_below : ∀ x ∈ st'.memo, x ∈ st.memo ∨ ∃ p ∈ ps, b.rank x ≤ b.rank p
  cost : k + b.pending st' ≤ ps.length + b.pending st
  order : (∀ p ∈ ps, b.Complete seen p) →
    st'.localOrdered = visitAll b.succ seen n ps st.localOrdered

theorem Visited.nil (h : b.WalkInv seen st) : b.Visited seen n [] st st 0 where
  processes fuel stack := by simp
  inv := h
  memo_mono _ hx := hx
  settled _ hp := by simp at hp
  memo_below _ hx := Or.inl hx
  cost := by simp
  order _ := rfl

theorem Visited.cons {p : Digest} {st₁ st₂ : WalkState} {k₁ k₂ : ℕ}
    (h₁ : b.Visited seen n [p] st st₁ k₁) (h₂ : b.Visited seen n ps st₁ st₂ k₂) :
    b.Visited seen n (p :: ps) st st₂ (k₁ + k₂) where
  processes := h₁.processes.trans h₂.processes
  inv := h₂.inv
  memo_mono x hx := h₂.memo_mono x (h₁.memo_mono x hx)
  settled q hq := by
    rcases mem_cons.1 hq with rfl | hq
    · exact (h₁.settled q (by simp)).imp_right (h₂.memo_mono q)
    · exact h₂.settled q hq
  memo_below x hx := by
    rcases h₂.memo_below x hx with hx | ⟨q, hq, hle⟩
    · rcases h₁.memo_below x hx with hx | ⟨q, hq, hle⟩
      · exact Or.inl hx
      · rw [mem_singleton] at hq
        exact Or.inr ⟨q, by simp [hq], hle⟩
    · exact Or.inr ⟨q, by simp [hq], hle⟩
  cost := by
    have h₁ := h₁.cost
    have h₂ := h₂.cost
    simp only [length_cons, length_nil] at h₁ ⊢
    omega
  order hall := by
    have hp := h₁.order fun q hq => hall q (by simp_all)
    have hps := h₂.order fun q hq => hall q (mem_cons_of_mem p hq)
    rw [hps, hp]
    rfl

/-- Processing every element on its own processes the list. -/
theorem exists_visited
    (hone : ∀ p ∈ ps, ∀ st, b.WalkInv seen st → ∃ st' k, b.Visited seen n [p] st st' k)
    (hst : b.WalkInv seen st) :
    ∃ st' k, b.Visited seen n ps st st' k := by
  induction ps generalizing st with
  | nil => exact ⟨st, 0, .nil hst⟩
  | cons p ps ih =>
    obtain ⟨st₁, k₁, h₁⟩ := hone p (mem_cons_self ..) st hst
    obtain ⟨st₂, k₂, h₂⟩ := ih (fun q hq => hone q (mem_cons_of_mem p hq)) h₁.inv
    exact ⟨st₂, k₁ + k₂, h₁.cons h₂⟩

/-! ### One frame -/

theorem processes_enter_skip (h : d ∈ seen ∨ d ∈ st.memo) :
    b.Processes seen 1 [.enter d] st st := by
  intro fuel stack
  rw [Nat.add_comm, singleton_append, walkLoop, if_pos h]

section

variable (h : ¬ (d ∈ seen ∨ d ∈ st.memo))

include h

theorem processes_enter_missing (hget : b.dag.get d = none) :
    b.Processes seen 1 [.enter d] st (st.fail d) := by
  intro fuel stack
  rw [Nat.add_comm, singleton_append, walkLoop, if_neg h]
  simp only [hget]

theorem processes_enter_barrier (hget : b.dag.get d = some c)
    (hround : c.vertex.round ≤ b.gcFloor) :
    b.Processes seen 1 [.enter d] st (st.emit d) := by
  intro fuel stack
  rw [Nat.add_comm, singleton_append, walkLoop, if_neg h]
  simp only [hget, hround, if_true]

/-- Entering a certificate above the barrier amounts to entering its parents in sorted
order and then its exit frame. -/
theorem processes_enter_expand {st' : WalkState} {k : ℕ} (hget : b.dag.get d = some c)
    (hround : b.gcFloor < c.vertex.round)
    (hrest : b.Processes seen k ((b.succ d).map .enter ++ [.exit d]) st st') :
    b.Processes seen (1 + k) [.enter d] st st' := by
  intro fuel stack
  rw [Nat.add_assoc, Nat.add_comm 1, singleton_append, walkLoop, if_neg h]
  simp only [hget, Nat.not_le.2 hround, if_false]
  rw [← succ_of_get hget hround, ← hrest fuel stack, append_assoc, singleton_append]

theorem processes_exit_resolved (hget : b.dag.get d = some c)
    (hall : ∀ p ∈ c.vertex.parents, p ∈ seen ∨ p ∈ st.localSeen) :
    b.Processes seen 1 [.exit d] st (st.emit d) := by
  intro fuel stack
  rw [Nat.add_comm, singleton_append, walkLoop, if_neg h]
  simp only [hget]
  rw [if_pos hall]

theorem processes_exit_unresolved (hget : b.dag.get d = some c)
    (hall : ¬ ∀ p ∈ c.vertex.parents, p ∈ seen ∨ p ∈ st.localSeen) :
    b.Processes seen 1 [.exit d] st (st.fail d) := by
  intro fuel stack
  rw [Nat.add_comm, singleton_append, walkLoop, if_neg h]
  simp only [hget]
  rw [if_neg hall]

/-! ### One digest -/

end

theorem pending_le {st' : WalkState} (h : ∀ x ∈ st.memo, x ∈ st'.memo) :
    b.pending st' ≤ b.pending st :=
  Map.weightOutside_anti _ _ h

/-- Recording a held certificate pays for its parents and its exit frame. -/
theorem pending_add_le {st' : WalkState} (hget : b.dag.get d = some c) (hd : d ∉ st.memo)
    (hd' : d ∈ st'.memo) (h : ∀ x ∈ st.memo, x ∈ st'.memo) :
    b.pending st' + (1 + c.vertex.parents.length) ≤ b.pending st :=
  Map.weightOutside_add_le _ _ hget hd hd' h

theorem visited_skip (hst : b.WalkInv seen st) (h : d ∈ seen ∨ d ∈ st.memo) :
    b.Visited seen n [d] st st 1 where
  processes := processes_enter_skip h
  inv := hst
  memo_mono _ hx := hx
  settled p hp := by
    rw [mem_singleton] at hp
    rwa [hp]
  memo_below _ hx := Or.inl hx
  cost := by simp
  order hall := by
    have hd := hall d (by simp)
    have hmem : d ∈ seen ∨ d ∈ st.localOrdered := by
      refine h.imp_right fun hmemo => ?_
      exact (hst.mem_localSeen d).1 ((hst.complete_iff d hmemo).2 hd)
    rw [visitAll_cons, visitAll_nil, visit_of_mem hmem]

/-- Once the digests below `d` are dealt with and the memo records `d`, the entry frame of
`d` is dealt with. -/
theorem Visited.settle {m : ℕ} {st₁ st' : WalkState} {k₁ k : ℕ}
    (hps : b.Visited seen m ps st st₁ k₁) (hrank : ∀ p ∈ ps, b.rank p ≤ b.rank d)
    (hmemo : ∀ x, x ∈ st'.memo ↔ x = d ∨ x ∈ st₁.memo)
    (processes : b.Processes seen k [.enter d] st st') (inv : b.WalkInv seen st')
    (cost : k + b.pending st' ≤ 1 + b.pending st)
    (order : b.Complete seen d → st'.localOrdered = visit b.succ seen n d st.localOrdered) :
    b.Visited seen n [d] st st' k where
  processes := processes
  inv := inv
  memo_mono x hx := (hmemo x).2 (Or.inr (hps.memo_mono x hx))
  settled p hp := by
    rw [mem_singleton] at hp
    exact Or.inr ((hmemo p).2 (Or.inl hp))
  memo_below x hx := by
    rcases (hmemo x).1 hx with rfl | hx
    · exact Or.inr ⟨x, by simp, le_rfl⟩
    · refine (hps.memo_below x hx).imp_right fun ⟨p, hp, hle⟩ => ?_
      exact ⟨d, by simp, hle.trans (hrank p hp)⟩
  cost := cost
  order hall := order (hall d (by simp))

theorem visited_missing (hst : b.WalkInv seen st) (h : ¬ (d ∈ seen ∨ d ∈ st.memo))
    (hget : b.dag.get d = none) :
    b.Visited seen n [d] st (st.fail d) 1 := by
  have hnot : ¬ b.Complete seen d := not_complete_of_get_none (fun hd => h (Or.inl hd)) hget
  refine (Visited.nil (n := n) hst).settle (by simp) (fun x => mem_memo_fail)
    (processes_enter_missing h hget) (hst.fail hnot fun hd => h (Or.inr hd)) ?_
    fun hd => absurd hd hnot
  have hle : b.pending (st.fail d) ≤ b.pending st :=
    b.pending_le fun x hx => mem_memo_fail.2 (Or.inr hx)
  omega

/-- An unsettled digest is not in the buffer either. -/
theorem WalkInv.not_mem_localOrdered (hst : b.WalkInv seen st) (h : ¬ (d ∈ seen ∨ d ∈ st.memo)) :
    ¬ (d ∈ seen ∨ d ∈ st.localOrdered) := by
  rintro (hd | hd)
  · exact h (Or.inl hd)
  · exact h (Or.inr (hst.memo_of_localSeen d ((hst.mem_localSeen d).2 hd)))

theorem visited_barrier (hst : b.WalkInv seen st) (h : ¬ (d ∈ seen ∨ d ∈ st.memo))
    (hget : b.dag.get d = some c) (hround : c.vertex.round ≤ b.gcFloor) :
    b.Visited seen (n + 1) [d] st (st.emit d) 1 := by
  have hsucc := succ_of_round_le hget hround
  have hcomplete : b.Complete seen d := by
    rw [complete_iff_of_get (fun hd => h (Or.inl hd)) hget, hsucc]
    simp
  refine (Visited.nil (n := n) hst).settle (by simp) (fun x => mem_memo_emit)
    (processes_enter_barrier h hget hround) (hst.emit hcomplete) ?_ fun _ => ?_
  · have hle : b.pending (st.emit d) ≤ b.pending st :=
      b.pending_le fun x hx => mem_memo_emit.2 (Or.inr hx)
    omega
  · rw [visit_succ_of_not_mem (hst.not_mem_localOrdered h), hsucc]
    rfl

/-- A certificate above the barrier, once its parents are dealt with. -/
theorem visited_expand {st₁ : WalkState} {k : ℕ} (hr : Ranked b.succ b.rank)
    (hst : b.WalkInv seen st) (h : ¬ (d ∈ seen ∨ d ∈ st.memo)) (hget : b.dag.get d = some c)
    (hround : b.gcFloor < c.vertex.round) (hps : b.Visited seen n (b.succ d) st st₁ k) :
    ∃ st' k', b.Visited seen (n + 1) [d] st st' k' := by
  have hd : d ∉ seen := fun hd => h (Or.inl hd)
  have hsucc := succ_of_get hget hround
  -- digests below the parents have smaller rank, so `d` itself is still open
  have hd₁ : d ∉ st₁.memo := fun hd₁ => by
    rcases hps.memo_below d hd₁ with hd₁ | ⟨p, hp, hle⟩
    · exact h (Or.inr hd₁)
    · exact absurd (hr hp) (Nat.not_lt.2 hle)
  have hopen : ¬ (d ∈ seen ∨ d ∈ st₁.memo) := by
    rintro (hd' | hd')
    · exact hd hd'
    · exact hd₁ hd'
  -- the check at the exit frame is completeness
  have hcheck : (∀ p ∈ c.vertex.parents, p ∈ seen ∨ p ∈ st₁.localSeen) ↔ b.Complete seen d := by
    rw [complete_iff_of_get hd hget, hsucc]
    simp only [mem_insertionSort]
    refine forall₂_congr fun p hp => ?_
    have hset := hps.settled p (by rwa [hsucc, mem_insertionSort])
    constructor
    · rintro (hp' | hp')
      · exact complete_of_mem hp'
      · exact (hps.inv.complete_iff p (hps.inv.memo_of_localSeen p hp')).1 hp'
    · intro hp'
      exact hset.imp_right fun hmemo => (hps.inv.complete_iff p hmemo).2 hp'
  have hlen : (b.succ d).length = c.vertex.parents.length := by
    rw [hsucc, length_insertionSort]
  have hrank : ∀ p ∈ b.succ d, b.rank p ≤ b.rank d := fun p hp => (hr hp).le
  have hcost := hps.cost
  by_cases hcomplete : b.Complete seen d
  · have hexit := processes_exit_resolved hopen hget (hcheck.2 hcomplete)
    refine ⟨st₁.emit d, 1 + (k + 1), hps.settle hrank (fun x => mem_memo_emit)
      (processes_enter_expand h hget hround (hps.processes.trans hexit))
      (hps.inv.emit hcomplete) ?_ fun _ => ?_⟩
    · have hpaid : b.pending (st₁.emit d) + (1 + c.vertex.parents.length) ≤ b.pending st₁ :=
        pending_add_le hget hd₁ (mem_memo_emit.2 (Or.inl rfl))
          fun x hx => mem_memo_emit.2 (Or.inr hx)
      omega
    · rw [visit_succ_of_not_mem (hst.not_mem_localOrdered h),
        ← hps.order ((complete_iff_of_get hd hget).1 hcomplete)]
      rfl
  · have hexit := processes_exit_unresolved hopen hget fun hall => hcomplete (hcheck.1 hall)
    refine ⟨st₁.fail d, 1 + (k + 1), hps.settle hrank (fun x => mem_memo_fail)
      (processes_enter_expand h hget hround (hps.processes.trans hexit))
      (hps.inv.fail hcomplete hd₁) ?_ fun hd => absurd hd hcomplete⟩
    have hpaid : b.pending (st₁.fail d) + (1 + c.vertex.parents.length) ≤ b.pending st₁ :=
      pending_add_le hget hd₁ (mem_memo_fail.2 (Or.inl rfl))
        fun x hx => mem_memo_fail.2 (Or.inr hx)
    omega

/-- Every entry frame is dealt with, by induction on the rank of its digest. -/
theorem exists_visited_enter (hr : Ranked b.succ b.rank) (n : ℕ) (d : Digest)
    (hn : b.rank d < n) (st : WalkState) (hst : b.WalkInv seen st) :
    ∃ st' k, b.Visited seen n [d] st st' k := by
  induction n generalizing d st with
  | zero => omega
  | succ n ih =>
    by_cases h : d ∈ seen ∨ d ∈ st.memo
    · exact ⟨st, 1, visited_skip hst h⟩
    · cases hget : b.dag.get d with
      | none => exact ⟨_, 1, visited_missing hst h hget⟩
      | some c =>
        by_cases hround : c.vertex.round ≤ b.gcFloor
        · exact ⟨_, 1, visited_barrier hst h hget hround⟩
        · have hparents : ∀ p ∈ b.succ d, ∀ st, b.WalkInv seen st →
              ∃ st' k, b.Visited seen n [p] st st' k := by
            intro p hp st hst
            have hlt := hr hp
            exact ih p (by omega) st hst
          obtain ⟨st₁, k, hps⟩ := exists_visited hparents hst
          exact visited_expand hr hst h hget (Nat.not_le.1 hround) hps

/-! ### The walk -/

/-- The post-order of a digest's unemitted history. -/
def history (b : Bullshark) (seen : Finset Digest) (d : Digest) : List Digest :=
  visit b.succ seen (b.rank d + 1) d []

/-- The loop runs to the end of its stack: its final state settles the root. -/
theorem exists_walkLoop_eq (hdag : b.ParentsBelow) (root : Digest) (seen : Finset Digest) :
    ∃ st, b.walkLoop seen b.walkFuel [.enter root] .init = st ∧
      (∃ k ≤ b.walkFuel, b.Processes seen k [.enter root] .init st) ∧ b.WalkInv seen st ∧
      (root ∈ seen ∨ root ∈ st.memo) ∧
      (b.Complete seen root → st.localOrdered = b.history seen root) := by
  obtain ⟨st, k, hvis⟩ := exists_visited_enter (ranked_succ hdag) (b.rank root + 1) root
    (Nat.lt_succ_self _) .init (walkInv_init seen)
  have hfuel : b.walkFuel = 1 + b.pending .init := by
    have hpending : b.pending .init =
        (b.dag.byDigest.values.map fun c => 1 + c.vertex.parents.length).sum :=
      Map.weightOutside_of_forall_not _ _ fun k => AList.notMem_empty k
    rw [hpending]
    rfl
  have hcost := hvis.cost
  simp only [length_cons, length_nil] at hcost
  obtain ⟨rest, hrest⟩ : ∃ rest, b.walkFuel = k + rest := ⟨b.walkFuel - k, by omega⟩
  refine ⟨st, ?_, ⟨k, by omega, hvis.processes⟩, hvis.inv, hvis.settled root (by simp),
    fun hroot => ?_⟩
  · have := hvis.processes rest []
    rwa [← hrest, walkLoop_nil] at this
  · exact hvis.order fun p hp => by
      rw [mem_singleton] at hp
      rwa [hp]

/-- If the history of the root is complete, the walk appends its post-order. -/
theorem walkCausalHistory_of_complete (hdag : b.ParentsBelow) {root : Digest}
    {seen : Finset Digest} (hroot : b.Complete seen root) (ordered : List Digest) :
    b.walkCausalHistory root seen ordered =
      (true, seen ∪ (b.history seen root).toFinset, ordered ++ b.history seen root) := by
  obtain ⟨st, hst, -, hinv, hset, horder⟩ := exists_walkLoop_eq hdag root seen
  have hmem : root ∈ seen ∨ root ∈ st.localSeen :=
    hset.imp_right fun hmemo => (hinv.complete_iff root hmemo).2 hroot
  have hseen : st.localSeen = (b.history seen root).toFinset := by
    ext x
    rw [hinv.mem_localSeen, horder hroot, mem_toFinset]
  simp only [walkCausalHistory, hst]
  rw [if_pos hmem, hseen, horder hroot]

/-- If something in the history is missing, the walk changes nothing. -/
theorem walkCausalHistory_of_not_complete (hdag : b.ParentsBelow) {root : Digest}
    {seen : Finset Digest} (hroot : ¬ b.Complete seen root) (ordered : List Digest) :
    b.walkCausalHistory root seen ordered = (false, seen, ordered) := by
  obtain ⟨st, hst, -, hinv, hset, -⟩ := exists_walkLoop_eq hdag root seen
  have hmem : ¬ (root ∈ seen ∨ root ∈ st.localSeen) := by
    rintro (hseen | hlocal)
    · exact hroot (complete_of_mem hseen)
    · exact hroot ((hinv.complete_iff root (hinv.memo_of_localSeen root hlocal)).1 hlocal)
  simp only [walkCausalHistory, hst]
  rw [if_neg hmem]

/-- Walking an emitted digest adds nothing. -/
theorem walkCausalHistory_of_mem (hdag : b.ParentsBelow) {seen : Finset Digest} (hd : d ∈ seen)
    (ordered : List Digest) :
    b.walkCausalHistory d seen ordered = (true, seen, ordered) := by
  have hnil : b.history seen d = [] := visit_of_mem (Or.inl hd)
  rw [walkCausalHistory_of_complete hdag (complete_of_mem hd), hnil]
  simp

/-- The walk is the recursive post-order. It pops its last frame within the fuel. The recursive
visit lists the digests outside `seen` that are reachable through certificates above the barrier and
outside `seen`. If all of them are held the walk appends the visit and adds them to `seen`; if one
of them is missing it changes nothing. -/
theorem walkCausalHistory_eq_visit (hdag : b.ParentsBelow) (root : Digest) (seen : Finset Digest)
    (ordered : List Digest) {n : ℕ} (hn : b.rank root < n) :
    (∃ k ≤ b.walkFuel, ∃ st, b.Processes seen k [.enter root] .init st) ∧
    (∀ v, v ∈ visit b.succ seen n root [] ↔ v ∉ seen ∧ Reach b.succ seen root v) ∧
    ((∀ v ∉ seen, Reach b.succ seen root v → ∃ c, b.dag.get v = some c) →
      b.walkCausalHistory root seen ordered =
        (true, seen ∪ (visit b.succ seen n root []).toFinset,
          ordered ++ visit b.succ seen n root [])) ∧
    ((∃ v ∉ seen, Reach b.succ seen root v ∧ b.dag.get v = none) →
      b.walkCausalHistory root seen ordered = (false, seen, ordered)) := by
  refine ⟨?_, fun v => ?_, fun hheld => ?_, ?_⟩
  · obtain ⟨st, -, ⟨k, hk, hprocesses⟩, -⟩ := exists_walkLoop_eq hdag root seen
    exact ⟨k, hk, st, hprocesses⟩
  · rw [mem_visit_iff (ranked_succ hdag) hn fun x hx => absurd hx not_mem_nil]
    simp
  · have hcomplete : b.Complete seen root := fun v hv =>
      or_iff_not_imp_left.2 fun hnot => hheld v hnot hv
    rw [walkCausalHistory_of_complete hdag hcomplete, history,
      visit_eq_of_rank_lt (ranked_succ hdag) (Nat.lt_succ_self _) hn]
  · rintro ⟨v, hnot, hreach, hnone⟩
    refine walkCausalHistory_of_not_complete hdag (fun hcomplete => ?_) ordered
    obtain ⟨c, hget⟩ := (hcomplete v hreach).resolve_left hnot
    rw [hnone] at hget
    cases hget

/-- A certificate of round 1 and its only parent. -/
def pair : Bullshark where
  dag := ⟨AList.insert 7 ⟨⟨1, 0, [], [5]⟩, []⟩ (AList.insert 5 ⟨⟨0, 0, [], []⟩, []⟩ ∅), ∅, 1⟩
  schedule := .single (.equalStakes 1)
  gcFloor := 0

/-- The walk from the certificate of round 1 emits its parent first. -/
theorem walkCausalHistory_eq_visit_pair : pair.ParentsBelow ∧
    pair.walkCausalHistory 7 ∅ [] = (true, {5, 7}, [5, 7]) := by
  have hget : ∀ d, pair.dag.get d = if d = 7 then some ⟨⟨1, 0, [], [5]⟩, []⟩
      else if d = 5 then some ⟨⟨0, 0, [], []⟩, []⟩ else none := fun d => by
    rw [DagStore.get, pair, Map.lookup_insert_eq, Map.lookup_insert_eq]
    rfl
  have hdag : pair.ParentsBelow := by
    intro d c hc hround p hp c' hc'
    rw [hget] at hc hc'
    split_ifs at hc
    · cases hc
      rw [mem_singleton.1 hp] at hc'
      cases hc'
      exact Nat.zero_lt_one
    · cases hc
      cases hp
  obtain ⟨-, hmem, hheld, -⟩ := walkCausalHistory_eq_visit hdag 7 ∅ [] (n := 2) (by decide +kernel)
  have hvisit : visit pair.succ ∅ 2 7 [] = [5, 7] := by decide
  refine ⟨hdag, hheld fun v hv hreach => ?_⟩
  rcases mem_pair.1 ((hmem v).2 ⟨hv, hreach⟩) with rfl | rfl
  · exact ⟨_, rfl⟩
  · exact ⟨_, rfl⟩

end Bullshark

end QChain
