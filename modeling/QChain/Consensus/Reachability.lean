import QChain.Consensus.Walk

/-!
# Three-valued reachability

`reaches` searches the parent links from a witness for a target, and the search is exact: it answers
yes if a path of held certificates above the barrier leads to the target, no if every path is held
to its end and none does, and leaves the question open otherwise. The loop invariant is that of a
graph search, `SearchInv`.
-/

namespace QChain

open Finset List

namespace Bullshark

open PostOrder Relation

variable (b : Bullshark)

/-- A path of parent links from `start`, on which every digest before the last is held
and above the barrier. -/
def Path (start d : Digest) : Prop := ReflTransGen (fun x y => y ∈ b.succ x) start d

/-- Some digest on a path from `start` is not held. -/
def MeetsMissing (start : Digest) : Prop := ∃ v, b.Path start v ∧ b.dag.get v = none

variable {b}

theorem Path.refl (d : Digest) : b.Path d d := ReflTransGen.refl

theorem Path.tail {d p v : Digest} (h : b.Path d p) (hv : v ∈ b.succ p) : b.Path d v :=
  ReflTransGen.tail h hv

/-! ### The search invariant -/

/-- What the search knows: what it met is reachable, what it visited is expanded. -/
structure SearchInv (b : Bullshark) (start target : Digest) (stack : List Digest)
    (visited : Finset Digest) (undecided : Bool) : Prop where
  path_stack : ∀ x ∈ stack, b.Path start x
  path_visited : ∀ x ∈ visited, b.Path start x
  target_open : target ∉ visited
  start_met : start ∈ visited ∨ start ∈ stack
  expanded : ∀ x ∈ visited, ∀ y ∈ b.succ x, y ∈ visited ∨ y ∈ stack
  missing : undecided = true ↔ ∃ v ∈ visited, b.dag.get v = none

namespace SearchInv

variable {start target node : Digest} {stack : List Digest} {visited : Finset Digest}
  {undecided : Bool}

theorem init : b.SearchInv start target [start] ∅ false where
  path_stack x hx := by
    rw [List.mem_singleton] at hx
    rw [hx]
    exact Path.refl start
  path_visited x hx := absurd hx (notMem_empty x)
  target_open := notMem_empty target
  start_met := Or.inr (by simp)
  expanded x hx := absurd hx (notMem_empty x)
  missing := by simp

/-- Popping a digest visited before. -/
theorem pop (h : b.SearchInv start target (node :: stack) visited undecided)
    (hnode : node ∈ visited) : b.SearchInv start target stack visited undecided where
  path_stack x hx := h.path_stack x (List.mem_cons_of_mem node hx)
  path_visited := h.path_visited
  target_open := h.target_open
  start_met := by
    rcases h.start_met with hs | hs
    · exact Or.inl hs
    · rcases List.mem_cons.1 hs with rfl | hs
      · exact Or.inl hnode
      · exact Or.inr hs
  expanded x hx y hy := by
    rcases h.expanded x hx y hy with hy | hy
    · exact Or.inl hy
    · rcases List.mem_cons.1 hy with rfl | hy
      · exact Or.inl hnode
      · exact Or.inr hy
  missing := h.missing

/-- Visiting a digest: its successors go on the stack, and a missing one is recorded. -/
theorem visit (h : b.SearchInv start target (node :: stack) visited undecided)
    (htarget : node ≠ target) (pushed : List Digest) {undecided' : Bool}
    (hpushed : ∀ y, y ∈ pushed ↔ y ∈ b.succ node)
    (hundecided : undecided' = true ↔ undecided = true ∨ b.dag.get node = none) :
    b.SearchInv start target (pushed ++ stack) (insert node visited) undecided' where
  path_stack x hx := by
    rcases mem_append.1 hx with hx | hx
    · exact (h.path_stack node (List.mem_cons_self ..)).tail ((hpushed x).1 hx)
    · exact h.path_stack x (List.mem_cons_of_mem node hx)
  path_visited x hx := by
    rcases mem_insert.1 hx with rfl | hx
    · exact h.path_stack x (List.mem_cons_self ..)
    · exact h.path_visited x hx
  target_open hx := by
    rcases mem_insert.1 hx with hx | hx
    · exact htarget hx.symm
    · exact h.target_open hx
  start_met := by
    rcases h.start_met with hs | hs
    · exact Or.inl (Finset.mem_insert_of_mem hs)
    · rcases List.mem_cons.1 hs with rfl | hs
      · exact Or.inl (Finset.mem_insert_self ..)
      · exact Or.inr (mem_append_right _ hs)
  expanded x hx y hy := by
    rcases mem_insert.1 hx with rfl | hx
    · exact Or.inr (mem_append_left _ ((hpushed y).2 hy))
    · rcases h.expanded x hx y hy with hy | hy
      · exact Or.inl (Finset.mem_insert_of_mem hy)
      · rcases List.mem_cons.1 hy with rfl | hy
        · exact Or.inl (Finset.mem_insert_self ..)
        · exact Or.inr (mem_append_right _ hy)
  missing := by
    rw [hundecided, h.missing]
    constructor
    · rintro (⟨v, hv, hnone⟩ | hnone)
      · exact ⟨v, Finset.mem_insert_of_mem hv, hnone⟩
      · exact ⟨node, Finset.mem_insert_self .., hnone⟩
    · rintro ⟨v, hv, hnone⟩
      rcases mem_insert.1 hv with rfl | hv
      · exact Or.inr hnone
      · exact Or.inl ⟨v, hv, hnone⟩

/-- With an empty stack everything reachable has been visited. -/
theorem mem_visited_of_path (h : b.SearchInv start target [] visited undecided) {v : Digest}
    (hv : b.Path start v) : v ∈ visited := by
  induction hv with
  | refl => exact h.start_met.resolve_right (by simp)
  | tail _ hstep ih => exact (h.expanded _ ih _ hstep).resolve_right (by simp)

end SearchInv

/-! ### The loop -/

/-- The answers that are right. -/
def SearchResult (b : Bullshark) (start target : Digest) : Option Bool → Prop
  | some true => b.Path start target
  | some false => ¬ b.Path start target ∧ ¬ b.MeetsMissing start
  | none => ¬ b.Path start target ∧ b.MeetsMissing start

/-- Parent links of certificates not visited yet. -/
def unvisited (b : Bullshark) (visited : Finset Digest) : ℕ :=
  b.dag.byDigest.weightOutside (fun c => c.vertex.parents.length) (· ∈ visited)

theorem unvisited_insert_le (visited : Finset Digest) (node : Digest) :
    b.unvisited (insert node visited) ≤ b.unvisited visited :=
  Map.weightOutside_anti _ _ fun _ h => Finset.mem_insert_of_mem h

theorem unvisited_insert_add_le {visited : Finset Digest} {node : Digest} {c : Certificate}
    (hget : b.dag.get node = some c) (hnode : node ∉ visited) :
    b.unvisited (insert node visited) + c.vertex.parents.length ≤ b.unvisited visited :=
  Map.weightOutside_add_le (fun c : Certificate => c.vertex.parents.length) _ hget hnode
    (Finset.mem_insert_self ..) fun _ h => Finset.mem_insert_of_mem h

variable {start target : Digest}

/-- With fuel for the frames left, the loop answers right. -/
theorem searchResult_reachesLoop (fuel : ℕ) (stack : List Digest)
    (visited : Finset Digest) (undecided : Bool)
    (hfuel : stack.length + b.unvisited visited < fuel)
    (h : b.SearchInv start target stack visited undecided) :
    b.SearchResult start target (b.reachesLoop target fuel stack visited undecided) := by
  induction fuel generalizing stack visited undecided with
  | zero => omega
  | succ fuel ih =>
    cases stack with
    | nil =>
      have hpath : ¬ b.Path start target := fun hp => h.target_open (h.mem_visited_of_path hp)
      have hmissing : undecided = true ↔ b.MeetsMissing start := by
        rw [h.missing]
        constructor
        · rintro ⟨v, hv, hnone⟩
          exact ⟨v, h.path_visited v hv, hnone⟩
        · rintro ⟨v, hv, hnone⟩
          exact ⟨v, h.mem_visited_of_path hv, hnone⟩
      rw [reachesLoop]
      cases undecided with
      | true => exact ⟨hpath, hmissing.1 rfl⟩
      | false => exact ⟨hpath, fun hm => absurd (hmissing.2 hm) (by simp)⟩
    | cons node stack =>
      rw [length_cons] at hfuel
      rw [reachesLoop]
      by_cases htarget : node = target
      · rw [if_pos htarget]
        exact htarget ▸ h.path_stack node (List.mem_cons_self ..)
      · rw [if_neg htarget]
        by_cases hnode : node ∈ visited
        · rw [if_pos hnode]
          exact ih _ _ _ (by omega) (h.pop hnode)
        · rw [if_neg hnode]
          cases hget : b.dag.get node with
          | none =>
            have hle := b.unvisited_insert_le visited node
            have hinv : b.SearchInv start target stack (insert node visited) true :=
              h.visit htarget [] (by simp [succ_of_get_none hget]) (by simp [hget])
            exact ih _ _ _ (by omega) hinv
          | some c =>
            by_cases hround : c.vertex.round ≤ b.gcFloor
            · simp only [hround, if_true]
              have hle := b.unvisited_insert_le visited node
              have hinv : b.SearchInv start target stack (insert node visited) undecided :=
                h.visit htarget [] (by simp [succ_of_round_le hget hround]) (by simp [hget])
              exact ih _ _ _ (by omega) hinv
            · simp only [hround, if_false]
              have hle := unvisited_insert_add_le hget hnode
              have hinv : b.SearchInv start target (c.vertex.parents.reverse ++ stack)
                  (insert node visited) undecided :=
                h.visit htarget _ (by simp [succ_of_get hget (Nat.not_le.1 hround)])
                  (by simp [hget])
              refine ih _ _ _ ?_ hinv
              rw [length_append, length_reverse]
              omega

/-- With fuel for its frames and one more, the loop ends by itself. -/
theorem searchResult_of_reachesFuel_le {fuel : ℕ} (hfuel : b.reachesFuel ≤ fuel)
    (start target : Digest) :
    b.SearchResult start target (b.reachesLoop target fuel [start] ∅ false) := by
  refine searchResult_reachesLoop _ _ _ _ ?_ SearchInv.init
  have hall : b.unvisited ∅ =
      (b.dag.byDigest.values.map fun c => c.vertex.parents.length).sum :=
    Map.weightOutside_of_forall_not _ _ fun k => notMem_empty k
  rw [reachesFuel] at hfuel
  rw [hall]
  simp only [length_cons, length_nil]
  omega

theorem searchResult_reaches (start target : Digest) :
    b.SearchResult start target (b.reaches start target) :=
  searchResult_of_reachesFuel_le le_rfl start target

/-- No two answers are right. -/
theorem SearchResult.unique {x y : Option Bool} (hx : b.SearchResult start target x)
    (hy : b.SearchResult start target y) : x = y := by
  match x, y with
  | some true, some true | some false, some false | none, none => rfl
  | some true, some false | some true, none => exact absurd hx hy.1
  | some false, some true | none, some true => exact absurd hy hx.1
  | some false, none => exact absurd hy.2 hx.2
  | none, some false => exact absurd hx.2 hy.2

theorem reaches_eq_iff {x : Option Bool} :
    b.reaches start target = x ↔ b.SearchResult start target x := by
  have h := b.searchResult_reaches start target
  constructor
  · rintro rfl
    exact h
  · exact h.unique

theorem reaches_eq_some_true_iff :
    b.reaches start target = some true ↔ b.Path start target := reaches_eq_iff

theorem not_path_of_reaches (h : b.reaches start target = some false) :
    ¬ b.Path start target ∧ ¬ b.MeetsMissing start := reaches_eq_iff.1 h

theorem meetsMissing_of_reaches (h : b.reaches start target = none) :
    ¬ b.Path start target ∧ b.MeetsMissing start := reaches_eq_iff.1 h

/-- The loop with the digests it visits, in their order. -/
def reachesTrace (b : Bullshark) (target : Digest) :
    ℕ → List Digest → Finset Digest → Bool → Option Bool × List Digest
  | 0, _, _, _ => (none, [])
  | _ + 1, [], _, undecided => (if undecided then none else some false, [])
  | fuel + 1, node :: stack, visited, undecided =>
    if node = target then (some true, [])
    else if node ∈ visited then reachesTrace b target fuel stack visited undecided
    else
      let pushed := match b.dag.get node with
        | none => []
        | some cert => if cert.vertex.round ≤ b.gcFloor then [] else cert.vertex.parents.reverse
      let rest := reachesTrace b target fuel (pushed ++ stack) (insert node visited)
        (undecided || (b.dag.get node).isNone)
      (rest.1, node :: rest.2)

theorem reachesTrace_spec (fuel : ℕ) (stack : List Digest) (visited : Finset Digest)
    (undecided : Bool) :
    let trace := b.reachesTrace target fuel stack visited undecided
    trace.1 = b.reachesLoop target fuel stack visited undecided ∧
      trace.2.Nodup ∧ ∀ d ∈ trace.2, d ∉ visited := by
  induction fuel generalizing stack visited undecided with
  | zero => exact ⟨rfl, nodup_nil, nofun⟩
  | succ fuel ih =>
    cases stack with
    | nil => exact ⟨rfl, nodup_nil, nofun⟩
    | cons node stack =>
      rw [reachesTrace, reachesLoop]
      split_ifs with htarget hnode
      · exact ⟨rfl, nodup_nil, nofun⟩
      · exact ih stack visited undecided
      · obtain ⟨hloop, hnodup, hfresh⟩ := ih _ (insert node visited)
          (undecided || (b.dag.get node).isNone)
        refine ⟨?_, ?_, ?_⟩
        · refine hloop.trans ?_
          cases b.dag.get node with
          | none => simp
          | some c => by_cases hround : c.vertex.round ≤ b.gcFloor <;> simp [hround]
        · refine nodup_cons.2 ⟨fun hmem => ?_, hnodup⟩
          exact hfresh node hmem (Finset.mem_insert_self ..)
        · intro d hd hvisited
          rcases List.mem_cons.1 hd with rfl | hd
          · exact hnode hvisited
          · exact hfresh d hd (Finset.mem_insert_of_mem hvisited)

/-- The search is exact, ends by itself, and visits no digest twice. -/
theorem reaches_exact (start target : Digest) :
    (b.reaches start target = some true ↔ b.Path start target) ∧
    (b.reaches start target = none ↔ ¬ b.Path start target ∧ b.MeetsMissing start) ∧
    (b.reaches start target = some false ↔ ¬ b.Path start target ∧ ¬ b.MeetsMissing start) ∧
    ∀ fuel, b.reachesFuel ≤ fuel → ∃ visits, visits.Nodup ∧
      b.reachesTrace target fuel [start] ∅ false = (b.reaches start target, visits) := by
  refine ⟨reaches_eq_iff, reaches_eq_iff, reaches_eq_iff, fun fuel hfuel => ?_⟩
  obtain ⟨hloop, hnodup, -⟩ := @reachesTrace_spec b target fuel [start] ∅ false
  refine ⟨_, hnodup, Prod.ext ?_ rfl⟩
  rw [hloop]
  exact (searchResult_of_reachesFuel_le hfuel start target).unique (b.searchResult_reaches ..)

end Bullshark

end QChain
