import Mathlib

/-!
# Post-order of a ranked graph

The depth-first post-order of a graph whose successors have smaller rank, as a function that extends
an output list: `visit` appends every node below `d` that is neither in the output nor already
emitted, each node after its successors. The recursion is on a bound for the rank, which does not
matter once it exceeds the rank.
-/

namespace QChain

open List

namespace PostOrder

open Relation

variable {α : Type*} [DecidableEq α] (succ : α → List α)

/-- Every edge lowers the rank. -/
def Ranked (rank : α → ℕ) : Prop :=
  ∀ ⦃d p⦄, p ∈ succ d → rank p < rank d

/-- Reachability along edges that leave unemitted nodes only. -/
def Reach (seen : Finset α) : α → α → Prop :=
  ReflTransGen fun x y => x ∉ seen ∧ y ∈ succ x

/-- Append to `out` the nodes below `d` that are not in `seen` or `out`, each after
its successors, down to depth `n`. -/
def visit (succ : α → List α) (seen : Finset α) : ℕ → α → List α → List α
  | 0, _, out => out
  | n + 1, d, out =>
    if d ∈ seen ∨ d ∈ out then out
    else (succ d).foldl (fun o p => visit succ seen n p o) out ++ [d]

/-- Visit a list of nodes in turn. -/
def visitAll (seen : Finset α) (n : ℕ) (ps : List α) (out : List α) :
    List α :=
  ps.foldl (fun o p => visit succ seen n p o) out

variable {succ : α → List α} {seen : Finset α} {rank : α → ℕ}

@[simp] theorem visitAll_nil (n : ℕ) (out : List α) : visitAll succ seen n [] out = out := rfl

@[simp] theorem visitAll_cons (n : ℕ) (p : α) (ps out : List α) :
    visitAll succ seen n (p :: ps) out =
      visitAll succ seen n ps (visit succ seen n p out) := rfl

variable {out : List α} {n : ℕ} {d : α}

theorem visit_of_mem (h : d ∈ seen ∨ d ∈ out) : visit succ seen n d out = out := by
  cases n with
  | zero => rfl
  | succ n => simp [visit, h]

theorem visit_succ_of_not_mem (h : ¬ (d ∈ seen ∨ d ∈ out)) :
    visit succ seen (n + 1) d out = visitAll succ seen n (succ d) out ++ [d] := by
  rw [visit, if_neg h]
  rfl

/-- What every single visit preserves, visiting a list preserves. -/
theorem visitAll_induction {P : List α → Prop} {ps : List α}
    (step : ∀ p ∈ ps, ∀ out, P out → P (visit succ seen n p out)) (hout : P out) :
    P (visitAll succ seen n ps out) := by
  induction ps generalizing out with
  | nil => exact hout
  | cons p ps ih =>
    refine ih (fun q hq => step q (mem_cons_of_mem p hq)) ?_
    exact step p (mem_cons_self ..) out hout

/-! ### Growth -/

theorem prefix_visit (n : ℕ) (d : α) (out : List α) : out <+: visit succ seen n d out := by
  induction n generalizing d out with
  | zero => exact prefix_refl out
  | succ n ih =>
    by_cases h : d ∈ seen ∨ d ∈ out
    · rw [visit_of_mem h]
    · rw [visit_succ_of_not_mem h]
      have hall : out <+: visitAll succ seen n (succ d) out :=
        visitAll_induction (fun p _ o ho => ho.trans (ih p o)) (prefix_refl out)
      exact hall.trans (prefix_append _ _)

theorem subset_visit {x : α} (h : x ∈ out) : x ∈ visit succ seen n d out :=
  (prefix_visit n d out).subset h

theorem prefix_visitAll (n : ℕ) (ps out : List α) : out <+: visitAll succ seen n ps out :=
  visitAll_induction (fun p _ o ho => ho.trans (prefix_visit n p o)) (prefix_refl out)

theorem mem_visit_self (hn : 0 < n) (d : α) (out : List α) :
    d ∈ seen ∨ d ∈ visit succ seen n d out := by
  obtain ⟨n, rfl⟩ : ∃ m, n = m + 1 := ⟨n - 1, by omega⟩
  by_cases h : d ∈ seen ∨ d ∈ out
  · rw [visit_of_mem h]
    exact h
  · rw [visit_succ_of_not_mem h]
    exact Or.inr (by simp)

theorem mem_visitAll (hn : 0 < n) {ps : List α} {p : α} (hp : p ∈ ps) (out : List α) :
    p ∈ seen ∨ p ∈ visitAll succ seen n ps out := by
  induction ps generalizing out with
  | nil => simp at hp
  | cons q ps ih =>
    rcases mem_cons.1 hp with rfl | hp
    · rw [visitAll_cons]
      exact (mem_visit_self hn p out).imp_right fun h => (prefix_visitAll n ps _).subset h
    · exact ih hp _

/-- Whatever a visit adds is reachable from its start. -/
theorem reach_of_mem_visit {x : α} (hx : x ∈ visit succ seen n d out) :
    x ∈ out ∨ (x ∉ seen ∧ Reach succ seen d x) := by
  induction n generalizing d out with
  | zero => exact Or.inl hx
  | succ n ih =>
    by_cases h : d ∈ seen ∨ d ∈ out
    · rw [visit_of_mem h] at hx
      exact Or.inl hx
    · have hd : d ∉ seen := fun hd => h (Or.inl hd)
      -- the children are visited in turn, each adding nodes below itself
      have hall : x ∈ visitAll succ seen n (succ d) out →
          x ∈ out ∨ (x ∉ seen ∧ Reach succ seen d x) := by
        refine visitAll_induction
          (P := fun o => x ∈ o → x ∈ out ∨ (x ∉ seen ∧ Reach succ seen d x))
          (fun p hp o ho hxo => ?_) Or.inl
        rcases ih hxo with hxo | ⟨hxs, hpx⟩
        · exact ho hxo
        · exact Or.inr ⟨hxs, ReflTransGen.head ⟨hd, hp⟩ hpx⟩
      rw [visit_succ_of_not_mem h, mem_append, mem_singleton] at hx
      rcases hx with hx | rfl
      · exact hall hx
      · exact Or.inr ⟨hd, ReflTransGen.refl⟩

omit [DecidableEq α] in
theorem rank_le_of_reach (hr : Ranked succ rank) {x : α} (h : Reach succ seen d x) :
    rank x ≤ rank d := by
  induction h with
  | refl => exact le_rfl
  | tail _ hstep ih => exact (Nat.le_of_lt (hr hstep.2)).trans ih

/-- Visiting nodes of smaller rank does not emit `d`. -/
theorem not_mem_visitAll (hr : Ranked succ rank) {ps : List α} (hps : ∀ p ∈ ps, rank p < rank d)
    (hd : d ∉ out) :
    d ∉ visitAll succ seen n ps out := by
  refine visitAll_induction (P := fun o => d ∉ o) (fun p hp o ho hmem => ?_) hd
  rcases reach_of_mem_visit hmem with hmem | ⟨-, hreach⟩
  · exact ho hmem
  · have hle := rank_le_of_reach hr hreach
    have hlt := hps p hp
    omega

/-! ### Emission -/

/-- What one emission preserves, a visit preserves: a node below the start is emitted when
it is new and its successors all are in place. -/
theorem visit_induction {P : List α → Prop} (hr : Ranked succ rank)
    (emit : ∀ x out, Reach succ seen d x → P out → x ∉ seen → x ∉ out →
      (∀ p ∈ succ x, p ∈ seen ∨ p ∈ out) → P (out ++ [x])) (hn : rank d < n) (hout : P out) :
    P (visit succ seen n d out) := by
  induction n generalizing d out with
  | zero => omega
  | succ n ih =>
    by_cases h : d ∈ seen ∨ d ∈ out
    · rwa [visit_of_mem h]
    · have hds : d ∉ seen := fun hd => h (Or.inl hd)
      have hdo : d ∉ out := fun hd => h (Or.inr hd)
      have hchild : ∀ p ∈ succ d, rank p < n := fun p hp => by
        have := hr hp
        omega
      have hall : P (visitAll succ seen n (succ d) out) := by
        refine visitAll_induction (fun p hp o ho => ih (fun x o hx => ?_) (hchild p hp) ho) hout
        exact emit x o (ReflTransGen.head ⟨hds, hp⟩ hx)
      rw [visit_succ_of_not_mem h]
      refine emit d _ ReflTransGen.refl hall hds (not_mem_visitAll hr (fun p hp => hr hp) hdo)
        fun p hp => ?_
      exact mem_visitAll (Nat.zero_lt_of_lt (hchild p hp)) hp out

/-- Nodes in place have their successors in place. -/
def Closed (succ : α → List α) (seen : Finset α) (out : List α) : Prop :=
  ∀ x ∈ out, ∀ p ∈ succ x, p ∈ seen ∨ p ∈ out

theorem closed_visit (hr : Ranked succ rank) (hn : rank d < n) (hout : Closed succ seen out) :
    Closed succ seen (visit succ seen n d out) := by
  refine visit_induction hr (fun d out _ hout _ _ hsucc x hx p hp => ?_) hn hout
  rw [mem_append, mem_singleton] at hx
  have hold : p ∈ seen ∨ p ∈ out := by
    rcases hx with hx | rfl
    · exact hout x hx p hp
    · exact hsucc p hp
  exact hold.imp_right fun h => mem_append_left _ h

/-- A visit adds exactly the nodes reachable through unemitted nodes. -/
theorem mem_visit_iff (hr : Ranked succ rank) {x : α} (hn : rank d < n)
    (hout : Closed succ seen out) :
    x ∈ visit succ seen n d out ↔ x ∈ out ∨ (x ∉ seen ∧ Reach succ seen d x) := by
  refine ⟨reach_of_mem_visit, fun h => ?_⟩
  rcases h with hx | ⟨hxs, hreach⟩
  · exact subset_visit hx
  · have hclosed := closed_visit hr hn hout
    have hplace : x ∈ seen ∨ x ∈ visit succ seen n d out := by
      induction hreach with
      | refl => exact mem_visit_self (Nat.zero_lt_of_lt hn) d out
      | tail _ hstep ih =>
        rcases ih hstep.1 with hb | hb
        · exact absurd hb hstep.1
        · exact hclosed _ hb _ hstep.2
    exact hplace.resolve_left hxs

/-! ### Lists built one element at a time -/

/-- Every element of the list satisfies `P` with respect to what stands before it. -/
def EachAfter (P : α → List α → Prop) (out : List α) : Prop :=
  ∀ ⦃l x r⦄, out = l ++ x :: r → P x l

omit [DecidableEq α] in
theorem EachAfter.nil {P : α → List α → Prop} : EachAfter P [] := by
  intro l x r h
  simp at h

omit [DecidableEq α] in
theorem EachAfter.concat {P : α → List α → Prop} (hout : EachAfter P out) (hd : P d out) :
    EachAfter P (out ++ [d]) := by
  intro l x r h
  rcases eq_nil_or_concat r with rfl | ⟨r', z, rfl⟩
  · obtain ⟨rfl, hx⟩ := append_inj' h rfl
    cases hx
    exact hd
  · have h' : out ++ [d] = (l ++ x :: r') ++ [z] := by simpa using h
    obtain ⟨rfl, -⟩ := append_inj' h' rfl
    exact hout rfl

/-! ### Comparing two graphs -/

/-- The depth bound is immaterial once it exceeds the rank. -/
theorem visit_eq_of_rank_lt (hr : Ranked succ rank) {m : ℕ} (hn : rank d < n) (hm : rank d < m) :
    visit succ seen n d out = visit succ seen m d out := by
  induction n generalizing m d out with
  | zero => omega
  | succ n ih =>
    obtain ⟨m, rfl⟩ : ∃ k, m = k + 1 := ⟨m - 1, by omega⟩
    by_cases h : d ∈ seen ∨ d ∈ out
    · rw [visit_of_mem h, visit_of_mem h]
    · rw [visit_succ_of_not_mem h, visit_succ_of_not_mem h]
      have hall : ∀ (ps : List α) (o : List α), (∀ p ∈ ps, rank p < rank d) →
          visitAll succ seen n ps o = visitAll succ seen m ps o := by
        intro ps
        induction ps with
        | nil => exact fun o _ => rfl
        | cons p ps ihps =>
          intro o hps
          have hp := hps p (mem_cons_self ..)
          rw [visitAll_cons, visitAll_cons, ih (m := m) (by omega) (by omega)]
          exact ihps _ fun q hq => hps q (mem_cons_of_mem p hq)
      rw [hall _ _ fun p hp => hr hp]

/-- Emitted nodes may be moved from the set into the output list, and edges to
emitted nodes may be dropped. -/
theorem visit_append {succ₁ succ₂ : α → List α} {seen₁ seen₂ : Finset α} {O : List α}
    (keep : α → Bool) {l : List α}
    (hseen : ∀ x, Reach succ₂ seen₂ d x → (x ∈ seen₂ ↔ x ∈ seen₁ ∨ x ∈ O))
    (hsucc : ∀ x, Reach succ₂ seen₂ d x → x ∉ seen₂ → succ₂ x = (succ₁ x).filter keep)
    (hdrop : ∀ x, Reach succ₂ seen₂ d x → x ∉ seen₂ →
      ∀ p ∈ succ₁ x, keep p = false → p ∈ seen₁ ∨ p ∈ O) :
    visit succ₁ seen₁ n d (O ++ l) = O ++ visit succ₂ seen₂ n d l := by
  induction n generalizing d l with
  | zero => rfl
  | succ n ih =>
    have hmem : (d ∈ seen₁ ∨ d ∈ O ++ l) ↔ (d ∈ seen₂ ∨ d ∈ l) := by
      rw [hseen d ReflTransGen.refl, mem_append, or_assoc]
    by_cases h : d ∈ seen₂ ∨ d ∈ l
    · rw [visit_of_mem (hmem.2 h), visit_of_mem h]
    · have hd : d ∉ seen₂ := fun hd => h (Or.inl hd)
      have hall : ∀ (ps : List α) (l : List α), (∀ p ∈ ps, p ∈ succ₁ d) →
          visitAll succ₁ seen₁ n ps (O ++ l) =
            O ++ visitAll succ₂ seen₂ n (ps.filter keep) l := by
        intro ps
        induction ps with
        | nil => exact fun l _ => rfl
        | cons p ps ihps =>
          intro l hps
          have hp := hps p (mem_cons_self ..)
          have hps' : ∀ q ∈ ps, q ∈ succ₁ d := fun q hq => hps q (mem_cons_of_mem p hq)
          cases hk : keep p with
          | false =>
            rw [visitAll_cons, filter_cons_of_neg (by simp [hk])]
            -- `p` is emitted already, so the first graph skips it too
            have hpO := hdrop d ReflTransGen.refl hd p hp hk
            rw [visit_of_mem (hpO.imp_right fun h => mem_append_left l h)]
            exact ihps l hps'
          | true =>
            rw [visitAll_cons, filter_cons_of_pos hk, visitAll_cons]
            have hedge : p ∈ succ₂ d := by
              rw [hsucc d ReflTransGen.refl hd]
              exact mem_filter.2 ⟨hp, hk⟩
            have hreach : ∀ x, Reach succ₂ seen₂ p x → Reach succ₂ seen₂ d x :=
              fun x hx => ReflTransGen.head ⟨hd, hedge⟩ hx
            rw [ih (fun x hx => hseen x (hreach x hx)) (fun x hx => hsucc x (hreach x hx))
              (fun x hx => hdrop x (hreach x hx))]
            exact ihps _ hps'
      rw [visit_succ_of_not_mem (fun h' => h (hmem.1 h')), visit_succ_of_not_mem h,
        hall _ _ (fun p hp => hp), ← hsucc d ReflTransGen.refl hd, append_assoc]

/-- Cutting a graph down to a part that no other node is reached from restricts the
output to that part. -/
theorem visit_filter {succ₁ succ₂ : α → List α} {seen₁ seen₂ : Finset α} (keep : α → Bool)
    (hseen : ∀ x, keep x = true → (x ∈ seen₂ ↔ x ∈ seen₁))
    (hsucc : ∀ x, keep x = true → succ₂ x = (succ₁ x).filter keep)
    (hlow : ∀ x, keep x = false → ∀ p ∈ succ₁ x, keep p = false) :
    (visit succ₁ seen₁ n d out).filter keep =
      if keep d then visit succ₂ seen₂ n d (out.filter keep) else out.filter keep := by
  induction n generalizing d out with
  | zero => cases keep d <;> rfl
  | succ n ih =>
    cases hk : keep d with
    | false =>
      rw [if_neg (by simp)]
      by_cases h : d ∈ seen₁ ∨ d ∈ out
      · rw [visit_of_mem h]
      · have hall : (visitAll succ₁ seen₁ n (succ₁ d) out).filter keep = out.filter keep := by
          refine visitAll_induction (P := fun o => o.filter keep = out.filter keep)
            (fun p hp o ho => ?_) rfl
          rw [ih, hlow d hk p hp, if_neg (by simp), ho]
        rw [visit_succ_of_not_mem h, filter_append, hall]
        simp [hk]
    | true =>
      rw [if_pos rfl]
      have hmem : (d ∈ seen₂ ∨ d ∈ out.filter keep) ↔ (d ∈ seen₁ ∨ d ∈ out) := by
        rw [hseen d hk, mem_filter]
        simp [hk]
      by_cases h : d ∈ seen₁ ∨ d ∈ out
      · rw [visit_of_mem h, visit_of_mem (hmem.2 h)]
      · have hall : ∀ (ps : List α) (o : List α),
            (visitAll succ₁ seen₁ n ps o).filter keep =
              visitAll succ₂ seen₂ n (ps.filter keep) (o.filter keep) := by
          intro ps
          induction ps with
          | nil => exact fun o => rfl
          | cons p ps ihps =>
            intro o
            rw [visitAll_cons, ihps, ih]
            cases hp : keep p with
            | false => rw [if_neg (by simp), filter_cons_of_neg (by simp [hp])]
            | true => rw [if_pos rfl, filter_cons_of_pos hp, visitAll_cons]
        rw [visit_succ_of_not_mem h, visit_succ_of_not_mem (fun h' => h (hmem.1 h')),
          filter_append, hall, ← hsucc d hk]
        simp [hk]

end PostOrder

end QChain
