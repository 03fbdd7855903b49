import Mathlib

/-!
# Histories

A system with two kinds of steps: those that are entered in a log, and silent ones. A history leads
from one state to another and says which entries were made on the way. A log does not determine the
states it goes through; what is said about it is said about every history that has it.
-/

variable {σ α : Type*}

/-- The histories of a system from the state `s`. -/
inductive History (silent : σ → σ → Prop) (entry : α → σ → σ → Prop) (s : σ) :
    List α → σ → Prop
  | refl : History silent entry s [] s
  | silent {log : List α} {t u : σ} (h : History silent entry s log t) (hstep : silent t u) :
      History silent entry s log u
  | entry {log : List α} {a : α} {t u : σ} (h : History silent entry s log t)
      (hstep : entry a t u) : History silent entry s (log ++ [a]) u

/-- Every entry of a log meets a condition on the entries before it. -/
def Along (P : List α → α → Prop) (log : List α) : Prop :=
  ∀ i a, log[i]? = some a → P (log.take i) a

instance (P : List α → α → Prop) [∀ log, DecidablePred (P log)] : DecidablePred (Along P) :=
  fun log => decidable_of_iff (∀ i : Fin log.length, P (log.take i) (log.get i)) <| by
    constructor
    · intro h i a ha
      obtain ⟨hi, rfl⟩ := List.getElem?_eq_some_iff.1 ha
      exact h ⟨i, hi⟩
    · exact fun h i => h i _ (List.getElem?_eq_getElem i.isLt)

namespace Along

variable {P : List α → α → Prop} {log log' : List α} {a : α}

theorem of_forall {P : α → Prop} (h : ∀ a ∈ log, P a) : Along (fun _ a => P a) log :=
  fun _ a ha => h a (List.mem_of_getElem? ha)

theorem append_left (h : Along P (log ++ log')) : Along P log := by
  intro i a ha
  have hi := (List.getElem?_eq_some_iff.1 ha).1
  have hP := h i a ((List.getElem?_append_left hi).trans ha)
  rwa [List.take_append_of_le_length (Nat.le_of_lt hi)] at hP

theorem last (h : Along P (log ++ [a])) : P log a := by
  have hP := h log.length a List.getElem?_concat_length
  rwa [List.take_left] at hP

theorem take (h : Along P log) (i : ℕ) : Along P (log.take i) := by
  rw [← List.take_append_drop i log] at h
  exact h.append_left

end Along

namespace History

variable {silent : σ → σ → Prop} {entry : α → σ → σ → Prop} {s t u : σ} {log log' : List α} {a : α}

theorem trans (h : History silent entry s log t) (h' : History silent entry t log' u) :
    History silent entry s (log ++ log') u := by
  induction h' with
  | refl =>
    rw [List.append_nil]
    exact h
  | silent _ hstep ih => exact ih.silent hstep
  | entry _ hstep ih =>
    rw [← List.append_assoc]
    exact ih.entry hstep

/-- A history goes through a state where a part of its entries have been made. -/
theorem split (h : History silent entry s (log ++ log') t) :
    ∃ u, History silent entry s log u ∧ History silent entry u log' t := by
  generalize hlog : log ++ log' = whole at h
  induction h generalizing log' with
  | refl =>
    obtain ⟨rfl, rfl⟩ := List.append_eq_nil_iff.1 hlog
    exact ⟨s, .refl, .refl⟩
  | silent _ hstep ih =>
    obtain ⟨u, hfront, hback⟩ := ih hlog
    exact ⟨u, hfront, hback.silent hstep⟩
  | @entry whole a _ _ h hstep ih =>
    -- the last entry belongs to the second part, unless that is empty
    rcases List.eq_nil_or_concat log' with rfl | ⟨front, last, rfl⟩
    · rw [List.append_nil] at hlog
      rw [hlog]
      exact ⟨_, h.entry hstep, .refl⟩
    · rw [List.concat_eq_append, ← List.append_assoc] at hlog
      obtain ⟨hfront, hlast⟩ := List.append_inj' hlog rfl
      obtain ⟨u, hleft, hright⟩ := ih hfront
      rw [(List.cons.inj hlast).1, List.concat_eq_append]
      exact ⟨u, hleft, hright.entry hstep⟩

/-- The step by which the last entry was made. -/
theorem last (h : History silent entry s (log ++ [a]) u) :
    ∃ t t', History silent entry s log t ∧ entry a t t' ∧ History silent entry t' [] u := by
  generalize hlog : log ++ [a] = whole at h
  induction h with
  | refl => exact absurd hlog (List.append_ne_nil_of_right_ne_nil _ (List.cons_ne_nil _ _))
  | silent _ hstep ih =>
    obtain ⟨t, t', hbefore, hentry, hafter⟩ := ih hlog
    exact ⟨t, t', hbefore, hentry, hafter.silent hstep⟩
  | entry h hstep =>
    obtain ⟨rfl, hlast⟩ := List.append_inj' hlog rfl
    rw [(List.cons.inj hlast).1]
    exact ⟨_, _, h, hstep, .refl⟩

/-- A history is cut at one of its entries. -/
theorem split_at {i : ℕ} (h : History silent entry s log u) (ha : log[i]? = some a) :
    ∃ t t', History silent entry s (log.take i) t ∧ entry a t t' ∧
      History silent entry t' (log.drop (i + 1)) u := by
  obtain ⟨hi, rfl⟩ := List.getElem?_eq_some_iff.1 ha
  have hlog : log = (log.take i ++ [log[i]]) ++ log.drop (i + 1) := by
    rw [List.take_append_getElem, List.take_append_drop]
  rw [hlog] at h
  obtain ⟨v, hfront, hback⟩ := h.split
  obtain ⟨t, t', hbefore, hentry, hsilent⟩ := hfront.last
  exact ⟨t, t', hbefore, hentry, hsilent.trans hback⟩

/-- What holds at first and is kept by every step holds after every history. -/
theorem invariant {I : List α → σ → Prop} (h : History silent entry s log t) (hstart : I [] s)
    (hsilent : ∀ log t u, I log t → silent t u → I log u)
    (hentry : ∀ log a t u, I log t → entry a t u → I (log ++ [a]) u) : I log t := by
  induction h with
  | refl => exact hstart
  | silent _ hstep ih => exact hsilent _ _ _ ih hstep
  | entry _ hstep ih => exact hentry _ _ _ _ ih hstep

/-- The same, where only the entries of logs that meet a condition matter. -/
theorem invariant_along {P : List α → α → Prop} {I : List α → σ → Prop}
    (h : History silent entry s log t) (halong : Along P log) (hstart : I [] s)
    (hsilent : ∀ log t u, I log t → silent t u → I log u)
    (hentry : ∀ log a t u, P log a → I log t → entry a t u → I (log ++ [a]) u) : I log t := by
  refine invariant (I := fun log t => Along P log → I log t) h (fun _ => hstart) ?_ ?_ halong
  · exact fun log t u ih hstep halong => hsilent log t u (ih halong) hstep
  · exact fun log a t u ih hstep halong =>
      hentry log a t u halong.last (ih halong.append_left) hstep

end History
