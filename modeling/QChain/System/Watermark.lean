import Mathlib

/-!
# Watermarks

A record of the highest round something was approved for, with the value approved there. A mark
*covers* the pairs below it and the one at it. Approving covers the pair and moving the mark
uncovers none, so the approvals of a run have one value a round as long as the mark is kept.
-/

namespace Watermark

variable {ρ δ : Type*} [LinearOrder ρ]

/-- The pairs a mark accounts for. -/
def Covers (mark : Option (ρ × δ)) (round : ρ) (value : δ) : Prop :=
  ∃ m ∈ mark, round < m.1 ∨ round = m.1 ∧ value = m.2

/-- A pair that a later one may follow: of an earlier round, or the same. -/
def Below (p q : ρ × δ) : Prop := p.1 ≤ q.1 ∧ (p.1 = q.1 → p.2 = q.2)

variable {mark : Option (ρ × δ)} {round round' : ρ} {value value' : δ}

/-- Moving the mark uncovers nothing. -/
theorem Covers.move (h : Covers mark round' value')
    (hbelow : ∀ p ∈ mark, Below p (round, value)) :
    Covers (some (round, value)) round' value' := by
  obtain ⟨p, hp, hcovers⟩ := h
  obtain ⟨hle, heq⟩ := hbelow p hp
  refine ⟨_, rfl, ?_⟩
  rcases hcovers with hlt | ⟨rfl, rfl⟩
  · exact .inl (lt_of_lt_of_le hlt hle)
  · exact (lt_or_eq_of_le hle).imp id fun hround => ⟨hround, heq hround⟩

/-- A covered pair of the round of an approved one has its value. -/
theorem Covers.value_eq (h : Covers mark round value')
    (hbelow : ∀ p ∈ mark, Below p (round, value)) : value' = value := by
  obtain ⟨_, hp, hcovers⟩ := h.move hbelow
  cases hp
  rcases hcovers with hlt | ⟨-, hvalue⟩
  · exact absurd hlt (lt_irrefl _)
  · exact hvalue

/-- As long as each grant followed all before it, following the last one is enough. -/
theorem below_head_iff {granted : List (ρ × δ)} (h : granted.Pairwise fun q p => Below p q)
    (q : ρ × δ) : (∀ p ∈ granted.head?, Below p q) ↔ ∀ p ∈ granted, Below p q := by
  cases granted with
  | nil => simp
  | cons last granted =>
    obtain ⟨hlast, -⟩ := List.pairwise_cons.1 h
    simp only [List.head?_cons, Option.mem_some_iff, forall_eq', List.forall_mem_cons]
    refine ⟨fun hq => ⟨hq, fun p hp => ?_⟩, fun hq => hq.1⟩
    have hp := hlast p hp
    unfold Below at *
    grind

variable [DecidableEq δ]

/-- What a mark says of a request. -/
inductive Verdict (ρ : Type*)
  | stale (last : ρ)
  | conflict
  | repeated
  | fresh

/-- The rule of a mark. Without a mark every request is fresh. -/
def judge (mark : Option (ρ × δ)) (round : ρ) (value : δ) : Verdict ρ :=
  match mark with
  | none => .fresh
  | some (last, lastValue) =>
    if round < last then .stale last
    else if round = last then if lastValue ≠ value then .conflict else .repeated
    else .fresh

theorem eq_of_repeated (h : judge mark round value = .repeated) : mark = some (round, value) := by
  match mark with
  | none => cases h
  | some (last, lastValue) =>
    simp only [judge] at h
    split_ifs at h with _ hround hvalue
    rw [hround, not_not.1 hvalue]

theorem granted_iff : (judge mark round value = .repeated ∨ judge mark round value = .fresh) ↔
    ∀ p ∈ mark, Below p (round, value) := by
  match mark with
  | none => simp [judge]
  | some (last, lastValue) =>
    simp only [judge, Option.mem_some_iff, forall_eq', Below]
    split_ifs with hstale hround hvalue <;> grind

end Watermark
