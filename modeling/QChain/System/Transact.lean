import Mathlib

/-!
# Programs on a state that may fail

Programs that read and change a state and may stop with an error, which drops every change:
`StateT σ (Except ε)`. What holds after every successful run is stated by `Wp`, the weakest
precondition of partial correctness, and computed along the program by the rules below. They
are simp lemmas, so `simp only` with the definition of a program turns a statement about the
program into one about the values it passes through.

## Main definitions

* `Transact`: programs on states `σ` that fail with errors `ε`.
* `require`, `orThrow`: the checks programs are written with.
* `Wp`: every successful run ends in the postcondition.
* `Succeeds`: the run succeeds and ends in the postcondition.
-/

/-- A program on a state that may fail, leaving the state as it was. -/
abbrev Transact (σ ε : Type) := StateT σ (Except ε)

namespace Transact

variable {σ ε α β : Type}

/-- Fail unless the condition holds. -/
def require (c : Prop) [Decidable c] (e : ε) : Transact σ ε Unit :=
  if c then pure () else throw e

/-- The value of an option, or fail. -/
def orThrow (o : Option α) (e : ε) : Transact σ ε α :=
  match o with
  | some a => pure a
  | none => throw e

/-- Every successful run of the program from the state ends in the postcondition. -/
def Wp (m : Transact σ ε α) (s : σ) (Q : α → σ → Prop) : Prop :=
  ∀ a s', m.run s = .ok (a, s') → Q a s'

variable {m : Transact σ ε α} {s : σ} {Q R : α → σ → Prop}

theorem Wp.mono (h : Wp m s Q) (hQR : ∀ a s', Q a s' → R a s') : Wp m s R :=
  fun a s' hrun => hQR a s' (h a s' hrun)

theorem Wp.and (hQ : Wp m s Q) (hR : Wp m s R) : Wp m s fun a s' => Q a s' ∧ R a s' :=
  fun a s' hrun => ⟨hQ a s' hrun, hR a s' hrun⟩

@[simp] theorem wp_true : Wp m s (fun _ _ => True) ↔ True := iff_true_intro fun _ _ _ => trivial

@[simp] theorem wp_pure (a : α) : Wp (pure a : Transact σ ε α) s Q ↔ Q a s := by
  constructor
  · intro h
    exact h a s rfl
  · intro h a' s' hrun
    obtain ⟨rfl, rfl⟩ := Prod.mk.inj (Except.ok.inj hrun)
    exact h

@[simp] theorem wp_throw (e : ε) : Wp (throw e : Transact σ ε α) s Q ↔ True := by
  refine iff_true_intro fun a s' hrun => ?_
  cases hrun

variable {f : α → Transact σ ε β} {c : Prop} {m' : Transact σ ε α} {e : ε} {o : Option α}
  {l : List α}

@[simp] theorem wp_bind {Q : β → σ → Prop} :
    Wp (m >>= f) s Q ↔ Wp m s fun a s' => Wp (f a) s' Q := by
  have hbind : (m >>= f).run s = (m.run s).bind fun p => (f p.1).run p.2 := rfl
  constructor
  · intro h a s' hm b s'' hf
    apply h
    rw [hbind, hm]
    exact hf
  · intro h b s'' hrun
    rw [hbind] at hrun
    cases hm : m.run s with
    | error e =>
      rw [hm] at hrun
      cases hrun
    | ok p =>
      rw [hm] at hrun
      exact h p.1 p.2 hm b s'' hrun

/-- The rule for a sequence: what the first program ensures is what the second starts from. -/
theorem Wp.bind {R : β → σ → Prop} (h : Wp m s Q) (hf : ∀ a s', Q a s' → Wp (f a) s' R) :
    Wp (m >>= f) s R :=
  wp_bind.2 (h.mono hf)

@[simp] theorem wp_map {f : α → β} {Q : β → σ → Prop} :
    Wp (f <$> m) s Q ↔ Wp m s fun a s' => Q (f a) s' := by
  rw [map_eq_pure_bind, wp_bind]
  simp only [wp_pure]

@[simp] theorem wp_get {Q : σ → σ → Prop} : Wp (get : Transact σ ε σ) s Q ↔ Q s s := by
  constructor
  · intro h
    exact h s s rfl
  · intro h a' s' hrun
    obtain ⟨rfl, rfl⟩ := Prod.mk.inj (Except.ok.inj hrun)
    exact h

@[simp] theorem wp_modify {Q : PUnit → σ → Prop} (f : σ → σ) :
    Wp (modify f : Transact σ ε PUnit) s Q ↔ Q () (f s) := by
  constructor
  · intro h
    exact h () (f s) rfl
  · intro h a' s' hrun
    obtain ⟨rfl, rfl⟩ := Prod.mk.inj (Except.ok.inj hrun)
    exact h

@[simp] theorem wp_ite [Decidable c] :
    Wp (if c then m else m') s Q ↔ (c → Wp m s Q) ∧ (¬c → Wp m' s Q) := by
  split_ifs with hc <;> simp [hc]

@[simp] theorem wp_require [Decidable c] {Q : Unit → σ → Prop} :
    Wp (require c e) s Q ↔ (c → Q () s) := by
  simp [require]

@[simp] theorem wp_orThrow : Wp (orThrow o e) s Q ↔ ∀ a, o = some a → Q a s := by
  cases o <;> simp [orThrow]

/-- The rules of straight-line programs, as one lemma for `simp only`. -/
theorem wp_rules : type_of% @wp_bind ∧ type_of% @wp_pure ∧ type_of% @wp_get ∧
    type_of% @wp_require ∧ type_of% @wp_orThrow :=
  ⟨@wp_bind, @wp_pure, @wp_get, @wp_require, @wp_orThrow⟩

/-- A loop of checks: after it, all of them hold. -/
theorem wp_forM_checks {P : α → Prop} {body : α → Transact σ ε PUnit} {Q : PUnit → σ → Prop}
    (hbody : ∀ a ∈ l, ∀ R : PUnit → σ → Prop, (P a → R () s) → Wp (body a) s R)
    (h : (∀ a ∈ l, P a) → Q () s) :
    Wp (l.forM body) s Q := by
  induction l with
  | nil => exact (wp_pure _).2 (h (List.forall_mem_nil P))
  | cons a l ih =>
    show Wp (body a >>= fun _ => l.forM body) s _
    rw [wp_bind]
    apply hbody a (List.mem_cons_self ..)
    intro ha
    apply ih fun b hb => hbody b (List.mem_cons_of_mem a hb)
    intro hl
    exact h (List.forall_mem_cons.2 ⟨ha, hl⟩)

/-- A loop of changes of the state. -/
theorem wp_forM_modify {f : α → σ → σ} {Q : PUnit → σ → Prop} :
    Wp (l.forM fun a => (modify (f a) : Transact σ ε PUnit)) s Q ↔
      Q () (l.foldl (fun s a => f a s) s) := by
  induction l generalizing s with
  | nil => exact wp_pure _
  | cons a l ih =>
    show Wp (modify (f a) >>= fun _ => l.forM fun a => modify (f a)) s _ ↔ _
    rw [wp_bind, wp_modify]
    exact ih

/-! ### Runs that succeed

`Succeeds` is total correctness: its rules turn a program into the conditions under which it runs to
the end. -/

/-- A run of the program from the state succeeds and ends in the postcondition. -/
def Succeeds (m : Transact σ ε α) (s : σ) (Q : α → σ → Prop) : Prop :=
  ∃ a s', m.run s = .ok (a, s') ∧ Q a s'

theorem succeeds_iff_of_run {a : α} {s' : σ} (h : m.run s = .ok (a, s')) :
    Succeeds m s Q ↔ Q a s' := by
  constructor
  · rintro ⟨b, t, hrun, hQ⟩
    rw [h] at hrun
    obtain ⟨rfl, rfl⟩ := Prod.mk.inj (Except.ok.inj hrun)
    exact hQ
  · exact fun hQ => ⟨a, s', h, hQ⟩

@[simp] theorem succeeds_pure (a : α) : Succeeds (pure a : Transact σ ε α) s Q ↔ Q a s :=
  succeeds_iff_of_run rfl

@[simp] theorem succeeds_throw (e : ε) : Succeeds (throw e : Transact σ ε α) s Q ↔ False := by
  refine iff_false_intro ?_
  rintro ⟨a, s', hrun, _⟩
  cases hrun

@[simp] theorem succeeds_bind {Q : β → σ → Prop} :
    Succeeds (m >>= f) s Q ↔ Succeeds m s fun a s' => Succeeds (f a) s' Q := by
  have hbind : (m >>= f).run s = (m.run s).bind fun p => (f p.1).run p.2 := rfl
  unfold Succeeds
  rw [hbind]
  constructor
  · rintro ⟨b, t, hrun, hQ⟩
    cases h : m.run s with
    | error e =>
      rw [h] at hrun
      cases hrun
    | ok p =>
      rw [h] at hrun
      exact ⟨p.1, p.2, rfl, b, t, hrun, hQ⟩
  · rintro ⟨a, s', hrun, b, t, hrun', hQ⟩
    rw [hrun]
    exact ⟨b, t, hrun', hQ⟩

@[simp] theorem succeeds_get {Q : σ → σ → Prop} :
    Succeeds (get : Transact σ ε σ) s Q ↔ Q s s := succeeds_iff_of_run rfl

@[simp] theorem succeeds_modify {Q : PUnit → σ → Prop} (f : σ → σ) :
    Succeeds (modify f : Transact σ ε PUnit) s Q ↔ Q () (f s) := succeeds_iff_of_run rfl

@[simp] theorem succeeds_require [Decidable c] {Q : Unit → σ → Prop} :
    Succeeds (require c e) s Q ↔ c ∧ Q () s := by
  unfold require
  split_ifs with hc
  · simp [hc]
  · simp [hc]

@[simp] theorem succeeds_orThrow : Succeeds (orThrow o e) s Q ↔ ∃ a, o = some a ∧ Q a s := by
  cases o <;> simp [orThrow]

end Transact
