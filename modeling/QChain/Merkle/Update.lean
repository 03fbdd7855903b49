import QChain.Merkle.Trie

/-!
# Updating compressed trees

What a compressed tree holds is a set of entries, and a proper tree with that set is the only one.
An update lays new entries over the set. It is carried out by a branch where the keys part, each
side of it updated with the entries that belong there, so whatever walks down a tree to change it is
compared with the set side by side.
-/

namespace Merkle

namespace Trie

variable {K V D : Type*}

/-- The entries of `S`, with those of a list in place of the ones that have their keys. -/
def overlay (es : List (K × V)) (S : Set (K × V)) : Set (K × V) :=
  {e | e ∈ es ∨ e ∈ S ∧ ∀ v, (e.1, v) ∉ es}

/-- A branch, seen from the child on one of its sides. -/
def fork (depth : ℕ) (side : Bool) (here other : Trie K V) : Trie K V :=
  branch depth (beside side here other).1 (beside side here other).2

section Sets

variable (bit : K → ℕ → Bool)

/-- The tree is proper and has the entries of a set. -/
structure Holds (t : Trie K V) (S : Set (K × V)) : Prop where
  proper : t.Proper bit
  mem_iff : ∀ e, e ∈ t.entries ↔ e ∈ S

/-- The entries on one side of a node at `depth`. -/
def half (S : Set (K × V)) (depth : ℕ) (side : Bool) : Set (K × V) :=
  {e ∈ S | bit e.1 depth = side}

/-- The keys agree on the bits before a depth. -/
def AgreeOn (depth : ℕ) (S : Set (K × V)) : Prop :=
  ∀ e ∈ S, ∀ e' ∈ S, ∀ i < depth, bit e.1 i = bit e'.1 i

end Sets

variable {bit : K → ℕ → Bool} {S : Set (K × V)} {es : List (K × V)} {depth : ℕ} {side : Bool}
  {t t' here other l r : Trie K V}

/-! ### Overlays -/

theorem overlay_nil : overlay [] S = S := by
  ext e
  simp [overlay]

theorem overlay_empty : overlay es ∅ = {e | e ∈ es} := by
  ext e
  simp [overlay]

/-- No key is lost under an overlay. -/
theorem exists_mem_overlay (es : List (K × V)) {k : K} {v : V} (h : (k, v) ∈ S) :
    ∃ v', (k, v') ∈ overlay es S := by
  by_cases hes : ∃ v', (k, v') ∈ es
  · obtain ⟨v', hv'⟩ := hes
    exact ⟨v', Or.inl hv'⟩
  · exact ⟨v, Or.inr ⟨h, fun v' hv' => hes ⟨v', hv'⟩⟩⟩

/-- Entries with different keys can be laid over a set one by one. -/
theorem overlay_cons {e : K × V} (h : ∀ v, (e.1, v) ∉ es) :
    overlay (e :: es) S = overlay es (overlay [e] S) := by
  ext x
  simp only [overlay, Set.mem_ofPred_eq, List.mem_cons, List.not_mem_nil, or_false, not_or,
    forall_and]
  constructor
  · rintro ((rfl | hx) | ⟨hx, hsingle, hes⟩)
    · exact Or.inr ⟨Or.inl rfl, h⟩
    · exact Or.inl hx
    · exact Or.inr ⟨Or.inr ⟨hx, hsingle⟩, hes⟩
  · rintro (hx | ⟨rfl | ⟨hx, hsingle⟩, hes⟩)
    · exact Or.inl (Or.inr hx)
    · exact Or.inl (Or.inl rfl)
    · exact Or.inr ⟨hx, hsingle, hes⟩

/-- Each side of an overlay is an overlay of that side. -/
theorem half_overlay : half bit (overlay es S) depth side =
    overlay (onSide bit side es depth) (half bit S depth side) := by
  ext e
  simp only [half, overlay, Set.mem_ofPred_eq, mem_onSide, not_and]
  constructor
  · rintro ⟨he | ⟨he, hes⟩, hside⟩
    · exact Or.inl ⟨he, hside⟩
    · exact Or.inr ⟨⟨he, hside⟩, fun v hv => absurd hv (hes v)⟩
  · rintro (⟨he, hside⟩ | ⟨⟨he, hside⟩, hes⟩)
    · exact ⟨Or.inl he, hside⟩
    · exact ⟨Or.inr ⟨he, fun v hv => hes v hv hside⟩, hside⟩

/-- A single entry is laid over the side of its key. -/
theorem half_overlay_self {k : K} {v : V} :
    half bit (overlay [(k, v)] S) depth (bit k depth) =
      overlay [(k, v)] (half bit S depth (bit k depth)) := by
  rw [half_overlay]
  simp [onSide]

theorem half_overlay_not {k : K} {v : V} :
    half bit (overlay [(k, v)] S) depth (!bit k depth) = half bit S depth (!bit k depth) := by
  rw [half_overlay]
  simp [onSide, overlay_nil]

/-! ### Keys that agree -/

theorem agreeOn_of_forall {k : K} (h : ∀ e ∈ S, ∀ i < depth, bit e.1 i = bit k i) :
    AgreeOn bit depth S :=
  fun e he e' he' i hi => (h e he i hi).trans (h e' he' i hi).symm

/-- The keys on one side agree one bit further. -/
theorem AgreeOn.half (h : AgreeOn bit depth S) :
    AgreeOn bit (depth + 1) (half bit S depth side) := by
  intro e he e' he' i hi
  rcases Nat.lt_succ_iff_lt_or_eq.1 hi with hlt | rfl
  · exact h e he.1 e' he'.1 i hlt
  · rw [he.2, he'.2]

/-- A set whose keys all take one side is all of that side. -/
theorem half_eq_self (h : ∀ e ∈ S, bit e.1 depth = side) : half bit S depth side = S :=
  Set.ext fun e => ⟨fun he => he.1, fun he => ⟨he, h e he⟩⟩

theorem half_not_eq_empty (h : ∀ e ∈ S, bit e.1 depth = side) : half bit S depth (!side) = ∅ :=
  Set.eq_empty_of_forall_notMem fun e he =>
    Bool.not_ne_self side (he.2.symm.trans (h e he.1))

/-! ### The tree of a set -/

/-- The tree of a set is unique. -/
theorem Holds.unique (h : t.Holds bit S) (h' : t'.Holds bit S) : t = t' :=
  h.proper.eq_of_mem_iff h'.proper fun e => (h.mem_iff e).trans (h'.mem_iff e).symm

theorem Holds.ne_empty (h : t.Holds bit S) (hS : S.Nonempty) : t ≠ Trie.empty := by
  rintro rfl
  obtain ⟨e, he⟩ := hS
  cases (h.mem_iff e).2 he

theorem holds_leaf (k : K) (v : V) : (leaf k v).Holds bit {(k, v)} :=
  ⟨.leaf k v, fun _ => List.mem_singleton⟩

/-- The children of a branch hold the two sides of its set. -/
theorem Holds.child (h : (branch depth l r).Holds bit S) :
    l.Holds bit (half bit S depth false) ∧ r.Holds bit (half bit S depth true) := by
  have hproper := h.proper
  cases hproper with
  | branch left_ne right_ne left_bit right_bit agree left right =>
    have hproper := Proper.branch left_ne right_ne left_bit right_bit agree left right
    constructor
    · exact ⟨left, fun e => by rw [hproper.mem_left, h.mem_iff]; rfl⟩
    · exact ⟨right, fun e => by rw [hproper.mem_right, h.mem_iff]; rfl⟩

/-- Two populated sides make a branch where the keys part. -/
theorem holds_branch (hagree : AgreeOn bit depth S) (hl : l.Holds bit (half bit S depth false))
    (hr : r.Holds bit (half bit S depth true)) (hne : ∀ side, (half bit S depth side).Nonempty) :
    (branch depth l r).Holds bit S := by
  have hmem : ∀ e, e ∈ l.entries ++ r.entries ↔ e ∈ S := by
    intro e
    rw [List.mem_append, hl.mem_iff, hr.mem_iff]
    constructor
    · rintro (he | he)
      · exact he.1
      · exact he.1
    · intro he
      cases hbit : bit e.1 depth with
      | false => exact Or.inl ⟨he, hbit⟩
      | true => exact Or.inr ⟨he, hbit⟩
  refine ⟨.branch (hl.ne_empty (hne false)) (hr.ne_empty (hne true)) ?_ ?_ ?_ hl.proper hr.proper,
    hmem⟩
  · exact fun e he => ((hl.mem_iff e).1 he).2
  · exact fun e he => ((hr.mem_iff e).1 he).2
  · exact fun e he e' he' => hagree e ((hmem e).1 he) e' ((hmem e').1 he')

theorem holds_fork (hagree : AgreeOn bit depth S) (hhere : here.Holds bit (half bit S depth side))
    (hother : other.Holds bit (half bit S depth !side))
    (hne : ∀ side, (half bit S depth side).Nonempty) :
    (fork depth side here other).Holds bit S := by
  cases side with
  | false => exact holds_branch hagree hhere hother hne
  | true => exact holds_branch hagree hother hhere hne

/-- The entries of a branch and those laid over them are on both sides of it. -/
theorem Holds.nonempty_half_overlay (h : (branch depth l r).Holds bit S) (es : List (K × V))
    (side : Bool) :
    (half bit (overlay es S) depth side).Nonempty := by
  obtain ⟨e, he, e', he', hbit, hbit'⟩ := h.proper.exists_apart
  cases side with
  | false =>
    obtain ⟨v, hv⟩ := exists_mem_overlay es ((h.mem_iff _).1 he)
    exact ⟨(e.1, v), hv, hbit⟩
  | true =>
    obtain ⟨v, hv⟩ := exists_mem_overlay es ((h.mem_iff _).1 he')
    exact ⟨(e'.1, v), hv, hbit'⟩

/-- The keys below a branch agree with each of them before its depth. -/
theorem Holds.agree (h : (branch depth l r).Holds bit S) {k : K} {v : V} (hk : (k, v) ∈ S)
    {e : K × V} (he : e ∈ S) {i : ℕ} (hi : i < depth) : bit e.1 i = bit k i := by
  have hproper := h.proper
  cases hproper with
  | branch _ _ _ _ agree _ _ =>
    exact agree e ((h.mem_iff e).2 he) (k, v) ((h.mem_iff (k, v)).2 hk) i hi

/-- A branch is below the bits its keys and those laid over them agree on. -/
theorem Holds.le_depth (h : (branch depth l r).Holds bit S) {level : ℕ}
    (hagree : AgreeOn bit level (overlay es S)) : level ≤ depth := by
  by_contra hlt
  obtain ⟨e, he, hbit⟩ := h.nonempty_half_overlay es false
  obtain ⟨e', he', hbit'⟩ := h.nonempty_half_overlay es true
  rw [hagree e he e' he' depth (not_le.1 hlt), hbit'] at hbit
  cases hbit

/-! ### Digests and descents -/

section Descent

variable {digest : Node K V D → D} {k : K}

theorem terminal_fork : (fork depth side here other).terminal bit k =
    if bit k depth = side then here.terminal bit k else other.terminal bit k := by
  cases side <;> cases hbit : bit k depth <;> simp [fork, beside, terminal, hbit]

theorem route_fork : (fork depth side here other).route bit digest k =
    if bit k depth = side then (depth, other.hash digest) :: here.route bit digest k
    else (depth, here.hash digest) :: other.route bit digest k := by
  cases side <;> cases hbit : bit k depth <;> simp [fork, beside, route, hbit]

end Descent

end Trie

end Merkle
