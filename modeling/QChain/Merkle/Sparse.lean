import Mathlib

/-!
# Complete Merkle trees

A complete binary tree of a given height, whose slots are the bit strings of that length. A tree
that is stored sparsely, rebuilt from leaves or cached is compared with it through `root`. A proof
for a slot is the list of the digests beside its path; an arbitrary list gives the root only from
the digest the slot holds, if the pairs hashed on the way do not collide.
-/

namespace Merkle

variable {D : Type*}

/-! ### Climbing a path -/

/-- The two children of a node, the one the path goes through and the one beside it. The side is
`true` if the path goes through the right one. -/
def beside (side : Bool) (here sibling : D) : D × D :=
  if side then (sibling, here) else (here, sibling)

theorem beside_inj {side : Bool} {d d' s s' : D} :
    beside side d s = beside side d' s' ↔ d = d' ∧ s = s' := by
  cases side
  · simp [beside]
  · simp [beside, and_comm]

/-- The children of a node, seen from either of them, are its left and its right child. -/
theorem beside_eq (side : Bool) (child : Bool → D) :
    beside side (child side) (child (!side)) = (child false, child true) := by
  cases side <;> rfl

/-- The digest reached from `d` along a path. The path is given from the root down, by the side it
takes at each node and the digest beside it. -/
def climb (node : D × D → D) : List (Bool × D) → D → D
  | [], d => d
  | (side, sibling) :: path, d => node (beside side (climb node path d) sibling)

theorem climb_eq_foldr (node : D × D → D) (path : List (Bool × D)) (d : D) :
    climb node path d = path.foldr (fun step acc => node (beside step.1 acc step.2)) d := by
  induction path with
  | nil => rfl
  | cons step path ih => rw [climb, List.foldr_cons, ih]

/-- The pairs of children that are hashed in a climb. -/
def climbPairs (node : D × D → D) : List (Bool × D) → D → List (D × D)
  | [], _ => []
  | (side, sibling) :: path, d =>
    beside side (climb node path d) sibling :: climbPairs node path d

theorem climb_append {node : D × D → D} {path path' : List (Bool × D)} {d : D} :
    climb node (path ++ path') d = climb node path (climb node path' d) := by
  rw [climb_eq_foldr, climb_eq_foldr, climb_eq_foldr, List.foldr_append]

theorem climbPairs_append {node : D × D → D} {path path' : List (Bool × D)} {d : D} :
    climbPairs node (path ++ path') d =
      climbPairs node path (climb node path' d) ++ climbPairs node path' d := by
  induction path with
  | nil => rfl
  | cons step path ih => rw [List.cons_append, climbPairs, climb_append, ih, climbPairs]; rfl

/-! ### The tree over all slots -/

/-- The root of the complete tree of the given height over its slots. -/
def root (node : D × D → D) : ℕ → (List Bool → D) → D
  | 0, slot => slot []
  | n + 1, slot =>
    node (root node n fun s => slot (false :: s), root node n fun s => slot (true :: s))

variable {node : D × D → D}

/-- The children of the root, seen from either of them. -/
theorem root_succ (side : Bool) (n : ℕ) (slot : List Bool → D) :
    root node (n + 1) slot =
      node (beside side (root node n fun s => slot (side :: s))
        (root node n fun s => slot ((!side) :: s))) := by
  rw [root, beside_eq side fun b => root node n fun s => slot (b :: s)]

/-- The digests beside a path, from the root down. -/
def siblings (node : D × D → D) : List Bool → (List Bool → D) → List (Bool × D)
  | [], _ => []
  | side :: path, slot =>
    (side, root node path.length fun s => slot ((!side) :: s)) ::
      siblings node path fun s => slot (side :: s)

variable (path : List Bool) (slot : List Bool → D)

theorem length_siblings :
    (siblings node path slot).length = path.length := by
  induction path generalizing slot with
  | nil => rfl
  | cons side path ih => rw [siblings, List.length_cons, List.length_cons, ih]

theorem map_fst_siblings :
    (siblings node path slot).map Prod.fst = path := by
  induction path generalizing slot with
  | nil => rfl
  | cons side path ih => rw [siblings, List.map_cons, ih]

/-- The pairs of children at the nodes of a path. -/
def pathPairs (node : D × D → D) : List Bool → (List Bool → D) → List (D × D)
  | [], _ => []
  | side :: path, slot =>
    beside side (root node path.length fun s => slot (side :: s))
        (root node path.length fun s => slot ((!side) :: s)) ::
      pathPairs node path fun s => slot (side :: s)

/-- A path climbed along the tree's own siblings reaches the root. -/
theorem climb_siblings :
    climb node (siblings node path slot) (slot path) = root node path.length slot := by
  induction path generalizing slot with
  | nil => rfl
  | cons side path ih =>
    rw [siblings, climb, ih fun s => slot (side :: s), List.length_cons, root_succ side]

/-- A climb along the tree's own siblings hashes the pairs of the path. -/
theorem climbPairs_siblings :
    climbPairs node (siblings node path slot) (slot path) = pathPairs node path slot := by
  induction path generalizing slot with
  | nil => rfl
  | cons side path ih =>
    rw [siblings, climbPairs, climb_siblings path fun s => slot (side :: s),
      ih fun s => slot (side :: s), pathPairs]

/-- A path climbed along any digests reaches the root only from its slot. -/
theorem slot_of_climb {path : List (Bool × D)} {slot : List Bool → D} {d : D}
    (hinj : Set.InjOn node
      {pair | pair ∈ climbPairs node path d ∨ pair ∈ pathPairs node (path.map Prod.fst) slot})
    (hroot : climb node path d = root node path.length slot) : slot (path.map Prod.fst) = d := by
  induction path generalizing slot with
  | nil => exact hroot.symm
  | cons step path ih =>
    obtain ⟨side, sibling⟩ := step
    have hlength : (path.map Prod.fst).length = path.length := List.length_map _
    rw [climb, List.length_cons, root_succ side] at hroot
    -- both sides hash a pair at the top of the path, and the two pairs are one
    have hpair := hinj (Or.inl List.mem_cons_self)
      (Or.inr (by rw [List.map_cons, pathPairs, hlength]; exact List.mem_cons_self)) hroot
    refine ih ?_ (beside_inj.1 hpair).1
    apply hinj.mono
    rintro pair (hpair | hpair)
    · exact Or.inl (List.mem_cons_of_mem _ hpair)
    · exact Or.inr (List.mem_cons_of_mem _ hpair)

/-! ### Slots filled by leaves -/

section Leaves

variable {K : Type*} (bit : K → ℕ → Bool)

/-- Some bits of a key, from a depth on. -/
def bitsFrom (k : K) : ℕ → ℕ → List Bool
  | _, 0 => []
  | depth, n + 1 => bit k depth :: bitsFrom k (depth + 1) n

@[simp] theorem length_bitsFrom (k : K) (depth n : ℕ) : (bitsFrom bit k depth n).length = n := by
  induction n generalizing depth with
  | zero => rfl
  | succ n ih => rw [bitsFrom, List.length_cons, ih]

@[simp] theorem getElem_bitsFrom (k : K) {depth n i : ℕ}
    (h : i < (bitsFrom bit k depth n).length) :
    (bitsFrom bit k depth n)[i] = bit k (depth + i) := by
  induction n generalizing depth i with
  | zero => cases h
  | succ n ih =>
    cases i with
    | zero => rfl
    | succ i =>
      refine (ih (Nat.lt_of_succ_lt_succ h)).trans ?_
      rw [Nat.add_assoc, Nat.add_comm 1]

theorem bitsFrom_inj {k k' : K} {depth n : ℕ} :
    bitsFrom bit k depth n = bitsFrom bit k' depth n ↔
      ∀ i, depth ≤ i → i < depth + n → bit k i = bit k' i := by
  induction n generalizing depth with
  | zero =>
    refine iff_of_true rfl ?_
    intro i hle hlt
    omega
  | succ n ih =>
    rw [bitsFrom, bitsFrom, List.cons.injEq, ih]
    constructor
    · rintro ⟨hhead, htail⟩ i hle hlt
      rcases Nat.eq_or_lt_of_le hle with rfl | hlt'
      · exact hhead
      · exact htail i hlt' (by omega)
    · intro h
      exact ⟨h depth le_rfl (by omega), fun i hle hlt => h i (by omega) (by omega)⟩

/-- The leaves on one side of a node at `depth`. -/
def onSide {V : Type*} (side : Bool) (leaves : List (K × V)) (depth : ℕ) : List (K × V) :=
  leaves.filter fun leaf => bit leaf.1 depth == side

@[simp] theorem mem_onSide {V : Type*} {side : Bool} {leaves : List (K × V)} {depth : ℕ}
    {leaf : K × V} :
    leaf ∈ onSide bit side leaves depth ↔ leaf ∈ leaves ∧ bit leaf.1 depth = side := by
  rw [onSide, List.mem_filter, beq_iff_eq]

@[simp] theorem onSide_nil {V : Type*} (side : Bool) (depth : ℕ) :
    onSide bit side ([] : List (K × V)) depth = [] := rfl

/-- The slots below a node at `depth`: the value of the first leaf whose remaining bits name the
slot, and the digest of an empty slot where there is none. -/
def slots (empty : D) (leaves : List (K × D)) (depth : ℕ) (s : List Bool) : D :=
  ((leaves.find? fun leaf => bitsFrom bit leaf.1 depth s.length = s).map Prod.snd).getD empty

variable {bit} {empty : D} {leaves : List (K × D)} {depth : ℕ}

/-- The slots on one side of a node are those of the leaves on that side. -/
theorem slots_cons (side : Bool) (s : List Bool) :
    slots bit empty leaves depth (side :: s) =
      slots bit empty (onSide bit side leaves depth) (depth + 1) s := by
  rw [slots, slots, onSide, List.find?_filter]
  congr 3
  ext leaf
  simp [bitsFrom]

/-- A slot that is not empty holds the value of a leaf. -/
theorem exists_of_slots_ne {s : List Bool} (h : slots bit empty leaves depth s ≠ empty) :
    ∃ leaf ∈ leaves, bitsFrom bit leaf.1 depth s.length = s ∧
      leaf.2 = slots bit empty leaves depth s := by
  rw [slots] at h ⊢
  cases hfind : leaves.find? fun leaf => bitsFrom bit leaf.1 depth s.length = s with
  | none =>
    rw [hfind] at h
    exact absurd rfl h
  | some leaf =>
    have hbits := List.find?_some hfind
    exact ⟨leaf, List.mem_of_find?_eq_some hfind, of_decide_eq_true hbits, rfl⟩

/-- The slot of a leaf holds its value, if no other leaf has the same bits. -/
theorem slots_of_mem {leaf : K × D} (hmem : leaf ∈ leaves) {n : ℕ}
    (hunique : ∀ other ∈ leaves,
      bitsFrom bit other.1 depth n = bitsFrom bit leaf.1 depth n → other = leaf) :
    slots bit empty leaves depth (bitsFrom bit leaf.1 depth n) = leaf.2 := by
  rw [slots, length_bitsFrom]
  cases hfind : leaves.find? fun other =>
      bitsFrom bit other.1 depth n = bitsFrom bit leaf.1 depth n with
  | none => simpa using List.find?_eq_none.1 hfind leaf hmem
  | some other =>
    have hbits := List.find?_some hfind
    rw [hunique other (List.mem_of_find?_eq_some hfind) (of_decide_eq_true hbits)]
    rfl

end Leaves

end Merkle
