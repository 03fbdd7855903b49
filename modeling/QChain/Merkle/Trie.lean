import Mathlib
import QChain.Merkle.Sparse

/-!
# Compressed Merkle trees

A binary tree over keyed leaves that has a node only where two populated subtrees part. The digest
of a branch is computed from its children's digests alone: neither the bit it parts at nor the
levels skipped above it are hashed. A tree that branches at the first bit its keys differ in is
given by its entries. Under a digest that does not collide on what was hashed, the root binds the
entries, and a climb reaches the root only from a node that hangs in the tree.

## Main definitions

* `Node`: what is hashed at a node.
* `Trie`: compressed trees, with their `entries` and `hash`.
* `Trie.Proper`: the tree branches at the first bit its keys differ in.
* `Trie.terminal`, `Trie.route`: where a key's descent ends, and the digests beside it.
* `Trie.build`: the tree of a list of entries, split bit by bit.

## Main results

* `Trie.entries_eq_of_hash_eq`: the root binds the entries.
* `Trie.exists_subtree_of_climb`: what a climb to the root starts from hangs in the tree.
* `Trie.Proper.eq_of_mem_iff`: a proper tree is given by its entries.
* `Trie.exists_build`: entries with different keys have a tree, and it is proper.
-/

namespace Merkle

variable {K V D : Type*}

/-- What is hashed at a node: nothing, a key with its value, or the digests of two children. -/
inductive Node (K V D : Type*)
  | empty
  | leaf (key : K) (value : V)
  | branch (children : D × D)

/-- A compressed tree. A branch records the bit its sides part at. -/
inductive Trie (K V : Type*)
  | empty
  | leaf (key : K) (value : V)
  | branch (depth : ℕ) (left right : Trie K V)
  deriving DecidableEq

namespace Trie

/-- The keys of a tree with their values, from left to right. -/
def entries : Trie K V → List (K × V)
  | empty => []
  | leaf k v => [(k, v)]
  | branch _ l r => l.entries ++ r.entries

section Digest

variable (digest : Node K V D → D)

/-- The digest of a tree. -/
def hash : Trie K V → D
  | empty => digest .empty
  | leaf k v => digest (.leaf k v)
  | branch _ l r => digest (.branch (l.hash, r.hash))

/-- What is hashed at the root of a tree. -/
def top : Trie K V → Node K V D
  | empty => .empty
  | leaf k v => .leaf k v
  | branch _ l r => .branch (l.hash digest, r.hash digest)

/-- Everything hashed in a tree. -/
def inputs : Trie K V → List (Node K V D)
  | empty => [.empty]
  | leaf k v => [.leaf k v]
  | branch _ l r => .branch (l.hash digest, r.hash digest) :: (l.inputs ++ r.inputs)

/-- Everything hashed in a climb that starts at a node. -/
def climbInputs (path : List (Bool × D)) (start : Node K V D) : List (Node K V D) :=
  start :: (climbPairs (fun pair => digest (.branch pair)) path (digest start)).map .branch

variable {digest}

theorem hash_eq (t : Trie K V) : t.hash digest = digest (t.top digest) := by
  cases t <;> rfl

theorem top_mem_inputs (t : Trie K V) : t.top digest ∈ t.inputs digest := by
  cases t <;> exact List.mem_cons_self

/-! ### Binding -/

/-- Trees with one digest hash the same at their roots. -/
theorem top_eq_of_hash_eq {t t' : Trie K V}
    (hinj : Set.InjOn digest {n | n ∈ t.inputs digest ∨ n ∈ t'.inputs digest})
    (h : t.hash digest = t'.hash digest) : t.top digest = t'.top digest := by
  rw [hash_eq, hash_eq] at h
  exact hinj (Or.inl (top_mem_inputs t)) (Or.inr (top_mem_inputs t')) h

/-- The root binds the entries. -/
theorem entries_eq_of_hash_eq {t t' : Trie K V}
    (hinj : Set.InjOn digest {n | n ∈ t.inputs digest ∨ n ∈ t'.inputs digest})
    (h : t.hash digest = t'.hash digest) : t.entries = t'.entries := by
  induction t generalizing t' with
  | empty =>
    have htop := top_eq_of_hash_eq hinj h
    cases t' with
    | empty => rfl
    | leaf k v | branch d l r => cases htop
  | leaf k v =>
    have htop := top_eq_of_hash_eq hinj h
    cases t' with
    | empty | branch d l r => cases htop
    | leaf k' v' =>
      cases htop
      rfl
  | branch d l r ihl ihr =>
    have htop := top_eq_of_hash_eq hinj h
    cases t' with
    | empty | leaf k v => cases htop
    | branch d' l' r' =>
      obtain ⟨hl, hr⟩ := Prod.mk.inj (Node.branch.inj htop)
      rw [entries, entries, ihl (hinj.mono ?_) hl, ihr (hinj.mono ?_) hr]
      · rintro n (hn | hn)
        · exact Or.inl (List.mem_cons_of_mem _ (List.mem_append_right _ hn))
        · exact Or.inr (List.mem_cons_of_mem _ (List.mem_append_right _ hn))
      · rintro n (hn | hn)
        · exact Or.inl (List.mem_cons_of_mem _ (List.mem_append_left _ hn))
        · exact Or.inr (List.mem_cons_of_mem _ (List.mem_append_left _ hn))

/-- The subtree reached by taking the given sides from the root. -/
def subtree : Trie K V → List Bool → Option (Trie K V)
  | t, [] => some t
  | branch _ l r, side :: sides => if side then r.subtree sides else l.subtree sides
  | _, _ :: _ => none

theorem mem_entries_of_subtree {t s : Trie K V} {sides : List Bool} {e : K × V}
    (h : t.subtree sides = some s) (he : e ∈ s.entries) : e ∈ t.entries := by
  induction t generalizing sides with
  | empty | leaf k v =>
    cases sides with
    | nil => exact Option.some.inj h ▸ he
    | cons side sides => cases h
  | branch d l r ihl ihr =>
    cases sides with
    | nil => exact Option.some.inj h ▸ he
    | cons side sides =>
      cases side with
      | false => exact List.mem_append_left _ (ihl h)
      | true => exact List.mem_append_right _ (ihr h)

/-- What a climb to the root starts from hangs in the tree, along the sides climbed. -/
theorem exists_subtree_of_climb {t : Trie K V} {path : List (Bool × D)} {start : Node K V D}
    (hinj : Set.InjOn digest {n | n ∈ t.inputs digest ∨ n ∈ climbInputs digest path start})
    (h : climb (fun pair => digest (.branch pair)) path (digest start) = t.hash digest) :
    ∃ s, t.subtree (path.map Prod.fst) = some s ∧ s.top digest = start := by
  induction path generalizing t with
  | nil =>
    refine ⟨t, by cases t <;> rfl, ?_⟩
    rw [hash_eq] at h
    exact (hinj (Or.inr List.mem_cons_self) (Or.inl (top_mem_inputs t)) h).symm
  | cons step path ih =>
    obtain ⟨side, sibling⟩ := step
    rw [hash_eq] at h
    have htop := hinj (Or.inr (List.mem_cons_of_mem _ List.mem_cons_self))
      (Or.inl (top_mem_inputs t)) h
    have hrest : ∀ n, n ∈ climbInputs digest path start →
        n ∈ climbInputs digest ((side, sibling) :: path) start := by
      intro n hn
      rcases List.mem_cons.1 hn with rfl | hn
      · exact List.mem_cons_self
      · exact List.mem_cons_of_mem _ (List.mem_cons_of_mem _ hn)
    cases t with
    | empty | leaf k v => cases htop
    | branch d l r =>
      have hpair := Node.branch.inj htop
      cases side with
      | false =>
        refine ih (t := l) (hinj.mono ?_) (Prod.mk.inj hpair).1
        rintro n (hn | hn)
        · exact Or.inl (List.mem_cons_of_mem _ (List.mem_append_left _ hn))
        · exact Or.inr (hrest n hn)
      | true =>
        refine ih (t := r) (hinj.mono ?_) (Prod.mk.inj hpair).2
        rintro n (hn | hn)
        · exact Or.inl (List.mem_cons_of_mem _ (List.mem_append_right _ hn))
        · exact Or.inr (hrest n hn)

theorem eq_leaf_of_top {s : Trie K V} {k : K} {v : V} (h : s.top digest = .leaf k v) :
    s = leaf k v := by
  cases s with
  | empty | branch d l r => cases h
  | leaf k' v' =>
    cases h
    rfl

theorem eq_empty_of_top {s : Trie K V} (h : s.top digest = .empty) : s = empty := by
  cases s with
  | empty => rfl
  | leaf k v | branch d l r => cases h

end Digest

/-! ### Proper trees -/

section Proper

variable (bit : K → ℕ → Bool)

/-- The keys agree on the bits before a depth. -/
def Agree (depth : ℕ) (es : List (K × V)) : Prop :=
  ∀ e ∈ es, ∀ e' ∈ es, ∀ i < depth, bit e.1 i = bit e'.1 i

/-- The tree branches at the first bit its keys differ in, into two populated sides. -/
inductive Proper : Trie K V → Prop
  | empty : Proper empty
  | leaf (k : K) (v : V) : Proper (leaf k v)
  | branch {depth : ℕ} {l r : Trie K V} (left_ne : l ≠ Trie.empty) (right_ne : r ≠ Trie.empty)
      (left_bit : ∀ e ∈ l.entries, bit e.1 depth = false)
      (right_bit : ∀ e ∈ r.entries, bit e.1 depth = true)
      (agree : Agree bit depth (l.entries ++ r.entries))
      (left : Proper l) (right : Proper r) : Proper (Trie.branch depth l r)

variable {bit} {depth : ℕ} {l r t : Trie K V} {es : List (K × V)} {side : Bool} {e : K × V}

theorem Agree.mono {es' : List (K × V)} (h : Agree bit depth es) (hsub : es' ⊆ es) :
    Agree bit depth es' :=
  fun e he e' he' => h e (hsub he) e' (hsub he')

/-- Keys that agree before a depth and at it agree one bit further. -/
theorem Agree.succ (h : Agree bit depth es) (hside : ∀ e ∈ es, bit e.1 depth = side) :
    Agree bit (depth + 1) es := by
  intro e he e' he' i hi
  rcases Nat.lt_succ_iff_lt_or_eq.1 hi with hlt | rfl
  · exact h e he e' he' i hlt
  · rw [hside e he, hside e' he']

theorem Proper.exists_mem (ht : t.Proper bit) (hne : t ≠ Trie.empty) : ∃ e, e ∈ t.entries := by
  induction ht with
  | empty => exact absurd rfl hne
  | leaf k v => exact ⟨(k, v), List.mem_cons_self⟩
  | branch left_ne _ _ _ _ _ _ ihl _ =>
    obtain ⟨e, he⟩ := ihl left_ne
    exact ⟨e, List.mem_append_left _ he⟩

section

variable (h : (Trie.branch depth l r).Proper bit)

include h

/-- The two sides of a branch hold keys that differ at its depth. -/
theorem Proper.exists_apart :
    ∃ e ∈ (Trie.branch depth l r).entries, ∃ e' ∈ (Trie.branch depth l r).entries,
      bit e.1 depth = false ∧ bit e'.1 depth = true := by
  cases h with
  | branch left_ne right_ne left_bit right_bit _ left right =>
    obtain ⟨e, he⟩ := left.exists_mem left_ne
    obtain ⟨e', he'⟩ := right.exists_mem right_ne
    exact ⟨e, List.mem_append_left _ he, e', List.mem_append_right _ he',
      left_bit e he, right_bit e' he'⟩

/-- The entries on one side of a branch are those with its bit. -/
theorem Proper.mem_left :
    e ∈ l.entries ↔ e ∈ (Trie.branch depth l r).entries ∧ bit e.1 depth = false := by
  cases h with
  | branch _ _ left_bit right_bit _ _ _ =>
    constructor
    · exact fun he => ⟨List.mem_append_left _ he, left_bit e he⟩
    · rintro ⟨he, hbit⟩
      rcases List.mem_append.1 he with he | he
      · exact he
      · rw [right_bit e he] at hbit
        cases hbit

theorem Proper.mem_right :
    e ∈ r.entries ↔ e ∈ (Trie.branch depth l r).entries ∧ bit e.1 depth = true := by
  cases h with
  | branch _ _ left_bit right_bit _ _ _ =>
    constructor
    · exact fun he => ⟨List.mem_append_right _ he, right_bit e he⟩
    · rintro ⟨he, hbit⟩
      rcases List.mem_append.1 he with he | he
      · rw [left_bit e he] at hbit
        cases hbit
      · exact he

/-- A tree with a branch has two entries, so it is not that of one leaf. -/
theorem Proper.not_subsingleton {k : K} {v : V}
    (hall : ∀ e ∈ (Trie.branch depth l r).entries, e = (k, v)) :
    False := by
  obtain ⟨e, he, e', he', hbit, hbit'⟩ := h.exists_apart
  rw [hall e he, ← hall e' he', hbit'] at hbit
  cases hbit

/-- No branch is below the first bit two entries differ in. -/
theorem Proper.depth_le {depth' : ℕ} {l' r' : Trie K V} (h' : (Trie.branch depth' l' r').Proper bit)
    (hmem : ∀ e, e ∈ (Trie.branch depth l r).entries → e ∈ (Trie.branch depth' l' r').entries) :
    depth' ≤ depth := by
  by_contra hlt
  obtain ⟨e, he, e', he', hbit, hbit'⟩ := h.exists_apart
  cases h' with
  | branch _ _ _ _ agree _ _ =>
    rw [agree e (hmem e he) e' (hmem e' he') depth (not_le.1 hlt), hbit'] at hbit
    cases hbit

end

/-- A proper tree is given by its entries. -/
theorem Proper.eq_of_mem_iff {t' : Trie K V} (ht : t.Proper bit) (ht' : t'.Proper bit)
    (h : ∀ e, e ∈ t.entries ↔ e ∈ t'.entries) :
    t = t' := by
  induction ht generalizing t' with
  | empty =>
    by_contra hne
    obtain ⟨e, he⟩ := ht'.exists_mem (Ne.symm hne)
    cases (h e).2 he
  | leaf k v =>
    cases ht' with
    | empty => cases (h (k, v)).1 List.mem_cons_self
    | leaf k' v' =>
      cases List.mem_singleton.1 ((h (k, v)).1 List.mem_cons_self)
      rfl
    | branch a b c d e f g =>
      exact ((Proper.branch a b c d e f g).not_subsingleton
        fun x hx => List.mem_singleton.1 ((h x).2 hx)).elim
  | branch left_ne right_ne left_bit right_bit agree left right ihl ihr =>
    have ht := Proper.branch left_ne right_ne left_bit right_bit agree left right
    cases t' with
    | empty =>
      obtain ⟨e, he, _⟩ := ht.exists_apart
      cases (h e).1 he
    | leaf k v => exact (ht.not_subsingleton fun x hx => List.mem_singleton.1 ((h x).1 hx)).elim
    | branch depth' l' r' =>
      obtain rfl :=
        le_antisymm (ht'.depth_le ht fun e => (h e).2) (ht.depth_le ht' fun e => (h e).1)
      cases ht' with
      | branch left_ne' right_ne' left_bit' right_bit' agree' left' right' =>
        have ht' := Proper.branch left_ne' right_ne' left_bit' right_bit' agree' left' right'
        rw [ihl left' fun e => by rw [ht.mem_left, ht'.mem_left, h],
          ihr right' fun e => by rw [ht.mem_right, ht'.mem_right, h]]

/-! ### Descending by a key -/

section Descent

variable (bit) (digest : Node K V D → D) (k : K)

/-- Where the descent by a key ends: a leaf, or the empty tree. -/
def terminal : Trie K V → Trie K V
  | empty => empty
  | leaf k' v => leaf k' v
  | branch depth l r => if bit k depth then r.terminal else l.terminal

/-- The depths of the branches on a key's descent and the digests beside it, from the root down. -/
def route : Trie K V → List (ℕ × D)
  | empty => []
  | leaf _ _ => []
  | branch depth l r =>
    if bit k depth then (depth, l.hash digest) :: r.route else (depth, r.hash digest) :: l.route

/-- A route as a path to climb: at every branch the side the key takes. -/
def sides (route : List (ℕ × D)) : List (Bool × D) := route.map fun step => (bit k step.1, step.2)

end Descent

variable {digest : Node K V D → D} {k : K}

theorem terminal_eq (bit : K → ℕ → Bool) (k : K) (t : Trie K V) :
    t.terminal bit k = empty ∨ ∃ k' v, t.terminal bit k = leaf k' v := by
  induction t with
  | empty => exact Or.inl rfl
  | leaf k' v => exact Or.inr ⟨k', v, rfl⟩
  | branch depth l r ihl ihr =>
    rw [terminal]
    split_ifs
    · exact ihr
    · exact ihl

/-- A key's route climbed from its terminal reaches the root. -/
theorem climb_route (bit : K → ℕ → Bool) (digest : Node K V D → D) (k : K) (t : Trie K V) :
    climb (fun pair => digest (.branch pair)) (sides bit k (t.route bit digest k))
      ((t.terminal bit k).hash digest) = t.hash digest := by
  induction t with
  | empty | leaf k' v => rfl
  | branch depth l r ihl ihr =>
    rw [route, terminal]
    split_ifs with hbit
    · rw [sides, List.map_cons, ← sides, climb, ihr, hbit]
      rfl
    · rw [sides, List.map_cons, ← sides, climb, ihl, Bool.eq_false_iff.2 hbit]
      rfl

/-- What is hashed along a key's route is hashed in the tree. -/
theorem climbInputs_route (bit : K → ℕ → Bool) (digest : Node K V D → D) (k : K)
    (t : Trie K V) :
    climbInputs digest (sides bit k (t.route bit digest k)) ((t.terminal bit k).top digest) ⊆
      t.inputs digest := by
  induction t with
  | empty | leaf k' v => exact List.Subset.refl _
  | branch depth l r ihl ihr =>
    have hstep : ∀ (side : Bool) (sibling : D) (s : Trie K V),
        beside side (s.hash digest) sibling = (l.hash digest, r.hash digest) →
        climbInputs digest (sides bit k (s.route bit digest k)) ((s.terminal bit k).top digest) ⊆
          l.inputs digest ++ r.inputs digest →
        climbInputs digest ((side, sibling) :: sides bit k (s.route bit digest k))
          ((s.terminal bit k).top digest) ⊆ (Trie.branch depth l r).inputs digest := by
      intro side sibling s hpair hsub n hn
      rcases List.mem_cons.1 hn with rfl | hn
      · exact List.mem_cons_of_mem _ (hsub List.mem_cons_self)
      · rw [climbPairs] at hn
        rcases List.mem_cons.1 hn with rfl | hn
        · have hroute : climb (fun pair => digest (.branch pair))
              (sides bit k (s.route bit digest k)) (digest ((s.terminal bit k).top digest)) =
                s.hash digest :=
            (congrArg _ (hash_eq _).symm).trans (climb_route bit digest k s)
          rw [hroute, hpair]
          exact List.mem_cons_self
        · exact List.mem_cons_of_mem _ (hsub (List.mem_cons_of_mem _ hn))
    rw [route, terminal]
    split_ifs with hbit
    · rw [sides, List.map_cons, hbit]
      exact hstep true _ r rfl fun n hn => List.mem_append_right _ (ihr hn)
    · rw [sides, List.map_cons, Bool.eq_false_iff.2 hbit]
      exact hstep false _ l rfl fun n hn => List.mem_append_left _ (ihl hn)

/-- In a proper tree the descent by a key finds the key's leaf. -/
theorem Proper.terminal_eq_leaf_iff (ht : t.Proper bit) {v : V} :
    t.terminal bit k = Trie.leaf k v ↔ (k, v) ∈ t.entries := by
  induction ht with
  | empty => exact iff_of_false nofun (List.not_mem_nil)
  | leaf k' v' =>
    rw [terminal, entries, List.mem_singleton, Trie.leaf.injEq, Prod.mk.injEq, eq_comm,
      @eq_comm _ v]
  | branch left_ne right_ne left_bit right_bit agree left right ihl ihr =>
    have ht := Proper.branch left_ne right_ne left_bit right_bit agree left right
    rw [terminal]
    split_ifs with hbit
    · rw [ihr, ht.mem_right, and_iff_left hbit]
    · rw [ihl, ht.mem_left, and_iff_left (Bool.eq_false_iff.2 hbit)]

/-- Taking a key's own sides leads to its terminal. -/
theorem subtree_route (bit : K → ℕ → Bool) (digest : Node K V D → D) (k : K) (t : Trie K V) :
    t.subtree ((sides bit k (t.route bit digest k)).map Prod.fst) = some (t.terminal bit k) := by
  induction t with
  | empty | leaf k' v => rfl
  | branch depth l r ihl ihr =>
    rw [route, terminal]
    split_ifs with hbit
    · rw [sides, List.map_cons, hbit]
      exact ihr
    · rw [sides, List.map_cons, Bool.eq_false_iff.2 hbit]
      exact ihl

/-- A key whose bits are all the same takes that side everywhere, so no other leaf hangs on a path
of such sides. -/
theorem terminal_of_subtree {s : Trie K V} (hk : ∀ i, bit k i = side) {path : List Bool}
    (hpath : ∀ x ∈ path, x = side) (hsub : t.subtree path = some s) (hs : s.terminal bit k = s) :
    t.terminal bit k = s := by
  induction t generalizing path with
  | empty | leaf k' v =>
    cases path with
    | nil => exact Option.some.inj hsub ▸ rfl
    | cons x path => cases hsub
  | branch depth l r ihl ihr =>
    cases path with
    | nil =>
      obtain rfl := Option.some.inj hsub
      exact hs
    | cons x path =>
      obtain rfl := hpath x List.mem_cons_self
      have hrest : ∀ y ∈ path, y = x := fun y hy => hpath y (List.mem_cons_of_mem _ hy)
      rw [terminal, hk]
      cases x with
      | false => exact ihl hrest hsub
      | true => exact ihr hrest hsub

/-! ### The depths of a route -/

/-- The entries of a child agree one bit further than the branch. -/
theorem Proper.agree_left (h : (Trie.branch depth l r).Proper bit) :
    Agree bit (depth + 1) l.entries := by
  cases h with
  | branch _ _ left_bit _ agree _ _ =>
    exact (agree.mono (List.subset_append_left _ _)).succ left_bit

theorem Proper.agree_right (h : (Trie.branch depth l r).Proper bit) :
    Agree bit (depth + 1) r.entries := by
  cases h with
  | branch _ _ _ right_bit agree _ _ =>
    exact (agree.mono (List.subset_append_right _ _)).succ right_bit

theorem Proper.le_depth {depth' : ℕ} (h : (Trie.branch depth l r).Proper bit)
    (hagree : Agree bit depth' (Trie.branch depth l r).entries) :
    depth' ≤ depth := by
  by_contra hlt
  obtain ⟨e, he, e', he', hbit, hbit'⟩ := h.exists_apart
  rw [hagree e he e' he' depth (not_le.1 hlt), hbit'] at hbit
  cases hbit

/-- A route goes through branches below the bits that all entries agree on. -/
theorem Proper.le_of_mem_route (ht : t.Proper bit) (hagree : Agree bit depth t.entries)
    {step : ℕ × D} (hstep : step ∈ t.route bit digest k) :
    depth ≤ step.1 := by
  induction ht generalizing depth with
  | empty | leaf k' v => cases hstep
  | branch left_ne right_ne left_bit right_bit agree left right ihl ihr =>
    have ht := Proper.branch left_ne right_ne left_bit right_bit agree left right
    have hle := ht.le_depth hagree
    rw [route] at hstep
    split_ifs at hstep
    · rcases List.mem_cons.1 hstep with rfl | hstep
      · exact hle
      · exact hle.trans (Nat.le_of_succ_le (ihr ht.agree_right hstep))
    · rcases List.mem_cons.1 hstep with rfl | hstep
      · exact hle
      · exact hle.trans (Nat.le_of_succ_le (ihl ht.agree_left hstep))

/-- The branches on a route are at increasing depths. -/
theorem Proper.pairwise_route (ht : t.Proper bit) :
    (t.route bit digest k).Pairwise fun a b => a.1 < b.1 := by
  induction ht with
  | empty | leaf k' v => exact List.Pairwise.nil
  | branch left_ne right_ne left_bit right_bit agree left right ihl ihr =>
    have ht := Proper.branch left_ne right_ne left_bit right_bit agree left right
    rw [route]
    split_ifs
    · exact List.Pairwise.cons (fun step hstep => right.le_of_mem_route ht.agree_right hstep) ihr
    · exact List.Pairwise.cons (fun step hstep => left.le_of_mem_route ht.agree_left hstep) ihl

section Bounded

variable {n : ℕ} (hsep : ∀ k k' : K, (∀ i < n, bit k i = bit k' i) → k = k')

include hsep

/-- If the first `n` bits tell keys apart, a branch is at one of them. -/
theorem Proper.depth_lt (h : (Trie.branch depth l r).Proper bit) : depth < n := by
  by_contra hle
  obtain ⟨e, he, e', he', hbit, hbit'⟩ := h.exists_apart
  cases h with
  | branch _ _ _ _ agree _ _ =>
    have hkeys : e.1 = e'.1 :=
      hsep _ _ fun i hi => agree e he e' he' i (lt_of_lt_of_le hi (not_lt.1 hle))
    rw [hkeys, hbit'] at hbit
    cases hbit

theorem Proper.lt_of_mem_route (ht : t.Proper bit) {step : ℕ × D}
    (hstep : step ∈ t.route bit digest k) :
    step.1 < n := by
  induction ht with
  | empty | leaf k' v => cases hstep
  | branch left_ne right_ne left_bit right_bit agree left right ihl ihr =>
    have ht := Proper.branch left_ne right_ne left_bit right_bit agree left right
    rw [route] at hstep
    split_ifs at hstep
    · rcases List.mem_cons.1 hstep with rfl | hstep
      · exact ht.depth_lt hsep
      · exact ihr hstep
    · rcases List.mem_cons.1 hstep with rfl | hstep
      · exact ht.depth_lt hsep
      · exact ihl hstep

theorem Proper.length_route_le (ht : t.Proper bit) : (t.route bit digest k).length ≤ n := by
  have hnodup : ((t.route bit digest k).map Prod.fst).Nodup :=
    List.pairwise_map.2 (ht.pairwise_route.imp fun h => h.ne)
  have hsub : ((t.route bit digest k).map Prod.fst) ⊆ List.range n := by
    intro depth hdepth
    obtain ⟨step, hstep, rfl⟩ := List.mem_map.1 hdepth
    exact List.mem_range.2 (ht.lt_of_mem_route hsep hstep)
  have hle := (List.subperm_of_subset hnodup hsub).length_le
  rwa [List.length_map, List.length_range] at hle

end Bounded

/-! ### The tree of a list -/

section Build

variable (bit)

/-- The tree of a list of entries that agree on the bits before `depth`, with `n` bits left to tell
them apart. A level on which all entries take the same side has no node. -/
def build : ℕ → ℕ → List (K × V) → Option (Trie K V)
  | _, _, [] => some empty
  | _, _, [(k, v)] => some (leaf k v)
  | 0, _, _ :: _ :: _ => none
  | n + 1, depth, e :: e' :: es =>
    let left := onSide bit false (e :: e' :: es) depth
    let right := onSide bit true (e :: e' :: es) depth
    if left = [] then build n (depth + 1) right
    else if right = [] then build n (depth + 1) left
    else do
      let l ← build n (depth + 1) left
      let r ← build n (depth + 1) right
      some (branch depth l r)

end Build

theorem nodup_onSide (h : (es.map Prod.fst).Nodup) (side : Bool) (depth : ℕ) :
    ((onSide bit side es depth).map Prod.fst).Nodup :=
  h.sublist (List.filter_sublist.map _)

theorem Agree.onSide (h : Agree bit depth es) (side : Bool) :
    Agree bit (depth + 1) (onSide bit side es depth) :=
  (h.mono fun _ he => (mem_onSide bit).1 he |>.1).succ fun _ he => ((mem_onSide bit).1 he).2

/-- If one side of a level is not populated, all entries are on the other. -/
theorem mem_onSide_of_nil (h : onSide bit (!side) es depth = []) :
    e ∈ onSide bit side es depth ↔ e ∈ es := by
  rw [mem_onSide, and_iff_left_iff_imp]
  intro he
  by_contra hside
  have hother : e ∈ onSide bit (!side) es depth :=
    (mem_onSide bit).2 ⟨he, Bool.eq_not_iff.2 hside⟩
  rw [h] at hother
  cases hother

/-- Entries with different keys have a tree, and it is proper. -/
theorem exists_build {n : ℕ} (hsep : ∀ k k' : K, (∀ i < depth + n, bit k i = bit k' i) → k = k')
    (hnodup : (es.map Prod.fst).Nodup) (hagree : Agree bit depth es) :
    ∃ t, build bit n depth es = some t ∧ t.Proper bit ∧ ∀ e, e ∈ t.entries ↔ e ∈ es := by
  fun_induction build bit n depth es with
  | case1 => exact ⟨empty, rfl, Proper.empty, fun e => Iff.rfl⟩
  | case2 n depth k v => exact ⟨leaf k v, rfl, Proper.leaf k v, fun e => Iff.rfl⟩
  | case3 depth e e' es =>
    -- with no bit left the two keys agree on every bit
    refine absurd (hsep e.1 e'.1 fun i hi => ?_)
      (List.ne_of_not_mem_cons (List.nodup_cons.1 hnodup).1)
    exact hagree e List.mem_cons_self e' (List.mem_cons_of_mem _ List.mem_cons_self) i hi
  | case4 n depth e e' es left right hleft ih =>
    obtain ⟨t, hbuild, hproper, hmem⟩ := ih (by rwa [Nat.add_right_comm])
      (nodup_onSide hnodup true depth) (hagree.onSide true)
    exact ⟨t, hbuild, hproper, fun x => (hmem x).trans (mem_onSide_of_nil hleft)⟩
  | case5 n depth e e' es left right hleft hright ih =>
    obtain ⟨t, hbuild, hproper, hmem⟩ := ih (by rwa [Nat.add_right_comm])
      (nodup_onSide hnodup false depth) (hagree.onSide false)
    exact ⟨t, hbuild, hproper, fun x => (hmem x).trans (mem_onSide_of_nil hright)⟩
  | case6 n depth e e' es left right hleft hright ihl ihr =>
    obtain ⟨l, hbuildl, hl, hmeml⟩ := ihl (by rwa [Nat.add_right_comm])
      (nodup_onSide hnodup false depth) (hagree.onSide false)
    obtain ⟨r, hbuildr, hr, hmemr⟩ := ihr (by rwa [Nat.add_right_comm])
      (nodup_onSide hnodup true depth) (hagree.onSide true)
    have hmem : ∀ x, x ∈ l.entries ++ r.entries ↔ x ∈ e :: e' :: es := by
      intro x
      rw [List.mem_append, hmeml, hmemr, mem_onSide, mem_onSide, ← and_or_left,
        and_iff_left (Bool.eq_false_or_eq_true _).symm]
    refine ⟨branch depth l r, by rw [hbuildl, hbuildr]; rfl, ?_, hmem⟩
    refine Proper.branch ?_ ?_ (fun x hx => ((mem_onSide bit).1 ((hmeml x).1 hx)).2)
      (fun x hx => ((mem_onSide bit).1 ((hmemr x).1 hx)).2)
      (hagree.mono fun x hx => (hmem x).1 hx) hl hr
    · rintro rfl
      exact hleft (List.eq_nil_iff_forall_not_mem.2 fun x hx => List.not_mem_nil ((hmeml x).2 hx))
    · rintro rfl
      exact hright (List.eq_nil_iff_forall_not_mem.2 fun x hx => List.not_mem_nil ((hmemr x).2 hx))

end Proper

end Trie

end Merkle
