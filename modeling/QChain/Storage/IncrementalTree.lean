import QChain.Merkle.Update
import QChain.Storage.CompressedTree

/-!
# The incremental compressed tree

`IncrementalCompressedTree` of `qchain-storage/src/compressed.rs`: the compressed tree kept node by
node, with the digest of every node cached and, at every branch, some key of a leaf below it. An
insertion compares its key with that of the branch to find where the two part. The root and the
proofs after a list of pending changes are computed without changing the tree.

A node stands for a tree of `Merkle.Trie`. Insertion and merging are compared with the same set of
entries, and the proper tree of a set is unique.
-/

namespace QChain

open List Merkle Option

namespace CompressedTree

/-- `first_diff_bit`. -/
def firstDiffBit (a b : Bytes32) : ℕ :=
  ((List.range keyBits).find? fun d => bitAt a d ≠ bitAt b d).getD keyBits

theorem bitAt_of_lt_firstDiffBit {a b : Bytes32} {i : ℕ} (h : i < firstDiffBit a b) :
    bitAt a i = bitAt b i := by
  rw [firstDiffBit] at h
  by_contra hne
  cases hfind : (List.range keyBits).find? fun d => bitAt a d ≠ bitAt b d with
  | none =>
    rw [hfind] at h
    exact absurd (decide_eq_true hne) (find?_eq_none.1 hfind i (mem_range.2 h))
  | some d =>
    rw [hfind] at h
    have hbefore := (find?_range_eq_some.1 hfind).2.2 i h
    rw [decide_eq_true hne] at hbefore
    cases hbefore

theorem bitAt_firstDiffBit {a b : Bytes32} (h : firstDiffBit a b < keyBits) :
    bitAt a (firstDiffBit a b) ≠ bitAt b (firstDiffBit a b) := by
  rw [firstDiffBit] at h ⊢
  cases hfind : (List.range keyBits).find? fun d => bitAt a d ≠ bitAt b d with
  | none =>
    rw [hfind] at h
    exact absurd h (lt_irrefl _)
  | some d => exact of_decide_eq_true (find?_range_eq_some.1 hfind).1

theorem firstDiffBit_lt {a b : Bytes32} (h : a ≠ b) : firstDiffBit a b < keyBits := by
  by_contra hle
  exact h (eq_of_bitAt fun i hi => bitAt_of_lt_firstDiffBit (hi.trans_le (not_lt.1 hle)))

/-- `CNode`. A branch at bit `depth` knows the key `rep` of some leaf below it. -/
inductive CNode
  | empty
  | leaf (key value hash : Bytes32)
  | internal (depth : ℕ) (rep : Bytes32) (left right : CNode) (hash : Bytes32)

/-- The earliest bit before `nd` at which a pending key parts from `rep`, or `nd`. -/
def minDiv (rep : Bytes32) (nd : ℕ) (pending : List Leaf) : ℕ :=
  pending.foldl (fun min leaf => if firstDiffBit leaf.1 rep < min then firstDiffBit leaf.1 rep
    else min) nd

/-- The pending leaves and the leaf already there, unless one of them has its key. -/
def withLeaf (pending : List Leaf) (key value : Bytes32) : List Leaf :=
  if pending.any fun leaf => leaf.1 = key then pending else pending ++ [(key, value)]

namespace CNode

/-- The tree a node stands for. -/
def trie : CNode → Trie Bytes32 Bytes32
  | empty => .empty
  | leaf key value _ => .leaf key value
  | internal depth _ left right _ => .branch depth left.trie right.trie

variable [Crypto]

/-- `CNode::hash`. -/
def hash : CNode → Bytes32
  | empty => emptyNode
  | leaf _ _ hash => hash
  | internal _ _ _ _ hash => hash

/-- `CNode::leaf`. -/
def newLeaf (key value : Bytes32) : CNode := leaf key value (leafNode key value)

/-- `CNode::branch`. -/
def branch (depth : ℕ) (rep : Bytes32) (left right : CNode) : CNode :=
  internal depth rep left right (internalNode left.hash right.hash)

/-- `CNode::rehash`. -/
def rehash : CNode → CNode
  | internal depth rep left right _ =>
    internal depth rep left right (internalNode left.hash right.hash)
  | node => node

/-- `CNode::insert`. -/
def insert (key value : Bytes32) : CNode → CNode
  | empty => newLeaf key value
  | leaf k v _ =>
    if k = key then newLeaf key value
    else
      let d := firstDiffBit k key
      if bitAt key d then branch d k (newLeaf k v) (newLeaf key value)
      else branch d k (newLeaf key value) (newLeaf k v)
  | internal depth rep left right _ =>
    let d := firstDiffBit key rep
    if d < depth then
      -- the key parts from the whole subtree above its branch
      let existing := (internal depth rep left right 0).rehash
      if bitAt key d then branch d rep existing (newLeaf key value)
      else branch d rep (newLeaf key value) existing
    else if bitAt key depth then branch depth rep left (right.insert key value)
    else branch depth rep (left.insert key value) right

/-- `CNode::prove`. -/
def prove (target : Bytes32) : CNode → Terminal × List ProofStep
  | empty => (.empty, [])
  | leaf key value _ => (if key = target then .leaf value else .otherLeaf key value, [])
  | internal depth _ left right _ =>
    let (same, otherHash) := if bitAt target depth then (right.prove target, left.hash)
      else (left.prove target, right.hash)
    (same.1, same.2 ++ [⟨UInt16.ofNat depth, otherHash⟩])

end CNode

section Merge

variable [Crypto]

/-- `merged_hash`. Every call for a branch goes at least one level down, and the first argument is
how many there can be: below the last level the source would index past the key. -/
def mergedHash : ℕ → CNode → List Leaf → ℕ → Option Bytes32
  | _, node, [], _ => some node.hash
  | _, .empty, pending, depth => computeRoot (keyBits - depth) pending
  | _, .leaf key value _, pending, depth =>
    computeRoot (keyBits - depth) (withLeaf pending key value)
  | 0, .internal .., _, _ => none
  | n + 1, .internal nd rep left right hash, pending, _ =>
    let d := minDiv rep nd pending
    if nd ≤ d then do
      let (pl, pr) := partition pending nd
      let lh ← mergedHash n left pl (nd + 1)
      let rh ← mergedHash n right pr (nd + 1)
      some (internalNode lh rh)
    else do
      -- a new branch above this one, which is on the side of its `rep`
      let (pl, pr) := partition pending d
      let (repPending, otherPending) := if bitAt rep d then (pr, pl) else (pl, pr)
      let repHash ← mergedHash n (.internal nd rep left right hash) repPending (d + 1)
      let otherHash ← computeRoot (keyBits - (d + 1)) otherPending
      let (lh, rh) := if bitAt rep d then (otherHash, repHash) else (repHash, otherHash)
      some (internalNode lh rh)

/-- `merged_prove`. -/
def mergedProve (target : Bytes32) :
    ℕ → CNode → List Leaf → ℕ → Option (Terminal × List ProofStep)
  | _, node, [], _ => some (node.prove target)
  | _, .empty, pending, depth => computeProof target (keyBits - depth) pending
  | _, .leaf key value _, pending, depth =>
    computeProof target (keyBits - depth) (withLeaf pending key value)
  | 0, .internal .., _, _ => none
  | n + 1, .internal nd rep left right hash, pending, _ =>
    let d := minDiv rep nd pending
    if nd ≤ d then do
      let (pl, pr) := partition pending nd
      if bitAt target nd then
        let otherHash ← mergedHash n left pl (nd + 1)
        let (terminal, steps) ← mergedProve target n right pr (nd + 1)
        some (terminal, steps ++ [⟨UInt16.ofNat nd, otherHash⟩])
      else
        let otherHash ← mergedHash n right pr (nd + 1)
        let (terminal, steps) ← mergedProve target n left pl (nd + 1)
        some (terminal, steps ++ [⟨UInt16.ofNat nd, otherHash⟩])
    else do
      let (pl, pr) := partition pending d
      let (repPending, otherPending) := if bitAt rep d then (pr, pl) else (pl, pr)
      if bitAt target d = bitAt rep d then
        let otherHash ← computeRoot (keyBits - (d + 1)) otherPending
        let (terminal, steps) ←
          mergedProve target n (.internal nd rep left right hash) repPending (d + 1)
        some (terminal, steps ++ [⟨UInt16.ofNat d, otherHash⟩])
      else
        let repHash ← mergedHash n (.internal nd rep left right hash) repPending (d + 1)
        let (terminal, steps) ← computeProof target (keyBits - (d + 1)) otherPending
        some (terminal, steps ++ [⟨UInt16.ofNat d, repHash⟩])

end Merge

end CompressedTree

open CompressedTree

/-- `IncrementalCompressedTree`. -/
structure IncrementalCompressedTree where
  node : CNode

namespace IncrementalCompressedTree

/-- `IncrementalCompressedTree::new`. -/
def new : IncrementalCompressedTree := ⟨.empty⟩

variable [Crypto] (tree : IncrementalCompressedTree)

/-- `note_set`. -/
def noteSet (set : Pubkey × Account) : Option IncrementalCompressedTree :=
  (hashLeaf set.2).map fun value => ⟨tree.node.insert set.1 value⟩

/-- `root`. -/
def root : Bytes32 := tree.node.hash

/-- `prove`. -/
def prove (key : Pubkey) : CompressedProof :=
  let (terminal, steps) := tree.node.prove key
  ⟨key, terminal, steps⟩

/-- The leaves of a list of changes. -/
def changedLeaves (changes : List (Pubkey × Account)) : Option (List Leaf) :=
  changes.mapM fun change => (hashLeaf change.2).map fun value => (change.1, value)

/-- `root_with_pending`. -/
def rootWithPending (changes : List (Pubkey × Account)) : Option Bytes32 := do
  let leaves ← changedLeaves changes
  mergedHash keyBits tree.node leaves 0

/-- `prove_with_pending`. -/
def proveWithPending (key : Pubkey) (changes : List (Pubkey × Account)) :
    Option CompressedProof := do
  let leaves ← changedLeaves changes
  let (terminal, steps) ← mergedProve key keyBits tree.node leaves 0
  some ⟨key, terminal, steps⟩

end IncrementalCompressedTree

open Trie

/-! ### Nodes and the trees they stand for -/

namespace CompressedTree

export Trie (overlay)

/-- What the descent of a key in a tree reports. -/
def report [Crypto] (target : Bytes32) (t : Trie Bytes32 Bytes32) : Terminal × List ProofStep :=
  (Terminal.ofTrie target (t.terminal bitAt target),
    ProofStep.ofRoute (t.route bitAt nodeDigest target))

theorem report_fork [Crypto] (target : Bytes32) (depth : ℕ) (side : Bool)
    (here other : Trie Bytes32 Bytes32) :
    report target (.fork depth side here other) =
      if bitAt target depth = side then
        ((report target here).1,
          (report target here).2 ++ [⟨UInt16.ofNat depth, other.hash nodeDigest⟩])
      else ((report target other).1,
        (report target other).2 ++ [⟨UInt16.ofNat depth, here.hash nodeDigest⟩]) := by
  rw [report, terminal_fork, route_fork]
  split_ifs
  · simp [report, ProofStep.ofRoute]
  · simp [report, ProofStep.ofRoute]

namespace CNode

variable [Crypto] {S : Set Leaf} {node : CNode}

/-- The cached digests are right, and the key at a branch is that of a leaf below it. -/
def Sound : CNode → Prop
  | empty => True
  | leaf key value hash => hash = leafNode key value
  | internal depth rep left right hash =>
    hash = internalNode left.hash right.hash ∧ left.Sound ∧ right.Sound ∧
      ∃ value, (rep, value) ∈ (Trie.branch depth left.trie right.trie).entries

theorem Sound.hash_eq (h : node.Sound) : node.hash = node.trie.hash nodeDigest := by
  induction node with
  | empty => rfl
  | leaf key value hash => exact h
  | internal depth rep left right hash ihl ihr =>
    obtain ⟨hhash, hleft, hright, -⟩ := h
    rw [hhash, ihl hleft, ihr hright]
    rfl

theorem Sound.prove_eq (h : node.Sound) (target : Bytes32) :
    node.prove target = report target node.trie := by
  induction node with
  | empty | leaf key value hash => rfl
  | internal depth rep left right hash ihl ihr =>
    obtain ⟨-, hleft, hright, -⟩ := h
    refine Eq.trans ?_ (report_fork target depth true right.trie left.trie).symm
    rw [prove]
    split_ifs
    · rw [ihr hright, hleft.hash_eq]
    · rw [ihl hleft, hright.hash_eq]

omit [Crypto] in
theorem eq_empty_of_holds (h : Holds bitAt CNode.empty.trie S) : S = ∅ :=
  Set.eq_empty_of_forall_notMem fun e he => by cases (h.mem_iff e).2 he

omit [Crypto] in
theorem eq_singleton_of_holds {key value hash : Bytes32}
    (h : Holds bitAt (CNode.leaf key value hash).trie S) : S = {(key, value)} :=
  Set.ext fun e => (h.mem_iff e).symm.trans mem_singleton

/-- A branch that holds a set keeps the invariant, if its key is one of the set. -/
theorem branch_holds {depth : ℕ} {rep key : Bytes32} {here other : CNode} (hhere : here.Sound)
    (hother : other.Sound)
    (h : (fork depth (bitAt key depth) here.trie other.trie).Holds bitAt S)
    (hrep : ∃ value, (rep, value) ∈ S) :
    (if bitAt key depth then branch depth rep other here
      else branch depth rep here other).Sound ∧
    (if bitAt key depth then branch depth rep other here
      else branch depth rep here other).trie.Holds bitAt S := by
  obtain ⟨value, hvalue⟩ := hrep
  rw [← h.mem_iff] at hvalue
  cases hbit : bitAt key depth with
  | false =>
    rw [hbit] at h hvalue
    exact ⟨⟨rfl, hhere, hother, value, hvalue⟩, h⟩
  | true =>
    rw [hbit] at h hvalue
    exact ⟨⟨rfl, hother, hhere, value, hvalue⟩, h⟩

/-! ### Insertion -/

theorem sound_newLeaf (key value : Bytes32) : (newLeaf key value).Sound := rfl

/-- A key beside a subtree whose keys all part from it at the same bit. -/
theorem holds_beside {depth : ℕ} {key value rep repValue : Bytes32} (hrep : (rep, repValue) ∈ S)
    (hnode : node.trie.Holds bitAt S) (hagree : ∀ e ∈ S, ∀ i ≤ depth, bitAt e.1 i = bitAt rep i)
    (hbefore : ∀ i < depth, bitAt key i = bitAt rep i) (hat : bitAt key depth ≠ bitAt rep depth) :
    (fork depth (bitAt key depth) (newLeaf key value).trie node.trie).Holds bitAt
      (overlay [(key, value)] S) := by
  have hside : ∀ e ∈ S, bitAt e.1 depth = !bitAt key depth := by
    intro e he
    rw [hagree e he depth le_rfl, Bool.eq_not]
    exact hat.symm
  have hother : half bitAt S depth (bitAt key depth) = ∅ := by
    have hempty := half_not_eq_empty hside
    rwa [Bool.not_not] at hempty
  have hhere : half bitAt (overlay [(key, value)] S) depth (bitAt key depth) =
      {(key, value)} := by
    rw [half_overlay_self, hother, overlay_empty]
    exact Set.ext fun e => mem_singleton
  have hthere : half bitAt (overlay [(key, value)] S) depth (!bitAt key depth) = S := by
    rw [half_overlay_not, half_eq_self hside]
  apply holds_fork
  · refine agreeOn_of_forall (k := rep) fun e he i hi => ?_
    rcases he with he | ⟨he, -⟩
    · rw [mem_singleton.1 he]
      exact hbefore i hi
    · exact hagree e he i hi.le
  · rw [hhere]
    exact holds_leaf key value
  · rwa [hthere]
  · intro side
    rcases Bool.eq_or_eq_not side (bitAt key depth) with rfl | rfl
    · rw [hhere]
      exact Set.singleton_nonempty _
    · rw [hthere]
      exact ⟨_, hrep⟩

omit [Crypto] in
/-- The entries below a branch whose child on the side of a key takes in an entry. -/
theorem holds_descend {depth : ℕ} {key value rep repValue : Bytes32}
    {l r here : Trie Bytes32 Bytes32} (h : (Trie.branch depth l r).Holds bitAt S)
    (hrep : (rep, repValue) ∈ S)
    (hbefore : ∀ i < depth, bitAt key i = bitAt rep i)
    (hhere : here.Holds bitAt
      (overlay [(key, value)] (half bitAt S depth (bitAt key depth)))) :
    (fork depth (bitAt key depth) here (if bitAt key depth then l else r)).Holds bitAt
      (overlay [(key, value)] S) := by
  apply holds_fork
  · refine agreeOn_of_forall (k := rep) fun e he i hi => ?_
    rcases he with he | ⟨he, -⟩
    · rw [mem_singleton.1 he]
      exact hbefore i hi
    · exact h.agree hrep he hi
  · rwa [half_overlay_self]
  · rw [half_overlay_not]
    cases bitAt key depth with
    | false => exact h.child.2
    | true => exact h.child.1
  · exact h.nonempty_half_overlay _

/-- An insertion lays its entry over those of the node. -/
theorem insert_holds {key value : Bytes32} (hsound : node.Sound)
    (hnode : node.trie.Holds bitAt S) :
    (node.insert key value).Sound ∧
      (node.insert key value).trie.Holds bitAt (overlay [(key, value)] S) := by
  induction node generalizing S with
  | empty =>
    obtain rfl := eq_empty_of_holds hnode
    rw [overlay_empty]
    exact ⟨rfl, .leaf key value, fun e => Iff.rfl⟩
  | leaf k v hash =>
    obtain rfl := eq_singleton_of_holds hnode
    by_cases hk : k = key
    · rw [insert, if_pos hk, hk]
      refine ⟨rfl, .leaf key value, fun e => mem_singleton.trans ⟨fun he => ?_, ?_⟩⟩
      · exact Or.inl (mem_singleton.2 he)
      · rintro (he | ⟨rfl, hne⟩)
        · exact mem_singleton.1 he
        · exact absurd mem_cons_self (hne value)
    · rw [insert, if_neg hk]
      refine branch_holds (sound_newLeaf key value) (sound_newLeaf k v)
        (holds_beside rfl (holds_leaf k v) ?_ ?_ ?_) (exists_mem_overlay _ rfl)
      · rintro e rfl i -
        rfl
      · exact fun i hi => (bitAt_of_lt_firstDiffBit hi).symm
      · exact (bitAt_firstDiffBit (firstDiffBit_lt hk)).symm
  | internal depth rep left right hash ihl ihr =>
    obtain ⟨-, hleft, hright, repValue, hentry⟩ := hsound
    have hrep := (hnode.mem_iff _).1 hentry
    by_cases hd : firstDiffBit key rep < depth
    · rw [insert, if_pos hd]
      have hexisting : (internal depth rep left right 0).rehash.Sound :=
        ⟨rfl, hleft, hright, repValue, hentry⟩
      refine branch_holds (sound_newLeaf key value) hexisting
        (holds_beside hrep hnode ?_ ?_ ?_) (exists_mem_overlay _ hrep)
      · exact fun e he i hi => hnode.agree hrep he (hi.trans_lt hd)
      · exact fun i hi => bitAt_of_lt_firstDiffBit hi
      · have hlt := hnode.proper.depth_lt (n := keyBits) fun _ _ => eq_of_bitAt
        exact bitAt_firstDiffBit (hd.trans hlt)
    · rw [insert, if_neg hd]
      have hbefore : ∀ i < depth, bitAt key i = bitAt rep i :=
        fun i hi => bitAt_of_lt_firstDiffBit (hi.trans_le (not_lt.1 hd))
      obtain ⟨value', hvalue'⟩ := exists_mem_overlay [(key, value)] hrep
      cases hbit : bitAt key depth with
      | false =>
        obtain ⟨hinserted, hhere⟩ := ihl hleft hnode.child.1
        have hholds := holds_descend hnode hrep hbefore (by rwa [hbit])
        rw [hbit] at hholds
        exact ⟨⟨rfl, hinserted, hright, value', (hholds.mem_iff _).2 hvalue'⟩, hholds⟩
      | true =>
        obtain ⟨hinserted, hhere⟩ := ihr hright hnode.child.2
        have hholds := holds_descend hnode hrep hbefore (by rwa [hbit])
        rw [hbit] at hholds
        exact ⟨⟨rfl, hleft, hinserted, value', (hholds.mem_iff _).2 hvalue'⟩, hholds⟩

end CNode

/-! ### Merging -/

theorem minDiv_spec (rep : Bytes32) (nd : ℕ) (pending : List Leaf) :
    (minDiv rep nd pending = nd ∨
      ∃ leaf ∈ pending, firstDiffBit leaf.1 rep = minDiv rep nd pending) ∧
    minDiv rep nd pending ≤ nd ∧
    ∀ leaf ∈ pending, minDiv rep nd pending ≤ firstDiffBit leaf.1 rep := by
  induction pending generalizing nd with
  | nil => exact ⟨Or.inl rfl, le_rfl, nofun⟩
  | cons leaf pending ih =>
    rw [minDiv, foldl_cons]
    obtain ⟨hattained, hle, hall⟩ :=
      ih (if firstDiffBit leaf.1 rep < nd then firstDiffBit leaf.1 rep else nd)
    refine ⟨?_, ?_, forall_mem_cons.2 ⟨?_, hall⟩⟩
    · rcases hattained with heq | ⟨leaf', hleaf', heq⟩
      · split_ifs at heq ⊢
        · exact Or.inr ⟨leaf, mem_cons_self, heq.symm⟩
        · exact Or.inl heq
      · exact Or.inr ⟨leaf', mem_cons_of_mem _ hleaf', heq⟩
    · split_ifs at hle ⊢ with hlt
      · exact hle.trans hlt.le
      · exact hle
    · split_ifs at hle ⊢ with hlt
      · exact hle
      · exact hle.trans (not_lt.1 hlt)

theorem mem_withLeaf {pending : List Leaf} {key value : Bytes32} :
    {e | e ∈ withLeaf pending key value} = overlay pending {(key, value)} := by
  ext e
  have hany : (pending.any fun leaf => leaf.1 = key) = true ↔ ∃ v, (key, v) ∈ pending := by
    simp
  simp only [withLeaf, Set.mem_ofPred_eq]
  split_ifs with hkey
  · refine ⟨Or.inl, ?_⟩
    rintro (he | ⟨rfl, hne⟩)
    · exact he
    · obtain ⟨v, hv⟩ := hany.1 hkey
      exact absurd hv (hne v)
  · rw [mem_append, mem_singleton]
    refine or_congr_right ⟨?_, And.left⟩
    rintro rfl
    exact ⟨rfl, fun v hv => hkey (hany.2 ⟨v, hv⟩)⟩

theorem nodup_withLeaf {pending : List Leaf} (h : (pending.map Prod.fst).Nodup)
    (key value : Bytes32) : ((withLeaf pending key value).map Prod.fst).Nodup := by
  rw [withLeaf]
  split_ifs with hkey
  · exact h
  · rw [map_append, nodup_append]
    simp only [List.any_eq_true, decide_eq_true_eq, not_exists, not_and] at hkey
    simp only [map_cons, map_nil, mem_singleton, List.mem_map]
    refine ⟨h, nodup_singleton _, ?_⟩
    rintro _ ⟨leaf, hleaf, rfl⟩ _ rfl
    exact hkey leaf hleaf

section Merge

variable [Crypto] {S : Set Leaf} {pending : List Leaf} {depth : ℕ}

/-- The tree of a list of leaves, from a depth on. -/
theorem exists_computed {es : List Leaf} (hdepth : depth ≤ keyBits)
    (hnodup : (es.map Prod.fst).Nodup) (hagree : AgreeOn bitAt depth {e | e ∈ es}) :
    ∃ t : Trie Bytes32 Bytes32, t.Holds bitAt {e | e ∈ es} ∧
      computeRoot (keyBits - depth) es = some (t.hash nodeDigest) ∧
      ∀ target, computeProof target (keyBits - depth) es = some (report target t) := by
  have hlevels : keyBits - (keyBits - depth) = depth := Nat.sub_sub_self hdepth
  obtain ⟨t, hbuild, hproper, hmem⟩ :
      ∃ t, Trie.build bitAt (keyBits - depth) depth es = some t ∧ t.Proper bitAt ∧
        ∀ e, e ∈ t.entries ↔ e ∈ es :=
    Trie.exists_build
      (fun k k' h => eq_of_bitAt fun i hi => h i (by rwa [Nat.add_sub_cancel' hdepth])) hnodup
      hagree
  refine ⟨t, ⟨hproper, hmem⟩, ?_, fun target => ?_⟩
  · rw [computeRoot_eq (Nat.sub_le _ _), hlevels, hbuild, map_some]
  · rw [computeProof_eq target (Nat.sub_le _ _), hlevels, hbuild]
    rfl

/-- The merge of the pending leaves with a node hashes and proves like the tree of `S`. -/
def Merges (n : ℕ) (node : CNode) (pending : List Leaf) (depth : ℕ) (S : Set Leaf) : Prop :=
  ∃ t : Trie Bytes32 Bytes32, t.Holds bitAt S ∧
    mergedHash n node pending depth = some (t.hash nodeDigest) ∧
    ∀ target, mergedProve target n node pending depth = some (report target t)

section Branch

variable {n nd : ℕ} {rep : Bytes32} {left right : CNode} {hash : Bytes32}

/-- No pending key parts from `rep` before the branch: both sides are merged below it. -/
theorem merges_inside (hpending : pending ≠ []) (hd : nd ≤ minDiv rep nd pending)
    (hagree : AgreeOn bitAt nd S) (hne : ∀ side, (half bitAt S nd side).Nonempty)
    (hleft : Merges n left (onSide bitAt false pending nd) (nd + 1) (half bitAt S nd false))
    (hright : Merges n right (onSide bitAt true pending nd) (nd + 1) (half bitAt S nd true)) :
    Merges (n + 1) (.internal nd rep left right hash) pending depth S := by
  obtain ⟨t, ht, hthash, htprove⟩ := hleft
  obtain ⟨u, hu, huhash, huprove⟩ := hright
  refine ⟨.fork nd true u t, holds_fork hagree hu ht hne, ?_, fun target => ?_⟩
  · simp only [mergedHash, partition, if_pos hd, hthash, huhash]
    rfl
  · simp only [mergedProve, partition, if_pos hd]
    rw [report_fork]
    split_ifs
    · rw [hthash, huprove]
      rfl
    · rw [huhash, htprove]
      rfl

/-- Some pending key parts from `rep` at a bit `d` before the branch: a branch at `d` has the
node on the side of `rep`, and the other side is built from the pending leaves there. -/
theorem merges_above {d : ℕ} (hpending : pending ≠ []) (hmin : minDiv rep nd pending = d)
    (hd : ¬ nd ≤ d) (hkey : d + 1 ≤ keyBits) (hnodup : (pending.map Prod.fst).Nodup)
    (hagree : AgreeOn bitAt d S) (hne : ∀ side, (half bitAt S d side).Nonempty)
    (hrep : Merges n (.internal nd rep left right hash) (onSide bitAt (bitAt rep d) pending d)
      (d + 1) (half bitAt S d (bitAt rep d)))
    (hother : half bitAt S d (!bitAt rep d) = {e | e ∈ onSide bitAt (!bitAt rep d) pending d}) :
    Merges (n + 1) (.internal nd rep left right hash) pending depth S := by
  obtain ⟨t, ht, hthash, htprove⟩ := hrep
  obtain ⟨u, hu, huhash, huprove⟩ :=
    exists_computed hkey (nodup_onSide hnodup (!bitAt rep d) d) (hother ▸ hagree.half)
  rw [← hother] at hu
  have hsides : (if bitAt rep d then (onSide bitAt true pending d, onSide bitAt false pending d)
      else (onSide bitAt false pending d, onSide bitAt true pending d)) =
      (onSide bitAt (bitAt rep d) pending d, onSide bitAt (!bitAt rep d) pending d) := by
    cases bitAt rep d <;> rfl
  refine ⟨.fork d (bitAt rep d) t u, holds_fork hagree ht hu hne, ?_, fun target => ?_⟩
  · simp only [mergedHash, partition, hmin, if_neg hd, hsides,
      hthash, huhash]
    cases bitAt rep d <;> rfl
  · simp only [mergedProve, partition, hmin, hsides]
    rw [report_fork]
    split_ifs
    · simp only [huhash, htprove, bind_eq_bind, bind_some]
    · simp only [hthash, huprove, bind_eq_bind, bind_some]

end Branch

/-- Merging pending leaves into a node gives the tree with the leaves laid over its entries. -/
theorem merges_overlay {S : Set Leaf} {pending : List Leaf} {depth : ℕ} (n : ℕ) {node : CNode}
    (hsound : node.Sound) (hnode : node.trie.Holds bitAt S) (hnodup : (pending.map Prod.fst).Nodup)
    (hdepth : depth ≤ keyBits) (hn : keyBits ≤ depth + n)
    (hagree : AgreeOn bitAt depth (overlay pending S)) :
    Merges n node pending depth (overlay pending S) := by
  by_cases hpending : pending = []
  · subst hpending
    rw [overlay_nil]
    refine ⟨node.trie, hnode, ?_, fun target => ?_⟩
    · rw [mergedHash, hsound.hash_eq]
    · rw [mergedProve, hsound.prove_eq]
  cases node with
  | empty =>
    obtain rfl := CNode.eq_empty_of_holds hnode
    rw [overlay_empty] at hagree ⊢
    simp only [Merges, mergedHash, mergedProve]
    exact exists_computed hdepth hnodup hagree
  | leaf key value hash =>
    obtain rfl := CNode.eq_singleton_of_holds hnode
    rw [← mem_withLeaf] at hagree ⊢
    simp only [Merges, mergedHash, mergedProve]
    exact exists_computed hdepth (nodup_withLeaf hnodup key value) hagree
  | internal nd rep left right hash =>
    obtain ⟨-, hleft, hright, repValue, hentry⟩ := id hsound
    have hrep := (hnode.mem_iff _).1 hentry
    have hnd : nd < keyBits := hnode.proper.depth_lt fun _ _ => eq_of_bitAt
    have hle : depth ≤ nd := hnode.le_depth hagree
    -- a branch is above the last level, so there is a level left to go down
    obtain ⟨n, rfl⟩ : ∃ m, n = m + 1 := ⟨n - 1, by omega⟩
    obtain ⟨hattained, hmin, hall⟩ := minDiv_spec rep nd pending
    generalize hdiv : minDiv rep nd pending = d at hattained hmin hall
    -- no key parts from `rep` before `d`
    have hagreeAt : AgreeOn bitAt d (overlay pending S) := by
      refine agreeOn_of_forall (k := rep) fun e he i hi => ?_
      rcases he with he | ⟨he, -⟩
      · exact bitAt_of_lt_firstDiffBit (hi.trans_le (hall e he))
      · exact hnode.agree hrep he (hi.trans_le hmin)
    have hhalf : ∀ side, AgreeOn bitAt (d + 1)
        (half bitAt (overlay pending S) d side) := fun _ => hagreeAt.half
    by_cases hd : nd ≤ d
    · obtain rfl := le_antisymm hd hmin
      refine merges_inside hpending hdiv.ge hagreeAt (hnode.nonempty_half_overlay pending) ?_ ?_
      · rw [half_overlay]
        exact merges_overlay n hleft hnode.child.1 (nodup_onSide hnodup false nd) hnd
          (by omega) (half_overlay ▸ hhalf false)
      · rw [half_overlay]
        exact merges_overlay n hright hnode.child.2 (nodup_onSide hnodup true nd) hnd
          (by omega) (half_overlay ▸ hhalf true)
    · obtain ⟨leaf, hleaf, hdiff⟩ := hattained.resolve_left fun h => hd h.ge
      have hbit : bitAt leaf.1 d ≠ bitAt rep d := by
        rw [← hdiff]
        exact bitAt_firstDiffBit (by omega)
      obtain ⟨repValue', hrep'⟩ := exists_mem_overlay pending hrep
      have hdepthLe : depth ≤ d := by
        by_contra hlt
        exact hbit (hagree leaf (Or.inl hleaf) _ hrep' d (not_le.1 hlt))
      have hstay : ∀ e ∈ S, bitAt e.1 d = bitAt rep d := fun e he =>
        hnode.agree hrep he (not_le.1 hd)
      refine merges_above hpending hdiv hd (by omega) hnodup hagreeAt (fun side => ?_) ?_ ?_
      · by_cases hside : bitAt rep d = side
        · exact ⟨_, hrep', hside⟩
        · exact ⟨leaf, Or.inl hleaf,
            (Bool.eq_not.2 hbit).trans (Bool.eq_not.2 (Ne.symm hside)).symm⟩
      · have heq : half bitAt (overlay pending S) d (bitAt rep d) =
            overlay (onSide bitAt (bitAt rep d) pending d) S := by
          rw [half_overlay, half_eq_self hstay]
        rw [heq]
        exact merges_overlay n hsound hnode (nodup_onSide hnodup _ d) (by omega) (by omega)
          (heq ▸ hhalf (bitAt rep d))
      · rw [half_overlay, half_not_eq_empty hstay, overlay_empty]
termination_by n

end Merge

end CompressedTree

/-! ### The tree against the reference -/

namespace IncrementalCompressedTree

variable [Crypto] {tree tree' : IncrementalCompressedTree} {S : Set Leaf}
  {sets changes : List (Pubkey × Account)} {leaves : List Leaf}

/-- A tree is exact for a set of leaves when its node stands for their tree. -/
structure Exact (tree : IncrementalCompressedTree) (S : Set Leaf) : Prop where
  sound : tree.node.Sound
  holds : tree.node.trie.Holds bitAt S

theorem exact_new : new.Exact ∅ :=
  ⟨trivial, .empty, fun _ => iff_of_false not_mem_nil (Set.notMem_empty _)⟩

/-- A tree that hashes and proves like the tree of its leaves. -/
theorem Exact.eq_report (h : tree.Exact S) {t : Trie Bytes32 Bytes32} (ht : t.Holds bitAt S) :
    t.hash nodeDigest = tree.root ∧ ∀ key, report key t = tree.node.prove key := by
  rw [ht.unique h.holds]
  exact ⟨h.sound.hash_eq.symm, fun key => (h.sound.prove_eq key).symm⟩

theorem Exact.noteSet {set : Pubkey × Account} (h : tree.Exact S)
    (hset : tree.noteSet set = some tree') :
    ∃ value, hashLeaf set.2 = some value ∧ tree'.Exact (Trie.overlay [(set.1, value)] S) := by
  obtain ⟨value, hvalue, rfl⟩ := map_eq_some_iff.1 hset
  obtain ⟨hsound, hholds⟩ := CNode.insert_holds h.sound h.holds
  exact ⟨value, hvalue, hsound, hholds⟩

/-- The accounts that a sequence of sets leaves. -/
def written (sets : List (Pubkey × Account)) (m : Map Pubkey Account) : Map Pubkey Account :=
  sets.foldl (fun m set => m.insert set.1 set.2) m

/-- The leaves of a map of accounts. -/
def leafSet (m : Map Pubkey Account) : Set Leaf :=
  {e | ∃ account, m.lookup e.1 = some account ∧ hashLeaf account = some e.2}

theorem leafSet_insert {m : Map Pubkey Account} {key : Pubkey} {account : Account} {value : Bytes32}
    (h : hashLeaf account = some value) :
    leafSet (m.insert key account) = Trie.overlay [(key, value)] (leafSet m) := by
  ext ⟨k, v⟩
  simp only [leafSet, Trie.overlay, Set.mem_ofPred_eq, Map.lookup_insert_eq, mem_singleton]
  by_cases hk : k = key
  · subst hk
    grind
  · grind

/-- Sets keep the tree that of the map they write. -/
theorem Exact.foldlM {m : Map Pubkey Account} (h : tree.Exact (leafSet m))
    (hhash : ∀ key account, m.lookup key = some account → (hashLeaf account).isSome)
    (hsets : sets.foldlM IncrementalCompressedTree.noteSet tree = some tree') :
    tree'.Exact (leafSet (written sets m)) ∧
      ∀ key account, (written sets m).lookup key = some account → (hashLeaf account).isSome := by
  induction sets generalizing tree m with
  | nil =>
    cases hsets
    exact ⟨h, hhash⟩
  | cons set sets ih =>
    obtain ⟨next, hset, hrest⟩ := bind_eq_some_iff.1 hsets
    obtain ⟨value, hvalue, hnext⟩ := h.noteSet hset
    rw [← leafSet_insert hvalue] at hnext
    refine ih hnext (fun key account hlookup => ?_) hrest
    rw [Map.lookup_insert_eq] at hlookup
    split_ifs at hlookup
    · cases hlookup
      rw [hvalue]
      rfl
    · exact hhash key account hlookup

theorem changedLeaves_cons {change : Pubkey × Account} {value : Bytes32}
    (hvalue : hashLeaf change.2 = some value) (hleaves : changedLeaves changes = some leaves) :
    changedLeaves (change :: changes) = some ((change.1, value) :: leaves) := by
  rw [changedLeaves] at hleaves
  simp [changedLeaves, hvalue, hleaves]

/-- Distinct changes lay their leaves over those of the tree. -/
theorem Exact.foldlM_distinct (h : tree.Exact S) (hkeys : (changes.map Prod.fst).Nodup)
    (hrun : changes.foldlM IncrementalCompressedTree.noteSet tree = some tree') :
    ∃ leaves, changedLeaves changes = some leaves ∧ leaves.map Prod.fst = changes.map Prod.fst ∧
      tree'.Exact (Trie.overlay leaves S) := by
  induction changes generalizing tree S with
  | nil =>
    cases hrun
    exact ⟨[], rfl, rfl, by rwa [overlay_nil]⟩
  | cons change changes ih =>
    obtain ⟨next, hset, hrest⟩ := bind_eq_some_iff.1 hrun
    obtain ⟨value, hvalue, hnext⟩ := h.noteSet hset
    rw [map_cons, nodup_cons] at hkeys
    obtain ⟨leaves, hleaves, hfst, htree'⟩ := ih hnext hkeys.2 hrest
    refine ⟨_, changedLeaves_cons hvalue hleaves, ?_, ?_⟩
    · rw [map_cons, map_cons, hfst]
    · rw [overlay_cons]
      · exact htree'
      · intro v hv
        exact hkeys.1 (hfst ▸ List.mem_map_of_mem hv)

/-- Accounts that can be hashed have leaves, with their keys. -/
theorem exists_changedLeaves (h : ∀ change ∈ changes, (hashLeaf change.2).isSome) :
    ∃ leaves, changedLeaves changes = some leaves ∧
      leaves.map Prod.fst = changes.map Prod.fst := by
  induction changes with
  | nil => exact ⟨[], rfl, rfl⟩
  | cons change changes ih =>
    obtain ⟨value, hvalue⟩ := isSome_iff_exists.1 (h change mem_cons_self)
    obtain ⟨leaves, hleaves, hfst⟩ := ih fun c hc => h c (mem_cons_of_mem _ hc)
    exact ⟨_, changedLeaves_cons hvalue hleaves, by rw [map_cons, map_cons, hfst]⟩

/-- The tree after a sequence of sets is that of the map written. -/
theorem exact_of_sets (hsets : sets.foldlM noteSet new = some tree) :
    tree.Exact (leafSet (written sets ∅)) ∧
      ∀ key account, (written sets ∅).lookup key = some account → (hashLeaf account).isSome := by
  have hnew : new.Exact (leafSet ∅) := by
    convert exact_new
    simp [leafSet]
  exact hnew.foldlM (fun _ _ h => by simp at h) hsets

/-- The tree after any sequence of sets has the root and the proofs that the reference computes from
the accounts written, listed in any order, and those of any other sequence that writes them. -/
theorem noteSet_refines {accounts : List (Pubkey × Account)}
    (hsets : sets.foldlM noteSet new = some tree) (hkeys : (accounts.map Prod.fst).Nodup)
    (haccounts : ∀ key account,
      (key, account) ∈ accounts ↔ (written sets ∅).lookup key = some account) :
    (∃ leaves, changedLeaves accounts = some leaves ∧
      CompressedTree.root leaves = some tree.root ∧
      ∀ key, CompressedTree.prove leaves key = some (tree.prove key)) ∧
    ∀ sets' tree', sets'.foldlM noteSet new = some tree' →
      (∀ key, (written sets' ∅).lookup key = (written sets ∅).lookup key) →
      tree'.root = tree.root ∧ ∀ key, tree'.prove key = tree.prove key := by
  obtain ⟨hexact, hhash⟩ := exact_of_sets hsets
  refine ⟨?_, fun sets' tree' hsets' hsame => ?_⟩
  · obtain ⟨leaves, hleaves, hfst⟩ := exists_changedLeaves fun change hchange =>
      hhash change.1 change.2 ((haccounts _ _).1 hchange)
    have hset : {e | e ∈ leaves} = leafSet (written sets ∅) := by
      ext ⟨k, v⟩
      rw [Set.mem_ofPred_eq, mem_of_mapM hleaves]
      simp only [leafSet, ← haccounts, map_eq_some_iff, Prod.mk.injEq]
      constructor
      · rintro ⟨change, hchange, _, hvalue, rfl, rfl⟩
        exact ⟨change.2, hchange, hvalue⟩
      · rintro ⟨account, hmem, hvalue⟩
        exact ⟨(k, account), hmem, v, hvalue, rfl, rfl⟩
    obtain ⟨t, ht, hroot, hprove⟩ := exists_computed (Nat.zero_le keyBits) (hfst ▸ hkeys)
      fun _ _ _ _ i hi => absurd hi (Nat.not_lt_zero i)
    rw [hset] at ht
    obtain ⟨htree, hreport⟩ := hexact.eq_report ht
    rw [Nat.sub_zero] at hroot hprove
    refine ⟨leaves, hleaves, ?_, fun key => ?_⟩
    · rw [CompressedTree.root, hroot, htree]
    · rw [CompressedTree.prove, hprove, hreport]
      rfl
  · obtain ⟨hexact', -⟩ := exact_of_sets hsets'
    have hleafSet : leafSet (written sets' ∅) = leafSet (written sets ∅) := by
      simp only [leafSet, hsame]
    rw [hleafSet] at hexact'
    obtain ⟨htree, hreport⟩ := hexact.eq_report hexact'.holds
    obtain ⟨htree', hreport'⟩ := hexact'.eq_report hexact'.holds
    refine ⟨htree'.symm.trans htree, fun key => ?_⟩
    rw [IncrementalCompressedTree.prove, IncrementalCompressedTree.prove, ← hreport', hreport]

/-- An account written twice, and another in between. -/
def rewrites : List (Pubkey × Account) :=
  [(1, .newWallet 5), (2, .newWallet 7), (1, .newWallet 9)]

omit [Crypto] in
/-- The tree after the three sets is that of the two accounts left. -/
theorem noteSet_refines_rewrites : let _ := sha3Crypto
    ∃ tree leaves, rewrites.foldlM noteSet new = some tree ∧
    changedLeaves [(2, .newWallet 7), (1, .newWallet 9)] = some leaves ∧
    CompressedTree.root leaves = some tree.root ∧
    ∀ key, CompressedTree.prove leaves key = some (tree.prove key) := by
  intro crypto
  have hwritten : ∀ key account,
      (key, account) ∈ [((2 : Pubkey), Account.newWallet 7), (1, .newWallet 9)] ↔
        (written rewrites ∅).lookup key = some account := by
    intro key account
    simp only [written, rewrites, List.foldl, Map.lookup_insert_eq]
    have hne : (1 : Pubkey) ≠ 2 := by decide
    by_cases h1 : key = 1
    · subst h1
      simp [hne, eq_comm]
    · by_cases h2 : key = 2
      · subst h2
        simp [hne.symm, eq_comm]
      · simp [h1, h2]
  have hrun : rewrites.foldlM noteSet new = some _ := rfl
  obtain ⟨⟨leaves, hleaves, htree⟩, -⟩ := noteSet_refines hrun (by decide) hwritten
  exact ⟨_, leaves, hrun, hleaves, htree⟩

/-- The root and the proofs with pending changes are those after making the changes. -/
theorem pending_exact (hsets : sets.foldlM noteSet new = some tree)
    (hkeys : (changes.map Prod.fst).Nodup)
    (hchanges : changes.foldlM noteSet tree = some tree') :
    tree.rootWithPending changes = some tree'.root ∧
      ∀ key, tree.proveWithPending key changes = some (tree'.prove key) := by
  obtain ⟨hexact, -⟩ := exact_of_sets hsets
  obtain ⟨leaves, hleaves, hfst, hexact'⟩ := hexact.foldlM_distinct hkeys hchanges
  obtain ⟨t, ht, hmerged, hprove⟩ := merges_overlay keyBits hexact.sound hexact.holds
    (hfst ▸ hkeys) (Nat.zero_le keyBits) (Nat.zero_add _).ge
    fun _ _ _ _ i hi => absurd hi (Nat.not_lt_zero i)
  obtain ⟨htree, hreport⟩ := hexact'.eq_report ht
  refine ⟨?_, fun key => ?_⟩
  · rw [rootWithPending, hleaves, bind_eq_bind, bind_some, hmerged, htree]
  · rw [proveWithPending, hleaves, bind_eq_bind, bind_some, hprove, hreport]
    rfl

omit [Crypto] in
/-- The three sets followed by a change and a new account. -/
theorem pending_exact_rewrites : let _ := sha3Crypto
    ∃ tree tree', rewrites.foldlM noteSet new = some tree ∧
    [(2, .newWallet 1), (3, .newWallet 4)].foldlM noteSet tree = some tree' ∧
    tree.rootWithPending [(2, .newWallet 1), (3, .newWallet 4)] = some tree'.root ∧
    ∀ key, tree.proveWithPending key [(2, .newWallet 1), (3, .newWallet 4)] =
      some (tree'.prove key) := by
  intro crypto
  have hrun : rewrites.foldlM noteSet new = some _ := rfl
  exact ⟨_, _, hrun, rfl, pending_exact hrun (by decide) rfl⟩

end IncrementalCompressedTree

end QChain
