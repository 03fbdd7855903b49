import QChain.Merkle.Trie
import QChain.Storage.StateTree

/-!
# The compressed state tree

The path-compressed state commitment of `qchain-storage/src/compressed.rs`. A lone leaf stands for
its whole subtree and a level on which all leaves take the same side is not hashed, so a proof has
one step for each real branch, with its depth. The digests commit to the leaves and to the shape of
the tree, and to no depth: whoever makes an exclusion proof can choose the depths.
-/

namespace QChain

open List Merkle Option

namespace CompressedTree

/-! ### Digests -/

/-- What is hashed at a node, behind a byte for its kind. -/
def nodeBytes : Node Bytes32 Bytes32 Bytes32 → List UInt8
  | .empty => [0x05]
  | .leaf key valueHash => 0x03 :: (key.toBytes ++ valueHash.toBytes)
  | .branch children => 0x04 :: (children.1.toBytes ++ children.2.toBytes)

theorem nodeBytes_injective : Function.Injective nodeBytes := by
  rintro (_ | ⟨k, v⟩ | ⟨l, r⟩) (_ | ⟨k', v'⟩ | ⟨l', r'⟩) h
  · rfl
  · cases (List.cons.inj h).1
  · cases (List.cons.inj h).1
  · cases (List.cons.inj h).1
  · obtain ⟨hk, hv⟩ := append_inj (List.cons.inj h).2 (by simp)
    rw [Bytes32.toBytes_injective hk, Bytes32.toBytes_injective hv]
  · cases (List.cons.inj h).1
  · cases (List.cons.inj h).1
  · cases (List.cons.inj h).1
  · obtain ⟨hl, hr⟩ := append_inj (List.cons.inj h).2 (by simp)
    exact congrArg Node.branch
      (Prod.ext (Bytes32.toBytes_injective hl) (Bytes32.toBytes_injective hr))

/-! ### Maps as leaves -/

variable (m : Map Bytes32 Bytes32)

/-- The leaves of a map. -/
def leaves : List Leaf := m.entries.map fun e => (e.1, e.2)

theorem mem_leaves {m : Map Bytes32 Bytes32} {k v : Bytes32} :
    (k, v) ∈ leaves m ↔ m.lookup k = some v := by
  rw [Map.lookup_eq_some_iff_mem, leaves, List.mem_map]
  constructor
  · rintro ⟨e, he, heq⟩
    obtain ⟨rfl, rfl⟩ := Prod.mk.inj heq
    exact he
  · exact fun he => ⟨⟨k, v⟩, he, rfl⟩

theorem nodup_leaves : ((leaves m).map Prod.fst).Nodup := by
  rw [leaves, List.map_map]
  exact m.nodupKeys

/-- The tree of a map: a proper tree with the map's entries. -/
theorem exists_trie :
    ∃ t, Trie.build bitAt keyBits 0 (leaves m) = some t ∧ t.Proper bitAt ∧
      ∀ k v, (k, v) ∈ t.entries ↔ m.lookup k = some v := by
  obtain ⟨t, hbuild, hproper, hmem⟩ : ∃ t, Trie.build bitAt keyBits 0 (leaves m) = some t ∧
      t.Proper bitAt ∧ ∀ e, e ∈ t.entries ↔ e ∈ leaves m :=
    Trie.exists_build (fun k k' h => eq_of_bitAt fun i hi => h i (by rwa [Nat.zero_add]))
      (nodup_leaves m) fun _ _ _ _ i hi => absurd hi (Nat.not_lt_zero i)
  exact ⟨t, hbuild, hproper, fun k v => (hmem (k, v)).trans mem_leaves⟩

/-! ### Keys and depths -/

/-- A depth fits the field of a step. -/
theorem toNat_depth {depth : ℕ} (h : depth < keyBits) : (UInt16.ofNat depth).toNat = depth := by
  rw [UInt16.toNat_ofNat']
  rw [keyBits] at h
  omega

/-- Beyond the key's bits the last one is read. -/
theorem bitAt_of_uniform {k : Bytes32} {side : Bool} (h : ∀ i < keyBits, bitAt k i = side) (i : ℕ) :
    bitAt k i = side := by
  have hmin : keyBits - 1 - i = keyBits - 1 - min i (keyBits - 1) := by omega
  rw [bitAt, hmin]
  exact h _ (by rw [keyBits]; omega)

/-! ### Nodes -/

section Tree

variable [Crypto]

/-- The digest of a node. -/
def nodeDigest (node : Node Bytes32 Bytes32 Bytes32) : Bytes32 := Crypto.sha3 (nodeBytes node)

/-- `empty_node`. -/
def emptyNode : Bytes32 := nodeDigest .empty

/-- `leaf_node`. -/
def leafNode (key valueHash : Bytes32) : Bytes32 := nodeDigest (.leaf key valueHash)

/-- `internal_node`. -/
def internalNode (left right : Bytes32) : Bytes32 := nodeDigest (.branch (left, right))

/-! ### Roots and proofs -/

/-- `compute_root`, given the number of levels below the node in place of its depth. With no level
left `partition` indexes past the key: two leaves with one key stop the node. -/
def computeRoot : ℕ → List Leaf → Option Bytes32
  | _, [] => some emptyNode
  | _, [leaf] => some (leafNode leaf.1 leaf.2)
  | 0, _ :: _ :: _ => none
  | n + 1, leaf :: leaf' :: leaves =>
    let (left, right) := partition (leaf :: leaf' :: leaves) (keyBits - (n + 1))
    if left = [] then computeRoot n right
    else if right = [] then computeRoot n left
    else do
      let l ← computeRoot n left
      let r ← computeRoot n right
      some (internalNode l r)

end Tree

/-- `ProofStep`. -/
structure ProofStep where
  depth : UInt16
  sibling : Bytes32
  deriving DecidableEq

/-- `Terminal`: what a lookup ends at. -/
inductive Terminal
  /-- The queried key's own leaf. -/
  | leaf (valueHash : Bytes32)
  /-- The leaf of another key. -/
  | otherLeaf (key valueHash : Bytes32)
  /-- An empty subtree. -/
  | empty
  deriving DecidableEq

end CompressedTree

open CompressedTree in
/-- `CompressedProof`, its steps from the leaf to the root. -/
structure CompressedProof where
  key : Bytes32
  terminal : Terminal
  steps : List ProofStep
  deriving DecidableEq

namespace CompressedProof

open CompressedTree

/-- `is_inclusion`. -/
def isInclusion (proof : CompressedProof) : Bool :=
  match proof.terminal with
  | .leaf _ => true
  | _ => false

variable [Crypto]

/-- One round of the loop of `verify_proof`. -/
def fold (key current : Bytes32) (step : ProofStep) : Bytes32 :=
  if bitAt key step.depth.toNat then internalNode step.sibling current
  else internalNode current step.sibling

/-- `verify_proof`. -/
def verify (root : Bytes32) (proof : CompressedProof) : Bool :=
  if proof.steps.length > keyBits ∨ proof.steps.any fun s => s.depth.toNat ≥ keyBits then false
  else
    match proof.terminal with
    | .leaf valueHash => proof.steps.foldl (fold proof.key) (leafNode proof.key valueHash) = root
    | .otherLeaf key valueHash =>
      -- the other leaf must have another key
      if key = proof.key then false
      else proof.steps.foldl (fold proof.key) (leafNode key valueHash) = root
    | .empty => proof.steps.foldl (fold proof.key) emptyNode = root

end CompressedProof

namespace CompressedTree

section Tree

variable [Crypto]

/-- `compute_proof`: what the descent of the target ends at, and the steps from there up. -/
def computeProof (target : Bytes32) : ℕ → List Leaf → Option (Terminal × List ProofStep)
  | _, [] => some (.empty, [])
  | _, [leaf] =>
    some (if leaf.1 = target then .leaf leaf.2 else .otherLeaf leaf.1 leaf.2, [])
  | 0, _ :: _ :: _ => none
  | n + 1, leaf :: leaf' :: leaves =>
    let depth := keyBits - (n + 1)
    let (left, right) := partition (leaf :: leaf' :: leaves) depth
    if left = [] then computeProof target n right
    else if right = [] then computeProof target n left
    else do
      let (same, other) := if bitAt target depth then (right, left) else (left, right)
      let otherHash ← computeRoot n other
      let (terminal, steps) ← computeProof target n same
      some (terminal, steps ++ [⟨UInt16.ofNat depth, otherHash⟩])

/-- `CompressedStateTree::root`. -/
def root (leaves : List Leaf) : Option Bytes32 := computeRoot keyBits leaves

/-- `CompressedStateTree::prove`. -/
def prove (leaves : List Leaf) (key : Bytes32) : Option CompressedProof := do
  let (terminal, steps) ← computeProof key keyBits leaves
  some ⟨key, terminal, steps⟩

/-! ### The trie of the leaves -/

/-- The recursion of `computeRoot` builds a tree and hashes it. -/
theorem computeRoot_eq {n : ℕ} (hn : n ≤ keyBits) (leaves : List Leaf) :
    computeRoot n leaves =
      (Trie.build bitAt n (keyBits - n) leaves).map (Trie.hash nodeDigest) := by
  induction n generalizing leaves with
  | zero =>
    match leaves with
    | [] => rfl
    | [leaf] => rfl
    | leaf :: leaf' :: leaves => rfl
  | succ n ih =>
    match leaves with
    | [] => rfl
    | [leaf] => rfl
    | leaf :: leaf' :: leaves =>
      have hdepth : keyBits - (n + 1) + 1 = keyBits - n := by omega
      simp only [computeRoot, Trie.build, partition, ih (Nat.le_of_succ_le hn), hdepth]
      split_ifs
      · rfl
      · rfl
      · cases Trie.build bitAt n (keyBits - n) _ with
        | none => rfl
        | some l =>
          cases Trie.build bitAt n (keyBits - n) _ with
          | none | some r => rfl

/-- What a lookup reports at the end of its descent. -/
def Terminal.ofTrie (target : Bytes32) : Trie Bytes32 Bytes32 → Terminal
  | .leaf key valueHash => if key = target then .leaf valueHash else .otherLeaf key valueHash
  | _ => .empty

/-- The steps of a proof, from the leaf up, of a route from the root down. -/
def ProofStep.ofRoute (route : List (ℕ × Bytes32)) : List ProofStep :=
  (route.map fun step => ⟨UInt16.ofNat step.1, step.2⟩).reverse

theorem computeProof_eq (target : Bytes32) {n : ℕ} (hn : n ≤ keyBits) (leaves : List Leaf) :
    computeProof target n leaves =
      (Trie.build bitAt n (keyBits - n) leaves).map fun t =>
        (Terminal.ofTrie target (t.terminal bitAt target),
          ProofStep.ofRoute (t.route bitAt nodeDigest target)) := by
  induction n generalizing leaves with
  | zero =>
    match leaves with
    | [] => rfl
    | [leaf] => rfl
    | leaf :: leaf' :: leaves => rfl
  | succ n ih =>
    match leaves with
    | [] => rfl
    | [leaf] => rfl
    | leaf :: leaf' :: leaves =>
      have hn' := Nat.le_of_succ_le hn
      have hdepth : keyBits - (n + 1) + 1 = keyBits - n := by omega
      simp only [computeProof, Trie.build, partition, ih hn', computeRoot_eq hn', hdepth]
      split_ifs with hleft hright hbit
      · rfl
      · rfl
      · cases Trie.build bitAt n (keyBits - n) _ with
        | none => rfl
        | some l =>
          cases Trie.build bitAt n (keyBits - n) _ with
          | none => rfl
          | some r =>
            simp [Trie.terminal, Trie.route, hbit, ProofStep.ofRoute]
      · cases Trie.build bitAt n (keyBits - n) (onSide bitAt false _ _) with
        | none => cases Trie.build bitAt n (keyBits - n) _ <;> rfl
        | some l =>
          cases Trie.build bitAt n (keyBits - n) _ with
          | none => rfl
          | some r =>
            simp [Trie.terminal, Trie.route, hbit, ProofStep.ofRoute]

theorem root_eq {m : Map Bytes32 Bytes32} {t : Trie Bytes32 Bytes32}
    (ht : Trie.build bitAt keyBits 0 (leaves m) = some t) :
    root (leaves m) = some (t.hash nodeDigest) := by
  rw [root, computeRoot_eq le_rfl, Nat.sub_self, ht, map_some]

/-- Everything hashed for the root of a map. -/
def inputs (m : Map Bytes32 Bytes32) : List (List UInt8) :=
  ((Trie.build bitAt keyBits 0 (leaves m)).map fun t => (t.inputs nodeDigest).map nodeBytes).getD []

theorem inputs_eq {m : Map Bytes32 Bytes32} {t : Trie Bytes32 Bytes32}
    (ht : Trie.build bitAt keyBits 0 (leaves m) = some t) :
    inputs m = (t.inputs nodeDigest).map nodeBytes := by
  rw [inputs, ht, map_some, getD_some]

end Tree

end CompressedTree

namespace CompressedProof

open CompressedTree

/-- What the digest of the terminal is computed from. -/
def start (proof : CompressedProof) : Node Bytes32 Bytes32 Bytes32 :=
  match proof.terminal with
  | .leaf valueHash => .leaf proof.key valueHash
  | .otherLeaf key valueHash => .leaf key valueHash
  | .empty => .empty

/-- The steps as a path from the root down: at each depth the side the key's bit says. -/
def path (proof : CompressedProof) : List (Bool × Bytes32) :=
  (proof.steps.map fun step => (bitAt proof.key step.depth.toNat, step.sibling)).reverse

/-- The steps are few and at depths of the key, and the other leaf has another key. -/
structure WellFormed (proof : CompressedProof) : Prop where
  length_le : proof.steps.length ≤ keyBits
  depth_lt : ∀ step ∈ proof.steps, step.depth.toNat < keyBits
  other_ne : ∀ key valueHash, proof.terminal = .otherLeaf key valueHash → key ≠ proof.key

/-- An exclusion proof starts from no leaf of its key. -/
theorem start_ne_leaf {proof : CompressedProof} (hwf : proof.WellFormed)
    (hexclusion : proof.isInclusion = false) (v : Bytes32) : proof.start ≠ .leaf proof.key v := by
  intro hstart
  unfold start at hstart
  cases hterminal : proof.terminal with
  | leaf valueHash =>
    rw [isInclusion, hterminal] at hexclusion
    cases hexclusion
  | otherLeaf other valueHash =>
    rw [hterminal] at hstart
    exact hwf.other_ne other valueHash hterminal (Node.leaf.inj hstart).1
  | empty =>
    rw [hterminal] at hstart
    cases hstart

variable [Crypto]

/-- Everything hashed in the check of a proof. -/
def inputs (proof : CompressedProof) : List (List UInt8) :=
  (Trie.climbInputs nodeDigest proof.path proof.start).map nodeBytes

theorem foldl_fold (proof : CompressedProof) (current : Bytes32) :
    proof.steps.foldl (fold proof.key) current =
      climb (fun pair => nodeDigest (.branch pair)) proof.path current := by
  rw [climb_eq_foldr, path, foldr_reverse, foldl_map]
  congr 1
  funext current step
  unfold fold beside
  split_ifs <;> rfl

/-- A proof is accepted if it is well formed and its steps lead from the terminal to the root. -/
theorem verify_iff {root : Bytes32} {proof : CompressedProof} :
    proof.verify root = true ↔ proof.WellFormed ∧
      climb (fun pair => nodeDigest (.branch pair)) proof.path (nodeDigest proof.start) = root := by
  have hguard : ¬(proof.steps.length > keyBits ∨ proof.steps.any fun s => s.depth.toNat ≥ keyBits) ↔
      proof.steps.length ≤ keyBits ∧ ∀ step ∈ proof.steps, step.depth.toNat < keyBits := by
    simp
  rw [← foldl_fold, verify]
  split_ifs with hbad
  · exact iff_of_false id fun h => hguard.2 ⟨h.1.length_le, h.1.depth_lt⟩ hbad
  · obtain ⟨hlength, hdepth⟩ := hguard.1 hbad
    obtain ⟨key, terminal, steps⟩ := proof
    cases terminal with
    | leaf valueHash | empty =>
      rw [decide_eq_true_iff]
      exact ⟨fun h => ⟨⟨hlength, hdepth, nofun⟩, h⟩, fun h => h.2⟩
    | otherLeaf other valueHash =>
      by_cases hother : other = key
      · simp only [if_pos hother]
        exact iff_of_false Bool.false_ne_true fun h => h.1.other_ne other valueHash rfl hother
      · simp only [if_neg hother, decide_eq_true_iff]
        refine ⟨fun h => ⟨⟨hlength, hdepth, ?_⟩, h⟩, fun h => h.2⟩
        rintro other' valueHash' heq
        obtain ⟨rfl, rfl⟩ := Terminal.otherLeaf.inj heq
        exact hother

end CompressedProof

namespace CompressedTree

section Soundness

/-- A proof that leads to another leaf of the map. At each step it states the depth `left` or
`right`, at which the key's bit is the side the other leaf is on. -/
def forge (key other valueHash : Bytes32) (left right : ℕ) (route : List (ℕ × Bytes32)) :
    CompressedProof where
  key := key
  terminal := .otherLeaf other valueHash
  steps := (route.map fun step =>
    ⟨UInt16.ofNat (if bitAt other step.1 then right else left), step.2⟩).reverse

theorem path_forge {key other valueHash : Bytes32} {left right : ℕ} (hleft : left < keyBits)
    (hright : right < keyBits) (hl : bitAt key left = false) (hr : bitAt key right = true)
    (route : List (ℕ × Bytes32)) :
    (forge key other valueHash left right route).path = Trie.sides bitAt other route := by
  rw [CompressedProof.path, forge, map_reverse, reverse_reverse, List.map_map]
  apply map_congr_left
  intro step _
  show (bitAt key (UInt16.ofNat (if bitAt other step.1 then right else left)).toNat, step.2) = _
  cases bitAt other step.1 with
  | false =>
    rw [if_neg Bool.false_ne_true, toNat_depth hleft, hl]
  | true => rw [if_pos rfl, toNat_depth hright, hr]

variable [Crypto] {m : Map Bytes32 Bytes32} {t : Trie Bytes32 Bytes32}

/-! ### Inclusion -/

/-- Digests do not collide where the hash does not. -/
theorem injOn_nodeDigest {nodes : Set (Node Bytes32 Bytes32 Bytes32)} {bytes : Set (List UInt8)}
    (hinj : Set.InjOn Crypto.sha3 bytes) (hsub : ∀ node ∈ nodes, nodeBytes node ∈ bytes) :
    Set.InjOn nodeDigest nodes :=
  hinj.comp nodeBytes_injective.injOn hsub

/-- A proof accepted against the root of a map starts from a node of the map's tree. -/
theorem exists_subtree_of_verify (ht : Trie.build bitAt keyBits 0 (leaves m) = some t)
    {proof : CompressedProof}
    (hinj : Set.InjOn Crypto.sha3 {x | x ∈ inputs m ∨ x ∈ proof.inputs})
    (hverify : proof.verify (t.hash nodeDigest) = true) :
    ∃ s, t.subtree (proof.path.map Prod.fst) = some s ∧ s.top nodeDigest = proof.start := by
  apply Trie.exists_subtree_of_climb ?_ (CompressedProof.verify_iff.1 hverify).2
  apply injOn_nodeDigest hinj
  rintro node (hnode | hnode)
  · refine Or.inl ?_
    rw [inputs_eq ht]
    exact List.mem_map_of_mem hnode
  · exact Or.inr (List.mem_map_of_mem hnode)

/-- An accepted inclusion proof tells the value of its key, and no other map has the same root. -/
theorem inclusion_sound (m : Map Bytes32 Bytes32) :
    ∃ r, root (leaves m) = some r ∧
      (∀ (proof : CompressedProof) (valueHash : Bytes32),
        Set.InjOn Crypto.sha3 {x | x ∈ inputs m ∨ x ∈ proof.inputs} →
        proof.terminal = .leaf valueHash → proof.verify r = true →
          m.lookup proof.key = some valueHash) ∧
      ∀ m' : Map Bytes32 Bytes32, Set.InjOn Crypto.sha3 {x | x ∈ inputs m ∨ x ∈ inputs m'} →
        root (leaves m') = some r → ∀ k, m.lookup k = m'.lookup k := by
  obtain ⟨t, ht, hproper, hmem⟩ := exists_trie m
  refine ⟨t.hash nodeDigest, root_eq ht, ?_, ?_⟩
  · intro proof valueHash hinj hterminal hverify
    obtain ⟨s, hs, htop⟩ := exists_subtree_of_verify ht hinj hverify
    rw [CompressedProof.start, hterminal] at htop
    rw [← hmem]
    apply Trie.mem_entries_of_subtree hs
    rw [Trie.eq_leaf_of_top htop]
    exact mem_cons_self
  · intro m' hinj hroot k
    obtain ⟨t', ht', -, hmem'⟩ := exists_trie m'
    rw [root_eq ht', some_inj] at hroot
    have hentries : t.entries = t'.entries := by
      apply Trie.entries_eq_of_hash_eq ?_ hroot.symm
      apply injOn_nodeDigest hinj
      rw [inputs_eq ht, inputs_eq ht']
      rintro node (hnode | hnode)
      · exact Or.inl (List.mem_map_of_mem hnode)
      · exact Or.inr (List.mem_map_of_mem hnode)
    ext v
    rw [← hmem, hentries, hmem']

/-! ### Exclusion -/

/-- The node a proof starts from is where a descent ends. -/
theorem terminal_of_start {proof : CompressedProof} {s : Trie Bytes32 Bytes32}
    (h : s.top nodeDigest = proof.start) (k : Bytes32) : s.terminal bitAt k = s := by
  unfold CompressedProof.start at h
  cases hterminal : proof.terminal with
  | leaf valueHash | otherLeaf other valueHash =>
    rw [hterminal] at h
    rw [Trie.eq_leaf_of_top h, Trie.terminal]
  | empty =>
    rw [hterminal] at h
    rw [Trie.eq_empty_of_top h, Trie.terminal]

/-- An exclusion proof that starts where its key's own descent ends is true. -/
theorem notMem_of_terminal (hproper : t.Proper bitAt)
    (hmem : ∀ k v, (k, v) ∈ t.entries ↔ m.lookup k = some v) {proof : CompressedProof}
    (hwf : proof.WellFormed) (hexclusion : proof.isInclusion = false)
    (hstart : (t.terminal bitAt proof.key).top nodeDigest = proof.start) : proof.key ∉ m := by
  intro hkey
  obtain ⟨v, hlookup⟩ := Map.mem_iff_lookup.1 hkey
  rw [hproper.terminal_eq_leaf_iff.2 ((hmem _ _).2 hlookup)] at hstart
  exact CompressedProof.start_ne_leaf hwf hexclusion v hstart.symm

section

variable (ht : Trie.build bitAt keyBits 0 (leaves m) = some t)

include ht

/-- Exclusion proofs of a key whose bits are all the same are true: it takes the same side at every
depth a proof can state. -/
theorem notMem_of_uniform (hproper : t.Proper bitAt)
    (hmem : ∀ k v, (k, v) ∈ t.entries ↔ m.lookup k = some v) {proof : CompressedProof} {side : Bool}
    (hside : ∀ i < keyBits, bitAt proof.key i = side)
    (hinj : Set.InjOn Crypto.sha3 {x | x ∈ inputs m ∨ x ∈ proof.inputs})
    (hexclusion : proof.isInclusion = false) (hverify : proof.verify (t.hash nodeDigest) = true) :
    proof.key ∉ m := by
  obtain ⟨s, hs, htop⟩ := exists_subtree_of_verify ht hinj hverify
  have hk := bitAt_of_uniform hside
  refine notMem_of_terminal hproper hmem (CompressedProof.verify_iff.1 hverify).1 hexclusion ?_
  rw [Trie.terminal_of_subtree hk ?_ hs (terminal_of_start htop _), htop]
  intro x hx
  rw [CompressedProof.path, map_reverse, mem_reverse, List.map_map, List.mem_map] at hx
  obtain ⟨step, -, rfl⟩ := hx
  exact hk step.depth.toNat

/-- Exclusion proofs of the only key of a map are refused: there is nothing else to start from. -/
theorem notMem_of_unique (hproper : t.Proper bitAt)
    (hmem : ∀ k v, (k, v) ∈ t.entries ↔ m.lookup k = some v) {proof : CompressedProof}
    (hunique : ∀ k ∈ m, k = proof.key)
    (hinj : Set.InjOn Crypto.sha3 {x | x ∈ inputs m ∨ x ∈ proof.inputs})
    (hexclusion : proof.isInclusion = false) (hverify : proof.verify (t.hash nodeDigest) = true) :
    proof.key ∉ m := by
  intro hkey
  obtain ⟨v, hlookup⟩ := Map.mem_iff_lookup.1 hkey
  obtain ⟨s, hs, htop⟩ := exists_subtree_of_verify ht hinj hverify
  have hleaf : t = .leaf proof.key v := by
    refine hproper.eq_of_mem_iff (Trie.Proper.leaf _ _) ?_
    rintro ⟨k', v'⟩
    rw [hmem, Trie.entries, mem_singleton, Prod.mk.injEq]
    constructor
    · intro hlookup'
      obtain rfl := hunique k' (Map.mem_iff_lookup.2 ⟨v', hlookup'⟩)
      exact ⟨rfl, mem_unique hlookup' hlookup⟩
    · rintro ⟨rfl, rfl⟩
      exact hlookup
  have hs' : s = .leaf proof.key v := by
    rw [hleaf] at hs
    cases hpath : proof.path.map Prod.fst with
    | nil =>
      rw [hpath] at hs
      exact (Option.some.inj hs).symm
    | cons side sides =>
      rw [hpath] at hs
      cases hs
  rw [hs'] at htop
  have hwf := (CompressedProof.verify_iff.1 hverify).1
  exact CompressedProof.start_ne_leaf hwf hexclusion v htop.symm

/-! ### Forging an exclusion -/

/-- A key with both bits among its own can be excluded from a map that has another key. -/
theorem exists_forged (hproper : t.Proper bitAt)
    (hmem : ∀ k v, (k, v) ∈ t.entries ↔ m.lookup k = some v) {key other valueHash : Bytes32}
    (hother : m.lookup other = some valueHash) (hne : other ≠ key) {left right : ℕ}
    (hleft : left < keyBits) (hright : right < keyBits) (hl : bitAt key left = false)
    (hr : bitAt key right = true) :
    ∃ proof : CompressedProof, proof.key = key ∧ proof.isInclusion = false ∧
      proof.verify (t.hash nodeDigest) = true ∧ proof.inputs ⊆ inputs m := by
  have hterminal := hproper.terminal_eq_leaf_iff.2 ((hmem _ _).2 hother)
  refine ⟨forge key other valueHash left right (t.route bitAt nodeDigest other), rfl, rfl, ?_, ?_⟩
  · refine CompressedProof.verify_iff.2 ⟨⟨?_, ?_, ?_⟩, ?_⟩
    · rw [forge, length_reverse, length_map]
      exact hproper.length_route_le fun _ _ => eq_of_bitAt
    · intro step hstep
      obtain ⟨branch, -, rfl⟩ := List.mem_map.1 (mem_reverse.1 hstep)
      split_ifs
      · rwa [toNat_depth hright]
      · rwa [toNat_depth hleft]
    · intro other' valueHash' heq
      obtain ⟨rfl, -⟩ := Terminal.otherLeaf.inj heq
      exact hne
    · rw [path_forge hleft hright hl hr]
      have hclimb := Trie.climb_route bitAt nodeDigest other t
      rwa [hterminal] at hclimb
  · rw [inputs_eq ht, CompressedProof.inputs, path_forge hleft hright hl hr]
    have hsub := Trie.climbInputs_route bitAt nodeDigest other t
    rw [hterminal] at hsub
    exact map_subset _ hsub

end

/-- The exclusion proofs of a key that a map's root accepts are true if and only if the key is not
there to be excluded, has no other leaf beside it, or takes the same side at every depth. -/
theorem exclusion_sound_iff (m : Map Bytes32 Bytes32) (key : Bytes32)
    (hinj : Set.InjOn Crypto.sha3 {x | x ∈ inputs m}) :
    (∀ (proof : CompressedProof) (r : Bytes32), proof.key = key → root (leaves m) = some r →
      Set.InjOn Crypto.sha3 {x | x ∈ inputs m ∨ x ∈ proof.inputs} →
      proof.isInclusion = false → proof.verify r = true → key ∉ m) ↔
    (key ∈ m → (∀ k ∈ m, k = key) ∨ ∃ side, ∀ i < keyBits, bitAt key i = side) := by
  obtain ⟨t, ht, hproper, hmem⟩ := exists_trie m
  constructor
  · intro hsound hkey
    by_contra! hcond
    obtain ⟨⟨other, hother, hne⟩, hbits⟩ := hcond
    obtain ⟨valueHash, hlookup⟩ := Map.mem_iff_lookup.1 hother
    obtain ⟨right, hright, hr⟩ := hbits false
    obtain ⟨left, hleft, hl⟩ := hbits true
    obtain ⟨proof, rfl, hexclusion, hverify, hsub⟩ := exists_forged ht hproper hmem hlookup hne
      hleft hright (Bool.eq_false_iff.2 hl) (Bool.eq_true_of_not_eq_false hr)
    refine hsound proof _ rfl (root_eq ht) (hinj.mono ?_) hexclusion hverify hkey
    rintro x (hx | hx)
    · exact hx
    · exact hsub hx
  · rintro hcond proof r rfl hroot hinj hexclusion hverify hkey
    obtain rfl := mem_unique hroot (root_eq ht)
    rcases hcond hkey with hunique | ⟨side, hside⟩
    · exact notMem_of_unique ht hproper hmem hunique hinj hexclusion hverify hkey
    · exact notMem_of_uniform ht hproper hmem hside hinj hexclusion hverify hkey

/-! ### Proofs of the prover -/

/-- The proof made for a key: where its descent ends, and its route. -/
theorem prove_eq (ht : Trie.build bitAt keyBits 0 (leaves m) = some t) (key : Bytes32) :
    prove (leaves m) key = some ⟨key, Terminal.ofTrie key (t.terminal bitAt key),
      ProofStep.ofRoute (t.route bitAt nodeDigest key)⟩ := by
  rw [prove, computeProof_eq key le_rfl, Nat.sub_self, ht]
  rfl

theorem path_prove (hproper : t.Proper bitAt) (key : Bytes32) (terminal : Terminal) :
    CompressedProof.path ⟨key, terminal, ProofStep.ofRoute (t.route bitAt nodeDigest key)⟩ =
      Trie.sides bitAt key (t.route bitAt nodeDigest key) := by
  rw [CompressedProof.path, ProofStep.ofRoute, map_reverse, reverse_reverse,
    List.map_map]
  apply map_congr_left
  intro step hstep
  show (bitAt key (UInt16.ofNat step.1).toNat, step.2) = _
  rw [toNat_depth (hproper.lt_of_mem_route (fun _ _ => eq_of_bitAt) hstep)]

theorem start_prove (key : Bytes32) (steps : List ProofStep) :
    CompressedProof.start ⟨key, Terminal.ofTrie key (t.terminal bitAt key), steps⟩ =
      (t.terminal bitAt key).top nodeDigest := by
  rcases Trie.terminal_eq bitAt key t with h | ⟨k, v, h⟩
  · rw [h]
    rfl
  · rw [h, Terminal.ofTrie]
    split_ifs with hk
    · rw [← hk]
      rfl
    · rfl

/-- The proof made for a key is accepted. -/
theorem verify_prove (hproper : t.Proper bitAt) (key : Bytes32) :
    CompressedProof.verify (t.hash nodeDigest) ⟨key, Terminal.ofTrie key (t.terminal bitAt key),
      ProofStep.ofRoute (t.route bitAt nodeDigest key)⟩ = true := by
  have hsep : ∀ k k' : Bytes32, (∀ i < keyBits, bitAt k i = bitAt k' i) → k = k' :=
    fun _ _ => eq_of_bitAt
  refine CompressedProof.verify_iff.2 ⟨⟨?_, ?_, ?_⟩, ?_⟩
  · rw [ProofStep.ofRoute, length_reverse, length_map]
    exact hproper.length_route_le hsep
  · intro step hstep
    obtain ⟨branch, hbranch, rfl⟩ := List.mem_map.1 (mem_reverse.1 hstep)
    have hlt := hproper.lt_of_mem_route hsep hbranch
    exact (toNat_depth hlt).symm ▸ hlt
  · intro other valueHash heq
    cases hterm : t.terminal bitAt key with
    | empty | branch d l r =>
      rw [hterm] at heq
      cases heq
    | leaf k v =>
      rw [hterm, Terminal.ofTrie] at heq
      split_ifs at heq with hk
      obtain ⟨rfl, -⟩ := Terminal.otherLeaf.inj heq
      exact hk
  · rw [path_prove hproper, start_prove]
    exact (congrArg _ (Trie.hash_eq _).symm).trans (Trie.climb_route bitAt nodeDigest key t)

omit [Crypto] in
/-- A lookup reports a leaf of the key where the descent ends at one. -/
theorem ofTrie_eq_leaf_iff {key valueHash : Bytes32} :
    Terminal.ofTrie key t = .leaf valueHash ↔ t = .leaf key valueHash := by
  cases t with
  | empty | branch depth l r => exact iff_of_false nofun nofun
  | leaf k v =>
    rw [Terminal.ofTrie]
    split_ifs with hk
    · rw [hk, Terminal.leaf.injEq, Trie.leaf.injEq, eq_self_iff_true, true_and]
    · exact iff_of_false nofun fun h => hk (Trie.leaf.inj h).1

/-- The steps made for a key are at decreasing depths, from the leaf up. -/
theorem pairwise_ofRoute (hproper : t.Proper bitAt) (key : Bytes32) :
    (ProofStep.ofRoute (t.route bitAt nodeDigest key)).Pairwise
      fun step above => above.depth < step.depth := by
  rw [ProofStep.ofRoute, pairwise_reverse, pairwise_map]
  refine hproper.pairwise_route.imp_of_mem fun ha hb hlt => ?_
  have hbound : ∀ {step}, step ∈ t.route bitAt nodeDigest key → step.1 < keyBits :=
    fun hstep => hproper.lt_of_mem_route (fun _ _ => eq_of_bitAt) hstep
  rwa [UInt16.lt_iff_toNat_lt, toNat_depth (hbound ha), toNat_depth (hbound hb)]

/-- The proof made for a key is accepted against the root, ends at a leaf of the key exactly if the
map has the key, and then tells its value. Its steps are one for each branch above it, from the leaf
to the root. -/
theorem prove_complete (m : Map Bytes32 Bytes32) (key : Bytes32) :
    ∃ r proof, root (leaves m) = some r ∧ prove (leaves m) key = some proof ∧
      proof.key = key ∧ proof.verify r = true ∧
      (∀ valueHash, proof.terminal = .leaf valueHash ↔ m.lookup key = some valueHash) ∧
      proof.steps.length ≤ keyBits ∧
      proof.steps.Pairwise fun step above => above.depth < step.depth := by
  obtain ⟨t, ht, hproper, hmem⟩ := exists_trie m
  have hverify := verify_prove hproper key
  refine ⟨_, _, root_eq ht, prove_eq ht key, rfl, hverify, fun valueHash => ?_,
    (CompressedProof.verify_iff.1 hverify).1.length_le, pairwise_ofRoute hproper key⟩
  rw [ofTrie_eq_leaf_iff, hproper.terminal_eq_leaf_iff, hmem]

/-- Exclusion proofs that state the depths of the tree are true. -/
theorem exclusion_sound_of_depths {m : Map Bytes32 Bytes32} {proof honest : CompressedProof}
    {r : Bytes32} (hroot : root (leaves m) = some r)
    (hprove : prove (leaves m) proof.key = some honest)
    (hdepths : proof.steps.map ProofStep.depth = honest.steps.map ProofStep.depth)
    (hinj : Set.InjOn Crypto.sha3 {x | x ∈ inputs m ∨ x ∈ proof.inputs})
    (hexclusion : proof.isInclusion = false) (hverify : proof.verify r = true) : proof.key ∉ m := by
  obtain ⟨t, ht, hproper, hmem⟩ := exists_trie m
  obtain rfl := mem_unique hroot (root_eq ht)
  obtain ⟨s, hs, htop⟩ := exists_subtree_of_verify ht hinj hverify
  refine notMem_of_terminal hproper hmem (CompressedProof.verify_iff.1 hverify).1 hexclusion ?_
  -- the sides of a path are given by the key and the depths
  have hsides : ∀ p : CompressedProof, p.path.map Prod.fst =
      ((p.steps.map ProofStep.depth).map fun d => bitAt p.key d.toNat).reverse := by
    intro p
    rw [CompressedProof.path, map_reverse, List.map_map, List.map_map]
    rfl
  rw [prove_eq ht, some_inj] at hprove
  have hpath : proof.path.map Prod.fst = honest.path.map Prod.fst := by
    rw [hsides, hsides, hdepths, ← hprove]
  rw [hpath, ← hprove, path_prove hproper, Trie.subtree_route, some_inj] at hs
  rw [hs, htop]

end Soundness

/-! ### Maps of few keys -/

/-- A map with two keys, which part at the first bit. -/
def twoKeys : Map Bytes32 Bytes32 := AList.insert 1 10 (AList.insert (repeatedByte 0x80) 20 ∅)

/-- A proof that the key `1` is not in the map, by the other leaf. The step is at depth 0 and is
stated to be at depth 255, where the key has its set bit. -/
def forgedProof [Crypto] : CompressedProof where
  key := 1
  terminal := .otherLeaf (repeatedByte 0x80) 20
  steps := [⟨255, leafNode 1 10⟩]

/-- Whatever the hash, a key that is there is proved not to be there. -/
theorem forged_exclusion : 1 ∈ twoKeys ∧ ∀ _ : Crypto, ∃ r, root (leaves twoKeys) = some r ∧
    forgedProof.isInclusion = false ∧ forgedProof.verify r = true ∧ forgedProof.key = 1 := by
  refine ⟨by decide, fun crypto => ?_⟩
  have ht : Trie.build bitAt keyBits 0 (leaves twoKeys) =
      some (.branch 0 (.leaf 1 10) (.leaf (repeatedByte 0x80) 20)) := by decide
  refine ⟨_, root_eq ht, rfl, CompressedProof.verify_iff.2 ⟨⟨?_, ?_, ?_⟩, ?_⟩, rfl⟩
  · show 1 ≤ keyBits
    decide
  · intro step hstep
    rw [mem_singleton.1 hstep]
    show (255 : UInt16).toNat < keyBits
    decide
  · intro other valueHash heq
    obtain ⟨rfl, -⟩ := Terminal.otherLeaf.inj heq
    show repeatedByte 0x80 ≠ 1
    decide
  · have hbit : bitAt 1 255 = true := by decide
    show nodeDigest (.branch (beside (bitAt 1 255) _ _)) = _
    rfl

/-- A map with one key. -/
def oneKey : Map Bytes32 Bytes32 := AList.insert 1 10 ∅

/-- A map with three keys, one of which has no set bit. -/
def threeKeys : Map Bytes32 Bytes32 := AList.insert 0 30 twoKeys

/-- The keys of `twoKeys`, inserted in the other order. -/
def swappedKeys : Map Bytes32 Bytes32 := AList.insert (repeatedByte 0x80) 20 (AList.insert 1 10 ∅)

section Sha3

attribute [local instance] sha3Crypto

/-- No proof excludes the only key of a map, nor a key of equal bits beside others. -/
theorem exclusion_sound_keys :
    (1 ∈ oneKey ∧ ∀ (proof : CompressedProof) (r : Bytes32), proof.key = 1 →
      root (leaves oneKey) = some r →
      Set.InjOn Crypto.sha3 {x | x ∈ inputs oneKey ∨ x ∈ proof.inputs} →
      proof.isInclusion = false → proof.verify r = true → 1 ∉ oneKey) ∧
    (0 ∈ threeKeys ∧ ∀ (proof : CompressedProof) (r : Bytes32), proof.key = 0 →
      root (leaves threeKeys) = some r →
      Set.InjOn Crypto.sha3 {x | x ∈ inputs threeKeys ∨ x ∈ proof.inputs} →
      proof.isInclusion = false → proof.verify r = true → 0 ∉ threeKeys) := by
  refine ⟨⟨by decide, ?_⟩, by decide, ?_⟩
  · exact (exclusion_sound_iff oneKey 1 (injOn_of_distinct (by decide +kernel))).2
      fun _ => .inl (by decide)
  · refine (exclusion_sound_iff threeKeys 0 (injOn_of_distinct (by decide +kernel))).2
      fun _ => .inr ⟨false, fun i _ => ?_⟩
    exact Nat.zero_testBit _

/-- The proof that a third key is not in the map, which the prover makes, is true. -/
theorem exclusion_sound_of_depths_twoKeys : ∃ (proof : CompressedProof) (r : Bytes32),
    root (leaves twoKeys) = some r ∧ proof.verify r = true ∧ proof.key = 2 ∧
    proof.steps.map ProofStep.depth = [0] ∧ 2 ∉ twoKeys := by
  let proof : CompressedProof := ⟨2, .otherLeaf 1 10, [⟨0, leafNode (repeatedByte 0x80) 20⟩]⟩
  have hprove : prove (leaves twoKeys) 2 = some proof := by decide +kernel
  obtain ⟨r, hroot, hverify⟩ : ∃ r ∈ root (leaves twoKeys), proof.verify r = true := by
    decide +kernel
  exact ⟨proof, r, hroot, hverify, rfl, rfl, @exclusion_sound_of_depths _ twoKeys proof proof r
    hroot hprove rfl (injOn_or (by decide +kernel)) rfl hverify⟩

/-- A proof with one step tells the value of its key, and another map with the same root has the
same values. -/
theorem inclusion_sound_twoKeys : ∃ (proof : CompressedProof) (r : Bytes32),
    root (leaves twoKeys) = some r ∧ proof.verify r = true ∧ proof.key = 1 ∧
    proof.steps.length = 1 ∧ twoKeys.lookup 1 = some 10 ∧
    leaves swappedKeys ≠ leaves twoKeys ∧ root (leaves swappedKeys) = some r ∧
    ∀ k, twoKeys.lookup k = swappedKeys.lookup k := by
  let proof : CompressedProof := ⟨1, .leaf 10, [⟨0, leafNode (repeatedByte 0x80) 20⟩]⟩
  obtain ⟨r, hroot, hinclusion, hbinding⟩ := inclusion_sound twoKeys
  have hverify : ∀ r ∈ root (leaves twoKeys), proof.verify r = true := by decide +kernel
  have hswapped : root (leaves swappedKeys) = root (leaves twoKeys) := by decide +kernel
  exact ⟨proof, r, hroot, hverify r hroot, rfl, rfl,
    hinclusion proof 10 (injOn_or (by decide +kernel)) rfl (hverify r hroot), by decide,
    hswapped.trans hroot,
    hbinding swappedKeys (injOn_or (by decide +kernel)) (hswapped.trans hroot)⟩

end Sha3

end CompressedTree

end QChain
