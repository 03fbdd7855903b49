import QChain.Core.Sha3
import QChain.Data.Map
import QChain.Execution.Account
import QChain.Merkle.Sparse

/-!
# The state tree

The state commitment of `qchain-storage/src/tree.rs`: a sparse Merkle tree over the 256 bits of an
address, computed from the populated leaves with one precomputed digest for each height of an empty
subtree. The recursion stands for the complete tree over all `2 ^ 256` slots (`computeRoot_eq`), so
a proof is checked against that tree.
-/

namespace QChain

open List Merkle Option

/-! ### Collecting results -/

/-- What `mapM` collects is what the function returns on the elements. -/
theorem mem_of_mapM {α β : Type*} {f : α → Option β} {as : List α} {bs : List β}
    (h : as.mapM f = some bs) {b : β} : b ∈ bs ↔ ∃ a ∈ as, f a = some b := by
  induction as generalizing bs with
  | nil =>
    obtain rfl : [] = bs := Option.some.inj h
    simp
  | cons a as ih =>
    rw [mapM_cons] at h
    obtain ⟨b', hb', h⟩ := bind_eq_some_iff.1 h
    obtain ⟨bs', hbs', h⟩ := bind_eq_some_iff.1 h
    obtain rfl := Option.some.inj h
    rw [mem_cons, ih hbs', exists_mem_cons_iff, hb', some_inj, eq_comm]

/-- `mapM` succeeds only if the function does on every element. -/
theorem exists_of_mapM {α β : Type*} {f : α → Option β} {as : List α} {bs : List β}
    (h : as.mapM f = some bs) {a : α} (ha : a ∈ as) : ∃ b, f a = some b := by
  induction as generalizing bs with
  | nil => cases ha
  | cons a' as ih =>
    rw [mapM_cons] at h
    obtain ⟨b', hb', h⟩ := bind_eq_some_iff.1 h
    obtain ⟨bs', hbs', h⟩ := bind_eq_some_iff.1 h
    rcases mem_cons.1 ha with rfl | ha
    · exact ⟨b', hb'⟩
    · exact ih hbs' ha

/-! ### Keys and digests -/

/-- The binary form of an account, its fields in the order of the record. -/
instance : Borsh Account :=
  Borsh.iso (fun a => (a.balance, a.nonce, a.algorithmId, a.owner, a.codeHash, a.data))
    fun (balance, nonce, algorithmId, owner, codeHash, data) =>
      ⟨balance, nonce, algorithmId, owner, codeHash, data⟩

instance : LawfulBorsh Account := Borsh.lawful_iso

instance : Borsh.MinSize Account 86 :=
  Borsh.minSize_iso (β := U64 × U64 × UInt16 × Pubkey × Bytes32 × List UInt8) _ _

/-- `KEY_BITS`. -/
def keyBits : ℕ := 256

variable (key : Bytes32)

/-- `bit_at`: bit `7 - depth % 8` of byte `depth / 8`. The key is read as a big-endian number. -/
def bitAt (depth : ℕ) : Bool := key.val.testBit (keyBits - 1 - depth)

/-- The bits tell keys apart. -/
theorem eq_of_bitAt {k k' : Bytes32} (h : ∀ i < keyBits, bitAt k i = bitAt k' i) : k = k' := by
  apply Fin.ext
  apply Nat.eq_of_testBit_eq
  intro i
  by_cases hi : i < keyBits
  · have hbit := h (keyBits - 1 - i) (by rw [keyBits]; omega)
    have hindex : keyBits - 1 - (keyBits - 1 - i) = i := by
      omega
    rwa [bitAt, bitAt, hindex] at hbit
  · have hle : 2 ^ keyBits ≤ 2 ^ i := Nat.pow_le_pow_right two_pos (not_lt.1 hi)
    rw [Nat.testBit_lt_two_pow (lt_of_lt_of_le k.isLt hle),
      Nat.testBit_lt_two_pow (lt_of_lt_of_le k'.isLt hle)]

theorem eq_of_bitsFrom {k k' : Bytes32}
    (h : bitsFrom bitAt k 0 keyBits = bitsFrom bitAt k' 0 keyBits) : k = k' :=
  eq_of_bitAt fun i hi =>
    (bitsFrom_inj bitAt).1 h i (Nat.zero_le i) (by rwa [Nat.zero_add])

/-- What is hashed at an inner node. -/
def internalBytes (children : Bytes32 × Bytes32) : List UInt8 :=
  0x01 :: (children.1.toBytes ++ children.2.toBytes)

theorem internalBytes_injective : Function.Injective internalBytes := by
  rintro ⟨l, r⟩ ⟨l', r'⟩ h
  obtain ⟨hl, hr⟩ := append_inj (List.cons.inj h).2 (by simp)
  exact Prod.ext (Bytes32.toBytes_injective hl) (Bytes32.toBytes_injective hr)

/-- The siblings of a proof, each with its index, as a path from the root down. -/
def proofPath (steps : List (Bytes32 × ℕ)) : List (Bool × Bytes32) :=
  (steps.map fun step => (bitAt key (keyBits - 1 - step.2), step.1)).reverse

theorem proofPath_cons (step : Bytes32 × ℕ) (steps : List (Bytes32 × ℕ)) :
    proofPath key (step :: steps) =
      proofPath key steps ++ [(bitAt key (keyBits - 1 - step.2), step.1)] := by
  rw [proofPath, map_cons, reverse_cons, proofPath]

/-- The path of a proof with a digest for every bit is that of its key. -/
theorem map_fst_proofPath {key : Bytes32} {siblings : List Bytes32}
    (h : siblings.length = keyBits) :
    (proofPath key siblings.zipIdx).map Prod.fst = bitsFrom bitAt key 0 keyBits := by
  apply ext_getElem
  · simp [proofPath, h]
  · intro i hi hi'
    rw [length_bitsFrom] at hi'
    have hindex : keyBits - 1 - (siblings.length - 1 - i) = i := by
      omega
    simp [proofPath, hindex]

theorem map_snd_proofPath (siblings : List Bytes32) :
    (proofPath key siblings.zipIdx).map Prod.snd = siblings.reverse := by
  rw [proofPath, map_reverse, List.map_map]
  congr 1
  exact zipIdx_map_fst 0 siblings

section Tree

variable [Crypto]

/-- `hash_leaf`. The `expect` on the encoding is a result of none. -/
def hashLeaf (account : Account) : Option Bytes32 :=
  (Borsh.toVec account).map fun bytes => Crypto.sha3 (0x00 :: bytes)

/-- `hash_internal`. -/
def hashInternal (left right : Bytes32) : Bytes32 := Crypto.sha3 (internalBytes (left, right))

/-- `empty_hashes()[d]`: the root of an empty subtree of `d` levels. -/
def emptyHash : ℕ → Bytes32
  | 0 => Crypto.sha3 [0x00]
  | d + 1 =>
    let prev := emptyHash d
    hashInternal prev prev

/-! ### Roots and proofs -/

/-- A populated leaf: its key and its value hash. -/
abbrev Leaf := Bytes32 × Bytes32

/-- `partition`: the leaves left and right of a node at `depth`. -/
def partition (leaves : List Leaf) (depth : ℕ) : List Leaf × List Leaf :=
  (onSide bitAt false leaves depth, onSide bitAt true leaves depth)

/-- `compute_root`, given the number of levels below the node in place of its depth. -/
def computeRoot : ℕ → List Leaf → Bytes32
  | n, [] => emptyHash n
  | 0, leaf :: _ => leaf.2
  | n + 1, leaf :: leaves =>
    let (left, right) := partition (leaf :: leaves) (keyBits - (n + 1))
    hashInternal (computeRoot n left) (computeRoot n right)

/-- `compute_proof`: the value hash at the target, that of an empty leaf where there is none, and
the digests beside its path from the leaf up. -/
def computeProof (target : Bytes32) : ℕ → List Leaf → Bytes32 × List Bytes32
  | 0, leaves => (((leaves.find? fun leaf => leaf.1 = target).map Prod.snd).getD (emptyHash 0), [])
  | n + 1, leaves =>
    let depth := keyBits - (n + 1)
    let (left, right) := partition leaves depth
    let (same, other) := if bitAt target depth then (right, left) else (left, right)
    let otherHash := computeRoot n other
    let (leafHash, siblings) := computeProof target n same
    (leafHash, siblings ++ [otherHash])

/-- `MerkleProof`. -/
structure MerkleProof where
  key : Bytes32
  /-- None in a proof that there is no account. -/
  leafValueHash : Option Bytes32
  /-- From the leaf to the root. -/
  siblings : List Bytes32
  deriving DecidableEq

/-- One round of the loop of `verify_proof`. -/
def foldSibling (key current : Bytes32) (step : Bytes32 × ℕ) : Bytes32 :=
  let depth := keyBits - 1 - step.2
  if bitAt key depth then hashInternal step.1 current else hashInternal current step.1

/-- `verify_proof`. -/
def verifyProof (root : Bytes32) (proof : MerkleProof) (emptyLeafHash : Bytes32) : Bool :=
  if proof.siblings.length ≠ keyBits then false
  else
    let start := proof.leafValueHash.getD emptyLeafHash
    proof.siblings.zipIdx.foldl (foldSibling proof.key) start = root

namespace StateTree

variable (store : Map Pubkey Account)

/-- `StateTree::leaves`. -/
def leaves : Option (List Leaf) :=
  store.entries.mapM fun e => (hashLeaf e.2).map fun hash => (e.1, hash)

/-- `StateTree::empty_leaf_hash`. -/
def emptyLeafHash : Bytes32 := emptyHash 0

/-- `StateTree::root`. -/
def root : Option Bytes32 :=
  (leaves store).map (computeRoot keyBits)

/-- `StateTree::prove`. -/
def prove (key : Pubkey) : Option MerkleProof :=
  (leaves store).map fun leaves =>
    let (leafHash, siblings) := computeProof key keyBits leaves
    { key := key
      leafValueHash := if leafHash = emptyLeafHash then none else some leafHash
      siblings := siblings }

end StateTree

/-! ### The complete tree -/

/-- The digest of an inner node, of the pair of its children. -/
def nodeHash (children : Bytes32 × Bytes32) : Bytes32 := hashInternal children.1 children.2

/-- An empty subtree is a complete tree of empty slots. -/
theorem root_const (n : ℕ) : root nodeHash n (fun _ => emptyHash 0) = emptyHash n := by
  induction n with
  | zero => rfl
  | succ n ih =>
    rw [root, ih]
    rfl

variable {proof : MerkleProof} {slot : List Bool → Bytes32} {leaves : List Leaf} {n : ℕ}

/-- The root is that of the complete tree, its slots filled by the leaves. -/
theorem computeRoot_eq (hn : n ≤ keyBits) (leaves : List Leaf) :
    computeRoot n leaves = root nodeHash n (slots bitAt (emptyHash 0) leaves (keyBits - n)) := by
  induction n generalizing leaves with
  | zero =>
    cases leaves with
    | nil => rfl
    | cons leaf leaves =>
      rfl
  | succ n ih =>
    cases leaves with
    | nil =>
      rw [computeRoot, ← root_const]
      rfl
    | cons leaf leaves =>
      have hdepth : keyBits - (n + 1) + 1 = keyBits - n := by omega
      rw [computeRoot, root]
      simp only [slots_cons, ih (Nat.le_of_succ_le hn), hdepth]
      rfl

/-! ### The check as a climb -/

theorem foldSibling_eq (key current : Bytes32) (step : Bytes32 × ℕ) :
    foldSibling key current step =
      nodeHash (beside (bitAt key (keyBits - 1 - step.2)) current step.1) := by
  simp only [foldSibling, beside]
  split_ifs <;> rfl

theorem foldl_foldSibling (key start : Bytes32) (steps : List (Bytes32 × ℕ)) :
    steps.foldl (foldSibling key) start = climb nodeHash (proofPath key steps) start := by
  rw [climb_eq_foldr, proofPath, foldr_reverse, foldl_map]
  congr 1
  funext current step
  exact foldSibling_eq key current step

theorem verifyProof_eq_true_iff {root : Bytes32} {emptyLeafHash : Bytes32} :
    verifyProof root proof emptyLeafHash = true ↔ proof.siblings.length = keyBits ∧
      climb nodeHash (proofPath proof.key proof.siblings.zipIdx)
        (proof.leafValueHash.getD emptyLeafHash) = root := by
  rw [← foldl_foldSibling, verifyProof]
  split_ifs with h
  · exact iff_of_false id fun h' => h h'.1
  · rw [decide_eq_true_iff, and_iff_right (not_ne_iff.1 h)]

/-- The slots below a child are filled by the leaves on its side. -/
theorem slots_child (hn : n + 1 ≤ keyBits) (leaves : List Leaf) (side : Bool) :
    (fun s => slots bitAt (emptyHash 0) leaves (keyBits - (n + 1)) (side :: s)) =
      slots bitAt (emptyHash 0) (onSide bitAt side leaves (keyBits - (n + 1))) (keyBits - n) := by
  funext s
  rw [slots_cons, show keyBits - (n + 1) + 1 = keyBits - n by omega]

/-- The proof of a key among leaves below a node on its path. -/
theorem computeProof_eq (hn : n ≤ keyBits) {target : Bytes32}
    (hleaves : ∀ leaf ∈ leaves, ∀ i < keyBits - n, bitAt leaf.1 i = bitAt target i) :
    computeProof target n leaves =
      (slots bitAt (emptyHash 0) leaves (keyBits - n) (bitsFrom bitAt target (keyBits - n) n),
        ((siblings nodeHash (bitsFrom bitAt target (keyBits - n) n)
          (slots bitAt (emptyHash 0) leaves (keyBits - n))).map Prod.snd).reverse) := by
  induction n generalizing leaves with
  | zero =>
    cases leaves with
    | nil => rfl
    | cons leaf leaves =>
      have hkey : leaf.1 = target := eq_of_bitAt (hleaves leaf mem_cons_self)
      rw [computeProof, find?_cons_of_pos (by simp [hkey])]
      rfl
  | succ n ih =>
    have hdepth : keyBits - (n + 1) + 1 = keyBits - n := by omega
    have hn' := Nat.le_of_succ_le hn
    have hsame : ∀ leaf ∈ onSide bitAt (bitAt target (keyBits - (n + 1))) leaves
        (keyBits - (n + 1)), ∀ i < keyBits - n, bitAt leaf.1 i = bitAt target i := by
      intro leaf hleaf i hi
      obtain ⟨hmem, hbit⟩ := (mem_onSide bitAt).1 hleaf
      rcases Nat.lt_succ_iff_lt_or_eq.1 (hdepth ▸ hi) with hlt | rfl
      · exact hleaves leaf hmem i hlt
      · exact hbit
    rw [bitsFrom, siblings, length_bitsFrom, slots_child hn, slots_child hn,
      map_cons, reverse_cons, ← computeRoot_eq hn', slots_cons, hdepth]
    simp only [computeProof, partition]
    cases hbit : bitAt target (keyBits - (n + 1)) with
    | false | true =>
      rw [hbit] at hsame
      simp [ih hn' hsame]

/-! ### What is hashed -/

/-- What is hashed for the digests of empty subtrees of up to `n` levels. -/
def emptyInputs : ℕ → List (List UInt8)
  | 0 => [[0x00]]
  | n + 1 => internalBytes (emptyHash n, emptyHash n) :: emptyInputs n

/-- What `computeRoot` hashes. -/
def rootInputs : ℕ → List Leaf → List (List UInt8)
  | _, [] => []
  | 0, _ :: _ => []
  | n + 1, leaf :: leaves =>
    let (left, right) := partition (leaf :: leaves) (keyBits - (n + 1))
    internalBytes (computeRoot n left, computeRoot n right) ::
      (rootInputs n left ++ rootInputs n right)

/-- What the loop of `verifyProof` hashes. -/
def foldInputs (key : Bytes32) : Bytes32 → List (Bytes32 × ℕ) → List (List UInt8)
  | _, [] => []
  | current, step :: steps =>
    internalBytes (beside (bitAt key (keyBits - 1 - step.2)) current step.1) ::
      foldInputs key (foldSibling key current step) steps

/-- What the check of a proof hashes. -/
def MerkleProof.inputs (proof : MerkleProof) (emptyLeafHash : Bytes32) : List (List UInt8) :=
  foldInputs proof.key (proof.leafValueHash.getD emptyLeafHash) proof.siblings.zipIdx

/-- What the root of a map of accounts hashes: the accounts, the empty subtrees and the inner
nodes. -/
def StateTree.inputs (store : Map Pubkey Account) : List (List UInt8) :=
  store.entries.filterMap (fun e => (Borsh.toVec e.2).map (0x00 :: ·)) ++
    (emptyInputs keyBits ++ ((StateTree.leaves store).map (rootInputs keyBits)).getD [])

theorem zero_mem_emptyInputs (n : ℕ) : [0x00] ∈ emptyInputs n := by
  induction n with
  | zero => exact mem_cons_self
  | succ n ih => exact mem_cons_of_mem _ ih

theorem foldInputs_eq (key start : Bytes32) (steps : List (Bytes32 × ℕ)) :
    foldInputs key start steps =
      ((climbPairs nodeHash (proofPath key steps) start).map internalBytes).reverse := by
  induction steps generalizing start with
  | nil => rfl
  | cons step steps ih =>
    rw [foldInputs, foldSibling_eq, ih, proofPath_cons, climbPairs_append, map_append,
      reverse_append]
    rfl

theorem mem_rootInputs_succ {side : Bool} {bytes : List UInt8}
    (h : bytes ∈ rootInputs n (onSide bitAt side leaves (keyBits - (n + 1)))) :
    bytes ∈ rootInputs (n + 1) leaves := by
  cases leaves with
  | nil =>
    rw [onSide_nil, rootInputs] at h
    cases h
  | cons leaf leaves =>
    apply mem_cons_of_mem
    cases side with
    | false => exact mem_append_left _ h
    | true => exact mem_append_right _ h

/-- The pairs at the nodes of a key's path are hashed for the root or for the empty subtrees. -/
theorem internalBytes_mem_inputs (hn : n ≤ keyBits) {key : Bytes32} {pair : Bytes32 × Bytes32}
    (h : pair ∈ pathPairs nodeHash (bitsFrom bitAt key (keyBits - n) n)
      (slots bitAt (emptyHash 0) leaves (keyBits - n))) :
    internalBytes pair ∈ emptyInputs n ∨ internalBytes pair ∈ rootInputs n leaves := by
  induction n generalizing leaves with
  | zero => cases h
  | succ n ih =>
    have hdepth : keyBits - (n + 1) + 1 = keyBits - n := by omega
    have hn' := Nat.le_of_succ_le hn
    rw [bitsFrom, pathPairs, hdepth, length_bitsFrom, slots_child hn, slots_child hn,
      ← computeRoot_eq hn', ← computeRoot_eq hn',
      beside_eq _ fun b => computeRoot n (onSide bitAt b leaves (keyBits - (n + 1)))] at h
    rcases mem_cons.1 h with rfl | h
    · cases leaves with
      | nil =>
        simp only [onSide_nil, computeRoot]
        exact Or.inl mem_cons_self
      | cons leaf leaves => exact Or.inr mem_cons_self
    · rcases ih hn' h with h | h
      · exact Or.inl (mem_cons_of_mem _ h)
      · exact Or.inr (mem_rootInputs_succ h)

/-! ### Proofs that follow the tree -/

/-- The proof carries the digests beside its key's path in a tree, and the slot it leads to. -/
structure MerkleProof.Follows (proof : MerkleProof) (slot : List Bool → Bytes32) : Prop where
  path : proofPath proof.key proof.siblings.zipIdx =
    Merkle.siblings nodeHash (bitsFrom bitAt proof.key 0 keyBits) slot
  value : proof.leafValueHash.getD (emptyHash 0) = slot (bitsFrom bitAt proof.key 0 keyBits)

theorem MerkleProof.Follows.length_eq (h : proof.Follows slot) :
    proof.siblings.length = keyBits := by
  have hlength := congrArg List.length h.path
  rwa [length_siblings, length_bitsFrom, proofPath, length_reverse, length_map,
    length_zipIdx] at hlength

/-- A proof that follows a tree is accepted against its root. -/
theorem MerkleProof.Follows.verifyProof (h : proof.Follows slot) :
    verifyProof (root nodeHash keyBits slot) proof (emptyHash 0) = true := by
  refine verifyProof_eq_true_iff.2 ⟨h.length_eq, ?_⟩
  rw [h.path, h.value, climb_siblings, length_bitsFrom]

/-- The check of a proof that follows a tree hashes the pairs of the key's path. -/
theorem MerkleProof.Follows.inputs_eq (h : proof.Follows slot) :
    proof.inputs (emptyHash 0) = ((pathPairs nodeHash (bitsFrom bitAt proof.key 0 keyBits) slot).map
      internalBytes).reverse := by
  rw [MerkleProof.inputs, foldInputs_eq, h.path, h.value, climbPairs_siblings]

namespace StateTree

variable {store : Map Pubkey Account} {leaves : List Leaf} {key : Pubkey} {proof : MerkleProof}

theorem key_of_prove (hprove : StateTree.prove store key = some proof) : proof.key = key := by
  obtain ⟨leaves, -, rfl⟩ := map_eq_some_iff.1 hprove
  rfl

/-- The proof made for a key follows the tree of the leaves. -/
theorem follows_of_prove (hleaves : StateTree.leaves store = some leaves)
    (hprove : StateTree.prove store key = some proof) :
    proof.Follows (slots bitAt (emptyHash 0) leaves 0) := by
  obtain rfl := key_of_prove hprove
  rw [StateTree.prove, hleaves, map_some, some_inj,
    computeProof_eq le_rfl fun _ _ i hi => by omega, Nat.sub_self] at hprove
  have hsiblings := congrArg MerkleProof.siblings hprove
  have hvalue := congrArg MerkleProof.leafValueHash hprove
  have hlength : proof.siblings.length = keyBits := by
    rw [← hsiblings, length_reverse, length_map, length_siblings, length_bitsFrom]
  constructor
  · -- a list of pairs is given by its two components
    rw [zip_of_prod (map_fst_proofPath hlength) (map_snd_proofPath proof.key _),
      ← hsiblings, reverse_reverse, ← zip_of_prod (map_fst_siblings _ _) rfl]
  · rw [← hvalue]
    show (if _ = emptyHash 0 then none else some _).getD (emptyHash 0) = _
    split_ifs with hempty
    · exact hempty.symm
    · rfl

/-- The proof made for a key is accepted. -/
theorem verifyProof_prove {root : Bytes32} (hroot : StateTree.root store = some root)
    (hprove : StateTree.prove store key = some proof) :
    verifyProof root proof emptyLeafHash = true := by
  obtain ⟨leaves, hleaves, rfl⟩ := map_eq_some_iff.1 hroot
  rw [computeRoot_eq le_rfl]
  exact (follows_of_prove hleaves hprove).verifyProof

/-- The check of a proof made for a key hashes nothing new. -/
theorem inputs_prove_subset (hprove : StateTree.prove store key = some proof) :
    proof.inputs emptyLeafHash ⊆ StateTree.inputs store := by
  obtain ⟨leaves, hleaves, -⟩ := map_eq_some_iff.1 hprove
  rw [emptyLeafHash, (follows_of_prove hleaves hprove).inputs_eq]
  intro bytes hbytes
  obtain ⟨pair, hpair, rfl⟩ := List.mem_map.1 (mem_reverse.1 hbytes)
  refine mem_append_right _ (mem_append.2 ?_)
  rw [hleaves]
  exact internalBytes_mem_inputs le_rfl (by rwa [Nat.sub_self])

end StateTree

/-! ### Soundness -/

namespace StateTree

variable {store : Map Pubkey Account} {leaves : List Leaf} {k : Pubkey} {account : Account}

variable {hash : Bytes32}

/-- The leaves are the keys of the map with the digests of their accounts. -/
theorem mem_leaves (h : StateTree.leaves store = some leaves) : (k, hash) ∈ leaves ↔
      ∃ account, store.lookup k = some account ∧ hashLeaf account = some hash := by
  rw [mem_of_mapM h]
  constructor
  · rintro ⟨⟨k', account⟩, he, hf⟩
    obtain ⟨hash', hhash, heq⟩ := map_eq_some_iff.1 hf
    obtain ⟨rfl, rfl⟩ := Prod.mk.inj heq
    exact ⟨account, Map.lookup_eq_some_iff_mem.2 he, hhash⟩
  · rintro ⟨account, hlookup, hhash⟩
    exact ⟨⟨k, account⟩, Map.lookup_eq_some_iff_mem.1 hlookup, by rw [hhash]; rfl⟩

/-- Every account of a map with a root has a leaf. -/
theorem exists_leaf (h : StateTree.leaves store = some leaves)
    (hlookup : store.lookup k = some account) :
    ∃ hash, hashLeaf account = some hash ∧ (k, hash) ∈ leaves := by
  obtain ⟨leaf, hleaf⟩ := exists_of_mapM h (Map.lookup_eq_some_iff_mem.1 hlookup)
  obtain ⟨hash, hhash, -⟩ := map_eq_some_iff.1 hleaf
  exact ⟨hash, hhash, (mem_leaves h).2 ⟨account, hlookup, hhash⟩⟩

/-- The slot of a key holds the digest of its account. -/
theorem slots_of_lookup (h : StateTree.leaves store = some leaves)
    (hlookup : store.lookup k = some account) (hhash : hashLeaf account = some hash) :
    slots bitAt (emptyHash 0) leaves 0 (bitsFrom bitAt k 0 keyBits) = hash := by
  refine slots_of_mem ((mem_leaves h).2 ⟨account, hlookup, hhash⟩) ?_
  rintro ⟨k', hash'⟩ hmem hbits
  -- the same bits are the same key, and a key has one account
  obtain rfl : k' = k := eq_of_bitsFrom hbits
  obtain ⟨account', hlookup', hhash'⟩ := (mem_leaves h).1 hmem
  obtain rfl := mem_unique hlookup hlookup'
  rw [mem_unique hhash hhash']

theorem zero_mem_inputs : [0x00] ∈ StateTree.inputs store :=
  mem_append_right _ (mem_append_left _ (zero_mem_emptyInputs keyBits))

theorem leaf_mem_inputs {bytes : List UInt8} (hlookup : store.lookup k = some account)
    (hbytes : Borsh.toVec account = some bytes) : 0x00 :: bytes ∈ StateTree.inputs store := by
  refine mem_append_left _ (mem_filterMap.2 ⟨⟨k, account⟩, ?_, ?_⟩)
  · exact Map.lookup_eq_some_iff_mem.1 hlookup
  · rw [hbytes]
    rfl

/-- The digest of an account is not that of an empty leaf. -/
theorem ne_emptyLeafHash {S : Set (List UInt8)} (hinj : Set.InjOn Crypto.sha3 S)
    (hzero : [0x00] ∈ S) {bytes : List UInt8} (hbytes : Borsh.toVec account = some bytes)
    (hmem : 0x00 :: bytes ∈ S) :
    Crypto.sha3 (0x00 :: bytes) ≠ emptyLeafHash := by
  intro heq
  have hnil := (List.cons.inj (hinj hmem hzero heq)).2
  have hlength : 86 ≤ bytes.length := Borsh.MinSize.le_length hbytes
  rw [hnil] at hlength
  cases hlength

/-- An accepted proof climbs from the slot of its key. -/
theorem slots_of_verifyProof (h : StateTree.leaves store = some leaves)
    (hverify : verifyProof (computeRoot keyBits leaves) proof emptyLeafHash = true)
    (hinj : Set.InjOn Crypto.sha3
      {x | x ∈ StateTree.inputs store ∨ x ∈ proof.inputs emptyLeafHash}) :
    slots bitAt (emptyHash 0) leaves 0 (bitsFrom bitAt proof.key 0 keyBits) =
      proof.leafValueHash.getD emptyLeafHash := by
  obtain ⟨hlength, hroot⟩ := verifyProof_eq_true_iff.1 hverify
  have hpath : (proofPath proof.key proof.siblings.zipIdx).length = keyBits := by
    simp [proofPath, hlength]
  have hfst : (proofPath proof.key proof.siblings.zipIdx).map Prod.fst =
      bitsFrom bitAt proof.key 0 keyBits := map_fst_proofPath hlength
  rw [computeRoot_eq le_rfl, Nat.sub_self] at hroot
  rw [← hfst]
  refine slot_of_climb ?_ (hroot.trans (by rw [hpath]))
  apply (hinj.comp internalBytes_injective.injOn ?_ : Set.InjOn (Crypto.sha3 ∘ internalBytes) _)
  rintro pair (hpair | hpair)
  · refine Or.inr ?_
    rw [MerkleProof.inputs, foldInputs_eq]
    exact mem_reverse.2 (List.mem_map_of_mem hpair)
  · rw [hfst] at hpair
    refine Or.inl (mem_append_right _ (mem_append.2 ?_))
    rw [h]
    exact internalBytes_mem_inputs le_rfl hpair

section Accepted

variable {root : Bytes32} {proof : MerkleProof} (hroot : StateTree.root store = some root)
  (hverify : verifyProof root proof emptyLeafHash = true)
  (hinj : Set.InjOn Crypto.sha3 {x | x ∈ StateTree.inputs store ∨ x ∈ proof.inputs emptyLeafHash})

include hroot hverify hinj

theorem exists_of_verifyProof (hsome : proof.leafValueHash = some hash)
    (hne : hash ≠ emptyLeafHash) :
    ∃ account, store.lookup proof.key = some account ∧ hashLeaf account = some hash := by
  obtain ⟨leaves, hleaves, rfl⟩ := map_eq_some_iff.1 hroot
  have hslot := slots_of_verifyProof hleaves hverify hinj
  rw [hsome, getD_some] at hslot
  obtain ⟨⟨k, hash'⟩, hmem, hbits, hvalue⟩ := exists_of_slots_ne (hslot ▸ hne)
  rw [length_bitsFrom] at hbits
  obtain rfl := eq_of_bitsFrom hbits
  obtain rfl : hash' = hash := hvalue.trans hslot
  exact (mem_leaves hleaves).1 hmem

theorem notMem_of_verifyProof (hnone : proof.leafValueHash = none) : proof.key ∉ store := by
  obtain ⟨leaves, hleaves, rfl⟩ := map_eq_some_iff.1 hroot
  have hslot := slots_of_verifyProof hleaves hverify hinj
  intro hmem
  obtain ⟨account, hlookup⟩ := Map.mem_iff_lookup.1 hmem
  obtain ⟨hash, hhash, -⟩ := exists_leaf hleaves hlookup
  rw [slots_of_lookup hleaves hlookup hhash, hnone] at hslot
  obtain ⟨bytes, hbytes, rfl⟩ := map_eq_some_iff.1 hhash
  exact ne_emptyLeafHash hinj (.inl zero_mem_inputs) hbytes
    (.inl (leaf_mem_inputs hlookup hbytes)) hslot

end Accepted

/-- An accepted proof tells what the map holds at its key. -/
theorem verifyProof_sound {root : Bytes32}
    (hroot : StateTree.root store = some root) {proof : MerkleProof}
    (hverify : verifyProof root proof emptyLeafHash = true)
    (hinj : Set.InjOn Crypto.sha3
      {x | x ∈ StateTree.inputs store ∨ x ∈ proof.inputs emptyLeafHash}) :
    (∀ hash, proof.leafValueHash = some hash → hash ≠ emptyLeafHash →
      ∃ account, store.lookup proof.key = some account ∧ hashLeaf account = some hash) ∧
    (proof.leafValueHash = none → proof.key ∉ store) :=
  ⟨fun _ => exists_of_verifyProof hroot hverify hinj, notMem_of_verifyProof hroot hverify hinj⟩

end StateTree

end Tree

/-! ### Evaluating the tree

With SHA3-256 for the hash. Digests are kept as numbers on the way up, and those of the empty
subtrees are computed once. -/

section Sha3

theorem toLe_sha3 (bytes : List UInt8) :
    (sha3 bytes).toLe = Sha3.sponge (ofLeBytes bytes) bytes.length % 256 ^ 32 := by
  have hbytes := Bytes32.toBytes_ofBytes
    (length_toLeBytes 32 (Sha3.sponge (ofLeBytes bytes) bytes.length))
  rw [Bytes32.toLe, sha3, ← Bytes32.ofBytes, hbytes, ofLeBytes_toLeBytes]

/-- The digest of an inner node, given those of its children. -/
def nodeLe (l r : ℕ) : ℕ :=
  (Sha3.sponge (Nat.add 1 (Nat.mul 256 (l.add (r.mul (256 ^ 32))))) 65).mod (256 ^ 32)

/-- The digests of the empty subtrees of at most `n` levels, the highest first. -/
def emptyLe : ℕ → List ℕ
  | 0 => [(sha3 [0x00]).toLe]
  | n + 1 =>
    let below := emptyLe n
    nodeLe (below.headD 0) (below.headD 0) :: below

/-- The root of the leaves below a node, and the digests of the inner nodes below it. -/
def rootLe : ℕ → List Leaf → ℕ × List ℕ
  | n, [] => ((emptyLe n).headD 0, [])
  | 0, leaf :: _ => (leaf.2.toLe, [])
  | n + 1, leaf :: leaves =>
    let (left, right) := partition (leaf :: leaves) (keyBits - (n + 1))
    let l := rootLe n left
    let r := rootLe n right
    (nodeLe l.1 r.1, nodeLe l.1 r.1 :: (l.2 ++ r.2))

attribute [local instance] sha3Crypto

theorem toLe_hashInternal (l r : Bytes32) : (hashInternal l r).toLe = nodeLe l.toLe r.toLe := by
  have hlen : (internalBytes (l, r)).length = 65 := by simp [internalBytes]
  have hval : ofLeBytes (internalBytes (l, r)) = 1 + 256 * (l.toLe + r.toLe * 256 ^ 32) := by
    rw [internalBytes, ofLeBytes_cons, ofLeBytes_append, l.length_toBytes]
    rfl
  show (sha3 (internalBytes (l, r))).toLe = _
  rw [toLe_sha3, hlen, hval]
  rfl

theorem toLe_emptyHash (n : ℕ) : (emptyHash n).toLe = (emptyLe n).headD 0 := by
  induction n with
  | zero =>
    rw [emptyHash, emptyLe, headD_cons]
    rfl
  | succ n ih => rw [emptyHash, toLe_hashInternal, ih, emptyLe, headD_cons]

theorem map_emptyInputs (n : ℕ) : (emptyInputs n).map (fun x => (sha3 x).toLe) = emptyLe n := by
  induction n with
  | zero => rw [emptyInputs, emptyLe, map_singleton]
  | succ n ih =>
    rw [emptyInputs, map_cons, ih, emptyLe, ← toLe_emptyHash, ← toLe_hashInternal]
    rfl

theorem rootLe_eq (n : ℕ) (leaves : List Leaf) : rootLe n leaves =
    ((computeRoot n leaves).toLe, (rootInputs n leaves).map fun x => (sha3 x).toLe) := by
  induction n generalizing leaves with
  | zero =>
    cases leaves with
    | nil | cons => rfl
  | succ n ih =>
    cases leaves with
    | nil =>
      rw [rootLe, ← toLe_emptyHash]
      rfl
    | cons leaf leaves =>
      rw [rootLe, rootInputs, computeRoot, map_cons, map_append]
      simp only [ih, ← toLe_hashInternal]
      rfl

namespace StateTree

/-- What is hashed for a map of accounts beside the empty subtrees. -/
def ownInputs (store : Map Pubkey Account) : List (List UInt8) :=
  store.entries.filterMap (fun e => (Borsh.toVec e.2).map (0x00 :: ·)) ++
    ((StateTree.leaves store).map (rootInputs keyBits)).getD []

/-- The digests of `ownInputs`. -/
def ownLe (store : Map Pubkey Account) : List ℕ :=
  (store.entries.filterMap fun e => (hashLeaf e.2).map Bytes32.toLe) ++
    ((StateTree.leaves store).map fun leaves => (rootLe keyBits leaves).2).getD []

theorem map_ownInputs (store : Map Pubkey Account) :
    (ownInputs store).map (fun x => (sha3 x).toLe) = ownLe store := by
  rw [ownInputs, ownLe, map_append, map_filterMap]
  simp only [hashLeaf, Option.map_map, rootLe_eq]
  cases StateTree.leaves store <;> rfl

/-- Nothing that is hashed for some maps of accounts collides, if the digests are distinct. -/
theorem injOn_inputs {stores : List (Map Pubkey Account)}
    (h : distinct 256 (emptyLe keyBits ++ stores.flatMap ownLe) = true) :
    Set.InjOn Crypto.sha3 {x | ∃ store ∈ stores, x ∈ StateTree.inputs store} := by
  have hinj := @injOn_of_distinct (emptyInputs keyBits ++ stores.flatMap ownInputs) <| by
    rwa [map_append, map_emptyInputs, map_flatMap, funext map_ownInputs]
  refine hinj.mono ?_
  rintro x ⟨store, hstore, hx⟩
  simp only [StateTree.inputs, ownInputs, Set.mem_ofPred_eq, mem_append, mem_flatMap] at hx ⊢
  obtain hx | hx | hx := hx
  · exact .inr ⟨store, hstore, .inl hx⟩
  · exact .inl hx
  · exact .inr ⟨store, hstore, .inr hx⟩

/-- A wallet with a balance. -/
def wallet (balance : U64) : Account := { Account.newWallet 0 with balance }

/-- Two wallets, at addresses that differ in the last bit. -/
def twoWallets (sender receiver : U64) : Map Pubkey Account :=
  AList.insert 2 (wallet sender) (AList.insert 3 (wallet receiver) ∅)

/-- Proofs that the account of a wallet is there and that another address has none. -/
theorem verifyProof_sound_wallets : ∃ root present absent hash account,
    StateTree.root (twoWallets 100 20) = some root ∧
    verifyProof root present emptyLeafHash = true ∧ present.key = 2 ∧
    present.leafValueHash = some hash ∧ hash ≠ emptyLeafHash ∧
    (twoWallets 100 20).lookup 2 = some account ∧ hashLeaf account = some hash ∧
    verifyProof root absent emptyLeafHash = true ∧ absent.key = 4 ∧
    absent.leafValueHash = none ∧ 4 ∉ twoWallets 100 20 := by
  have hinj := @injOn_inputs [twoWallets 100 20] (by decide +kernel)
  have hsubset : ∀ {key proof}, StateTree.prove (twoWallets 100 20) key = some proof →
      Set.InjOn Crypto.sha3 {x | x ∈ StateTree.inputs (twoWallets 100 20) ∨
        x ∈ proof.inputs emptyLeafHash} := by
    intro key proof hprove
    refine hinj.mono ?_
    rintro x (hx | hx)
    · exact ⟨_, mem_singleton_self _, hx⟩
    · exact ⟨_, mem_singleton_self _, inputs_prove_subset hprove hx⟩
  obtain ⟨root, hroot⟩ := isSome_iff_exists.1
    (by decide +kernel : (StateTree.root (twoWallets 100 20)).isSome)
  obtain ⟨present, hpresent⟩ := isSome_iff_exists.1
    (by decide +kernel : (StateTree.prove (twoWallets 100 20) 2).isSome)
  obtain ⟨absent, habsent⟩ := isSome_iff_exists.1
    (by decide +kernel : (StateTree.prove (twoWallets 100 20) 4).isSome)
  obtain ⟨hash, hhash, hne⟩ : ∃ hash, present.leafValueHash = some hash ∧ hash ≠ emptyLeafHash := by
    have h : ∀ proof ∈ StateTree.prove (twoWallets 100 20) 2,
        ∃ hash ∈ proof.leafValueHash, hash ≠ emptyLeafHash := by
      decide +kernel
    exact h present hpresent
  have hnone : absent.leafValueHash = none := by
    have h : ∀ proof ∈ StateTree.prove (twoWallets 100 20) 4, proof.leafValueHash = none := by
      decide +kernel
    exact h absent habsent
  have hverify := verifyProof_prove hroot hpresent
  have hverify' := verifyProof_prove hroot habsent
  obtain ⟨account, hlookup, hleaf⟩ :=
    (verifyProof_sound hroot hverify (hsubset hpresent)).1 hash hhash hne
  have hnot := (verifyProof_sound hroot hverify' (hsubset habsent)).2 hnone
  have hkey := key_of_prove hpresent
  have hkey' := key_of_prove habsent
  exact ⟨root, present, absent, hash, account, hroot, hverify, hkey, hhash, hne, hkey ▸ hlookup,
    hleaf, hverify', hkey', hnone, hkey' ▸ hnot⟩

end StateTree

end Sha3

end QChain
