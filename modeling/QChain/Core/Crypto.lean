import Mathlib
import QChain.Data.Bytes

/-!
# Bytes, hashes and hybrid signatures

32-byte values, fixed-width little-endian encodings, saturating `u64` addition, and the hybrid
signature check of `qchain-crypto`. The hash and the three signature schemes come from third-party
crates. They are the fields of `Crypto`, and what a result needs of them is a hypothesis.
-/

namespace QChain

/-! ### Machine integers -/

/-- The largest `u64`. -/
def u64Max : ℕ := 2 ^ 64 - 1

/-- `u64::saturating_add`. -/
def satAdd (a b : ℕ) : ℕ := min (a + b) u64Max

theorem satAdd_of_le {a b : ℕ} (h : a + b ≤ u64Max) : satAdd a b = a + b :=
  min_eq_left h

theorem satAdd_le (a b : ℕ) : satAdd a b ≤ a + b :=
  min_le_left _ _

/-- `u64::saturating_mul`. -/
def satMul (a b : ℕ) : ℕ := min (a * b) u64Max

/-! ### Bytes -/

/-- A `[u8; 32]`, read as a big-endian number: its order is then the
byte-lexicographic order that the source sorts digests and validator ids by. -/
def Bytes32 : Type := Fin (2 ^ 256)
  deriving DecidableEq, Repr

namespace Bytes32

instance : LinearOrder Bytes32 := inferInstanceAs (LinearOrder (Fin (2 ^ 256)))

instance : NeZero (2 ^ 256) := ⟨by decide⟩

instance (n : ℕ) : OfNat Bytes32 n := ⟨Fin.ofNat (2 ^ 256) n⟩

instance : Inhabited Bytes32 := ⟨0⟩

/-- The 32 bytes, most significant first. -/
def toBytes (b : Bytes32) : List UInt8 := (toLeBytes 32 b.val).reverse

theorem toBytes_injective : Function.Injective toBytes := by
  intro a b h
  exact Fin.ext (toLeBytes_inj a.isLt b.isLt (List.reverse_inj.1 h))

/-- `u64::from_le_bytes(b[0..8])`. -/
def firstU64Le (b : Bytes32) : ℕ := ofLeBytes (b.toBytes.take 8)

end Bytes32

/-- The bytes of an ASCII constant such as `b"qchain-tx-sig-v1"`. -/
def asciiBytes (s : String) : List UInt8 :=
  s.toList.map fun c => UInt8.ofNat c.toNat

/-! ### Third-party primitives -/

/-- The primitives the repository takes from other crates: SHA3-256 and the
verification of one component of each registered scheme. -/
class Crypto where
  /-- SHA3-256 of a byte string. -/
  sha3 : List UInt8 → Bytes32
  /-- Ed25519, on a 32-byte key and a 64-byte signature. -/
  verifyEd25519Component : (key msg sig : List UInt8) → Bool
  /-- ML-DSA-65. -/
  verifyMlDsa65Component : (key msg sig : List UInt8) → Bool
  /-- SLH-DSA. -/
  verifySlhDsaComponent : (key msg sig : List UInt8) → Bool

/-! ### Hybrid keys and signatures -/

/-- `AlgorithmId`, the number a signature scheme or a combination is registered under. -/
abbrev AlgorithmId := UInt16

/-- `ALGORITHM_ED25519`. -/
def algorithmEd25519 : AlgorithmId := 1

/-- `ALGORITHM_ML_DSA_65`. -/
def algorithmMlDsa65 : AlgorithmId := 2

/-- `ALGORITHM_SLH_DSA`. -/
def algorithmSlhDsa : AlgorithmId := 3

/-- `COMBO_HYBRID_ED25519_ML_DSA_65`. -/
def comboHybridEd25519MlDsa65 : AlgorithmId := 1000

/-- `COMBO_HYBRID_ED25519_ML_DSA_65_SLH_DSA`. -/
def comboHybridEd25519MlDsa65SlhDsa : AlgorithmId := 1001

/-- The ordered scheme list a combination requires. -/
def comboComponents (id : AlgorithmId) : Option (List AlgorithmId) :=
  if id = comboHybridEd25519MlDsa65 then
    some [algorithmEd25519, algorithmMlDsa65]
  else if id = comboHybridEd25519MlDsa65SlhDsa then
    some [algorithmEd25519, algorithmMlDsa65, algorithmSlhDsa]
  else
    none

/-- Which registered combination requires exactly this ordered scheme list. -/
def comboFromComponents (schemes : List AlgorithmId) : Option AlgorithmId :=
  [comboHybridEd25519MlDsa65, comboHybridEd25519MlDsa65SlhDsa].find?
    fun combo => comboComponents combo = some schemes

/-- One scheme component of a key bundle or of a signature. -/
structure KeyComponent where
  scheme : AlgorithmId
  bytes : List UInt8
  deriving DecidableEq

/-- The raw public keys behind an address. -/
structure PublicKeyBundle where
  components : List KeyComponent
  deriving DecidableEq

/-- One signature component per scheme of the signer's combination. -/
structure MultiSignature where
  components : List KeyComponent
  deriving DecidableEq

/-- A validator's identity, the 32-byte address of its key bundle. -/
abbrev Pubkey := Bytes32

section Verify

variable [Crypto]

/-- The body of the loop in `verify`, for one key component and the signature
component at the same position. -/
def verifyComponent (msg : List UInt8) (pkComp sigComp : KeyComponent) : Bool :=
  if pkComp.scheme ≠ sigComp.scheme then
    false
  else if pkComp.scheme = algorithmEd25519 then
    pkComp.bytes.length = 32 && sigComp.bytes.length = 64 &&
      Crypto.verifyEd25519Component pkComp.bytes msg sigComp.bytes
  else if pkComp.scheme = algorithmMlDsa65 then
    Crypto.verifyMlDsa65Component pkComp.bytes msg sigComp.bytes
  else if pkComp.scheme = algorithmSlhDsa then
    Crypto.verifySlhDsaComponent pkComp.bytes msg sigComp.bytes
  else
    false

variable (bundle : PublicKeyBundle)

/-- The hybrid check: the bundle's schemes are a registered combination and
every component verifies. -/
def verify (msg : List UInt8) (signature : MultiSignature) : Bool :=
  match comboFromComponents (bundle.components.map (·.scheme)) with
  | none => false
  | some _ =>
    signature.components.length = bundle.components.length &&
      (bundle.components.zip signature.components).all fun (pkComp, sigComp) =>
        verifyComponent msg pkComp sigComp

/-- A hybrid key of the right shape. -/
def hybridBundle : PublicKeyBundle := ⟨[⟨1, List.replicate 32 0⟩, ⟨2, []⟩]⟩

/-- A hybrid signature of the right shape. -/
def hybridSignature : MultiSignature := ⟨[⟨1, List.replicate 64 0⟩, ⟨2, []⟩]⟩

/-- Every component of the key of a valid signature verifies one of the signature. -/
theorem verifyComponent_of_verify {bundle : PublicKeyBundle} {msg : List UInt8}
    {signature : MultiSignature} (h : verify bundle msg signature = true) :
    ∀ pkComp ∈ bundle.components, ∃ sigComp, verifyComponent msg pkComp sigComp = true := by
  intro pkComp hmem
  unfold verify at h
  split at h
  · cases h
  · rw [Bool.and_eq_true, decide_eq_true_iff, List.all_eq_true] at h
    obtain ⟨hlength, hall⟩ := h
    rw [← List.map_fst_zip hlength.ge] at hmem
    obtain ⟨pair, hpair, rfl⟩ := List.mem_map.1 hmem
    exact ⟨pair.2, hall pair hpair⟩

/-- A registered combination has components, so a valid signature has a valid one. -/
theorem exists_verifyComponent {bundle : PublicKeyBundle} {msg : List UInt8}
    {signature : MultiSignature} (h : verify bundle msg signature = true) :
    ∃ pkComp sigComp, verifyComponent msg pkComp sigComp = true := by
  cases hb : bundle.components with
  | nil =>
    have hnone : comboFromComponents [] = none := by decide
    simp [verify, hb, hnone] at h
  | cons pkComp pkComps =>
    exact ⟨pkComp, verifyComponent_of_verify h pkComp (by simp [hb])⟩

/-- The domain tag of votes and vertex signatures, `VERTEX_VOTE_V1`. -/
def vertexVoteV1 : List UInt8 := asciiBytes "qchain-vertex-vote-v1"

/-- The vote preimage under its domain: the chain, then the vertex digest. -/
def vertexVoteMessage (chainId : Bytes32) (digest : Bytes32) : List UInt8 :=
  chainId.toBytes ++ digest.toBytes

/-- `verify_domain`: verification of `domain ‖ msg`. -/
def verifyDomain (domain msg : List UInt8)
    (signature : MultiSignature) : Bool :=
  verify bundle (domain ++ msg) signature

/-- A vote or vertex signature over a digest, valid on one chain only. -/
def verifyVertexVote (chainId digest : Bytes32)
    (signature : MultiSignature) : Bool :=
  verifyDomain bundle vertexVoteV1 (vertexVoteMessage chainId digest) signature

end Verify

end QChain
