import QChain.Core.Dag
import QChain.Data.BorshSize

/-!
# Transactions and batches

Transactions as they are signed, sent and hashed (`qchain-core/src/transaction.rs`), and the batches
of them that certificates refer to by digest. Execution looks at the message, at the size of the
whole encoding and at whether the signature verifies; consensus looks at the content hash only.
-/

namespace QChain

/-- `u64`. -/
abbrev U64 := Word 64

/-- `u128`. -/
abbrev U128 := Word 128

/-! ### Codecs of keys and signatures -/

namespace Bytes32

/-- The value with the given bytes, most significant first. -/
def ofBytes (bytes : List UInt8) : Bytes32 := Fin.ofNat (2 ^ 256) (ofLeBytes bytes.reverse)

@[simp] theorem length_toBytes (b : Bytes32) : b.toBytes.length = 32 := by
  rw [toBytes, List.length_reverse, length_toLeBytes]

@[simp] theorem ofBytes_toBytes (b : Bytes32) : ofBytes b.toBytes = b := by
  apply Fin.ext
  have hb : b.val < 256 ^ 32 := b.isLt
  have hval : (ofBytes b.toBytes).val = ofLeBytes b.toBytes.reverse % 2 ^ 256 := rfl
  rw [hval, toBytes, List.reverse_reverse, ofLeBytes_toLeBytes, Nat.mod_eq_of_lt hb]
  exact Nat.mod_eq_of_lt b.isLt

theorem toBytes_ofBytes {bytes : List UInt8} (h : bytes.length = 32) :
    (ofBytes bytes).toBytes = bytes := by
  have hlen : bytes.reverse.length = 32 := by rw [List.length_reverse, h]
  have hlt : ofLeBytes bytes.reverse < 2 ^ 256 := by
    have hbound := ofLeBytes_lt bytes.reverse
    rwa [hlen] at hbound
  have hval : (ofBytes bytes).val = ofLeBytes bytes.reverse := Nat.mod_eq_of_lt hlt
  rw [toBytes, hval, ← hlen, toLeBytes_ofLeBytes, List.reverse_reverse]

end Bytes32

/-- A `[u8; 32]` is its bytes. -/
instance : Borsh Bytes32 where
  encode b := some b.toBytes
  decode := (Decoder.take 32).map Bytes32.ofBytes

instance : LawfulBorsh Bytes32 where
  decode_encode {b front} rest h := by
    obtain rfl := Option.some_inj.1 h
    exact Decoder.map_eq_some.2
      ⟨_, Decoder.take_eq_some.2 ⟨b.length_toBytes, rfl⟩, b.ofBytes_toBytes⟩
  encode_decode {b bytes rest} h := by
    obtain ⟨front, htake, rfl⟩ := Decoder.map_eq_some.1 h
    obtain ⟨hlen, rfl⟩ := Decoder.take_eq_some.1 htake
    exact ⟨front, congrArg some (Bytes32.toBytes_ofBytes hlen), rfl⟩

instance : Borsh.FixedSize Bytes32 32 where
  exists_encode b := ⟨b.toBytes, rfl, b.length_toBytes⟩

instance : Borsh KeyComponent :=
  Borsh.iso (fun c => (c.scheme, c.bytes)) fun (scheme, bytes) => ⟨scheme, bytes⟩

instance : LawfulBorsh KeyComponent := Borsh.lawful_iso

instance : Borsh PublicKeyBundle := Borsh.iso PublicKeyBundle.components PublicKeyBundle.mk

instance : LawfulBorsh PublicKeyBundle := Borsh.lawful_iso

instance : Borsh MultiSignature := Borsh.iso MultiSignature.components MultiSignature.mk

/-! ### Messages -/

/-- A single instruction routed to a program. -/
structure Instruction where
  programId : Pubkey
  accounts : List Pubkey
  data : List UInt8
  deriving DecidableEq

instance : Borsh Instruction :=
  Borsh.iso (fun ix => (ix.programId, ix.accounts, ix.data))
    fun (programId, accounts, data) => ⟨programId, accounts, data⟩

instance : LawfulBorsh Instruction := Borsh.lawful_iso

/-- The signable payload of a transaction. -/
structure Message where
  version : UInt8
  payer : Pubkey
  payerKeys : PublicKeyBundle
  nonce : U64
  chainId : Bytes32
  feeLimit : U64
  priorityFee : U64
  validUntilRound : U64
  instructions : List Instruction
  deriving DecidableEq

instance : Borsh Message :=
  Borsh.iso
    (fun m => (m.version, m.payer, m.payerKeys, m.nonce, m.chainId, m.feeLimit, m.priorityFee,
      m.validUntilRound, m.instructions))
    fun (version, payer, payerKeys, nonce, chainId, feeLimit, priorityFee, validUntilRound,
      instructions) =>
      ⟨version, payer, payerKeys, nonce, chainId, feeLimit, priorityFee, validUntilRound,
        instructions⟩

instance : LawfulBorsh Message := Borsh.lawful_iso

/-- A message and the signature of its payer. -/
structure Transaction where
  message : Message
  signature : MultiSignature
  deriving DecidableEq

instance : Borsh Transaction :=
  Borsh.iso (fun tx => (tx.message, tx.signature))
    fun (message, signature) => ⟨message, signature⟩

/-- The only transaction format version a node executes. -/
def currentTxVersion : UInt8 := 1

/-- The domain tag of transaction signatures, `TX_SIG_V1`. -/
def txSigV1 : List UInt8 := asciiBytes "qchain-tx-sig-v1"

/-- The scheme and the bytes of each component, one after the other. -/
def componentBytes (components : List KeyComponent) : List UInt8 :=
  components.flatMap fun c => toLeBytes 2 c.scheme.toNat ++ c.bytes

/-- Where the scheme of a component determines its length, the components can be read back. -/
theorem eq_of_componentBytes_eq {len : AlgorithmId → ℕ} {cs ds : List KeyComponent}
    (hcs : ∀ c ∈ cs, c.bytes.length = len c.scheme) (hds : ∀ d ∈ ds, d.bytes.length = len d.scheme)
    (h : componentBytes cs = componentBytes ds) : cs = ds := by
  induction cs generalizing ds with
  | nil =>
    cases ds with
    | nil => rfl
    | cons d ds => simp [componentBytes, toLeBytes] at h
  | cons c cs ih =>
    cases ds with
    | nil => simp [componentBytes, toLeBytes] at h
    | cons d ds =>
      obtain ⟨scheme, bytes⟩ := c
      obtain ⟨scheme', bytes'⟩ := d
      simp only [componentBytes, List.flatMap_cons, List.append_assoc] at h
      obtain ⟨hscheme, hrest⟩ := List.append_inj h (by simp only [length_toLeBytes])
      obtain rfl : scheme = scheme' :=
        UInt16.toNat_inj.1 (toLeBytes_inj scheme.toNat_lt scheme'.toNat_lt hscheme)
      obtain ⟨hlen, hcs⟩ := List.forall_mem_cons.1 hcs
      obtain ⟨hlen', hds'⟩ := List.forall_mem_cons.1 hds
      obtain ⟨rfl, htail⟩ := List.append_inj hrest (hlen.trans hlen'.symm)
      rw [ih hcs hds' htail]

variable [Crypto]

/-- `PublicKeyBundle::to_address`. -/
def PublicKeyBundle.toAddress (bundle : PublicKeyBundle) : Pubkey :=
  Crypto.sha3 (componentBytes bundle.components)

/-- An address binds every component: two keys that both verify signatures and have the same
address are equal. -/
theorem PublicKeyBundle.eq_of_toAddress_eq {mlDsa slhDsa : ℕ}
    (hmlDsa : ∀ key msg sig,
      Crypto.verifyMlDsa65Component key msg sig = true → key.length = mlDsa)
    (hslhDsa : ∀ key msg sig,
      Crypto.verifySlhDsaComponent key msg sig = true → key.length = slhDsa)
    {bundle bundle' : PublicKeyBundle}
    (hsha : Set.InjOn Crypto.sha3
      {componentBytes bundle.components, componentBytes bundle'.components})
    (haddress : bundle.toAddress = bundle'.toAddress) {msg msg' : List UInt8}
    {signature signature' : MultiSignature} (h : verify bundle msg signature = true)
    (h' : verify bundle' msg' signature' = true) : bundle = bundle' := by
  let len (scheme : AlgorithmId) :=
    if scheme = algorithmEd25519 then 32 else if scheme = algorithmMlDsa65 then mlDsa else slhDsa
  have hlen : ∀ {bundle msg signature}, verify bundle msg signature = true →
      ∀ c ∈ bundle.components, c.bytes.length = len c.scheme := by
    intro bundle msg signature h c hc
    obtain ⟨sigComp, hverify⟩ := verifyComponent_of_verify h c hc
    unfold verifyComponent at hverify
    unfold len
    split_ifs at hverify ⊢
    · simp_all
    · exact hmlDsa _ _ _ hverify
    · exact hslhDsa _ _ _ hverify
  have hbytes := hsha (.inl rfl) (.inr rfl) haddress
  exact congrArg mk (eq_of_componentBytes_eq (hlen h) (hlen h') hbytes)

/-- Keys of the lengths that the two schemes have. -/
def fullBundle : PublicKeyBundle :=
  ⟨[⟨1, (List.range 32).map UInt8.ofNat⟩, ⟨2, (List.range 1952).map UInt8.ofNat⟩]⟩

/-- Signatures of the lengths that the two schemes have. -/
def fullSignature (byte : UInt8) : MultiSignature :=
  ⟨[⟨1, List.replicate 64 byte⟩, ⟨2, List.replicate 3309 byte⟩]⟩

/-- Whether a signature of the given length is one of two that were made. -/
def signedTwice (length : ℕ) (msg sig : List UInt8) : Bool :=
  (msg, sig) ∈ [(asciiBytes "first", List.replicate length 1),
    (asciiBytes "second", List.replicate length 2)]

/-- SHA3-256, and signatures over two messages by keys of the right lengths. -/
@[reducible] def twoMessages : Crypto where
  sha3 := sha3
  verifyEd25519Component key msg sig := key.length = 32 && signedTwice 64 msg sig
  verifyMlDsa65Component key msg sig := key.length = 1952 && signedTwice 3309 msg sig
  verifySlhDsaComponent _ _ _ := false

omit [Crypto] in
/-- A bundle and its copy read from the wire have one address, and each verifies a signature. -/
theorem PublicKeyBundle.eq_of_toAddress_eq_received : let _ := twoMessages
    ∃ keys, (Borsh.toVec fullBundle).bind Borsh.fromSlice = some keys ∧
      keys.toAddress = 0x95358e390e11c4d803ffdb0babe1a7f47769de64b5386b405173b05d1670dca3 ∧
      fullBundle.toAddress = 0x95358e390e11c4d803ffdb0babe1a7f47769de64b5386b405173b05d1670dca3 ∧
      verify keys (asciiBytes "first") (fullSignature 1) = true ∧
      verify fullBundle (asciiBytes "second") (fullSignature 2) = true ∧ keys = fullBundle := by
  intro crypto
  obtain ⟨keys, hread, hbytes, haddress, hverify⟩ : ∃ keys : PublicKeyBundle,
      keys ∈ (Borsh.toVec fullBundle).bind Borsh.fromSlice ∧
      componentBytes keys.components = componentBytes fullBundle.components ∧
      keys.toAddress = 0x95358e390e11c4d803ffdb0babe1a7f47769de64b5386b405173b05d1670dca3 ∧
      verify keys (asciiBytes "first") (fullSignature 1) = true := by
    decide +kernel
  have haddress' : fullBundle.toAddress =
      0x95358e390e11c4d803ffdb0babe1a7f47769de64b5386b405173b05d1670dca3 := by
    decide +kernel
  have hverify' : verify fullBundle (asciiBytes "second") (fullSignature 2) = true := by
    decide +kernel
  refine ⟨keys, hread, haddress, haddress', hverify, hverify', ?_⟩
  refine @PublicKeyBundle.eq_of_toAddress_eq crypto 1952 32 ?_ (by simp) keys fullBundle ?_
    (haddress.trans haddress'.symm) _ _ _ _ hverify hverify'
  · intro key msg sig h
    exact of_decide_eq_true (Bool.and_eq_true_iff.1 h).1
  · rw [hbytes, Set.pair_eq_singleton]
    exact Set.injOn_singleton _ _

namespace Transaction

variable (tx : Transaction)

/-- The key bundle is that of the payer, and every component of the signature verifies. -/
def verifySignature : Bool :=
  if tx.message.payerKeys.toAddress ≠ tx.message.payer then
    false
  else
    match Borsh.toVec tx.message with
    | some bytes => verifyDomain tx.message.payerKeys txSigV1 bytes tx.signature
    | none => false

/-- The registered combination the payer's key bundle resolves to. -/
def resolvedCombo : Option AlgorithmId :=
  comboFromComponents (tx.message.payerKeys.components.map (·.scheme))

/-- The byte string the content hash is taken of: the message if it has an encoding, and the
components of the signature. -/
def hashInput : List UInt8 :=
  (Borsh.toVec tx.message).getD [] ++ componentBytes tx.signature.components

/-- The content hash of message and signature. -/
def hash : Digest := Crypto.sha3 tx.hashInput

/-- The size of the whole encoding, which fees and caps are computed from. -/
def byteSize : ℕ := ((Borsh.toVec tx).map List.length).getD 0

end Transaction

/-- A batch of transactions a worker disseminates. -/
structure Batch where
  transactions : List Transaction
  deriving DecidableEq

/-- The byte string a batch digest is the hash of. -/
def Batch.preimage (batch : Batch) : List UInt8 :=
  toLeBytes 8 batch.transactions.length ++
    batch.transactions.flatMap fun tx => tx.hash.toBytes

/-- `Batch::digest`. -/
def Batch.digest (batch : Batch) : Digest := Crypto.sha3 batch.preimage

end QChain
