import QChain.Data.BorshSize
import QChain.Execution.Staking
import QChain.Execution.StakingV7

/-!
# The v7 validator program

Bonded validators and the life of their keys (`qchain-execution/src/validator_v7.rs`). Changes of
operator, withdrawal address and recovery committee are applied after a time-lock, and a recovery
committee can freeze or revoke the validator. A registry that an instruction does not name reads as
empty.
-/

namespace QChain

open Transact Exec

/-! ### Constants -/

/-- `MAX_V7_VALIDATORS`. -/
def maxV7Validators : ℕ := 1000

/-- `MAX_ACTIVE_V7_VALIDATORS`. -/
def maxActiveV7Validators : ℕ := 100

/-- `MAX_RETIRED_CONSENSUS_KEYS`. -/
def maxRetiredConsensusKeys : ℕ := 4

/-- `MAX_RECOVERY_SIGNERS`. -/
def maxRecoverySigners : ℕ := 15

/-- `MAX_KM_AUDIT_ENTRIES`. -/
def maxKmAuditEntries : ℕ := 256

/-- `VALIDATOR_BOND_ATOMS`. -/
def validatorBondAtoms : U64 := Word.ofNat (500 * unitsPerQch)

/-- `VALIDATOR_BOND_UNBONDING_QUANTOS`. -/
def validatorBondUnbondingQuantos : ℕ := 1

/-- `SLASH_EVIDENCE_WINDOW_QUANTOS`. -/
def slashEvidenceWindowQuantos : ℕ := 1

/-- `VALIDATOR_POP_V1`. -/
def validatorPopV1 : List UInt8 := asciiBytes "qchain-v7-validator-pop-v1"

/-- `RECOVERY_AUTH_V1`. -/
def recoveryAuthV1 : List UInt8 := asciiBytes "qchain-v7-recovery-auth-v1"

/-- `KEY_ROTATION_ACCEPT_V1`. -/
def keyRotationAcceptV1 : List UInt8 := asciiBytes "qchain-v7-key-rotation-accept-v1"

/-- `KM_AUDIT_V1`. -/
def kmAuditV1 : List UInt8 := asciiBytes "qchain-km-audit-v1"

/-! ### Monikers -/

/-- The characters `str::trim` removes, as bytes. -/
def whitespace : List (List UInt8) :=
  ([9, 10, 11, 12, 13, 32] : List UInt8).map (fun b => [b]) ++
    [[0xC2, 0x85], [0xC2, 0xA0], [0xE1, 0x9A, 0x80], [0xE2, 0x80, 0xA8], [0xE2, 0x80, 0xA9],
      [0xE2, 0x80, 0xAF], [0xE2, 0x81, 0x9F], [0xE3, 0x80, 0x80]] ++
    ([0x80, 0x81, 0x82, 0x83, 0x84, 0x85, 0x86, 0x87, 0x88, 0x89, 0x8A] : List UInt8).map
      (fun b => [0xE2, 0x80, b])

/-- Removes characters of a list from the front, at most as often as there are bytes. -/
def trimFront (chars : List (List UInt8)) : ℕ → List UInt8 → List UInt8
  | 0, bytes => bytes
  | n + 1, bytes =>
    match chars.find? fun c => c.isPrefixOf bytes with
    | some c => trimFront chars n (bytes.drop c.length)
    | none => bytes

/-- `str::trim`. -/
def trim (text : List UInt8) : List UInt8 :=
  let front := trimFront whitespace text.length text
  (trimFront (whitespace.map List.reverse) front.length front.reverse).reverse

/-- `normalize_moniker`: without white space around it, in lower case. -/
def normalizeMoniker (moniker : List UInt8) : List UInt8 :=
  (trim moniker).map fun b => if byteIn 65 90 b then b + 32 else b

/-- `RESERVED_MONIKERS`. -/
def reservedMonikers : List (List UInt8) :=
  ["qchain", "genesis", "validator", "system", "faucet", "admin", "root", "staking",
    "governance"].map asciiBytes

/-- `moniker_is_valid`. Every byte is a character of its own here, so counting bytes is
counting characters. -/
def monikerIsValid (normalized : List UInt8) : Bool :=
  3 ≤ normalized.length && normalized.length ≤ 32 &&
    normalized.all (fun b => byteIn 97 122 b || byteIn 48 57 b || b = 45 || b = 95) &&
    !reservedMonikers.contains normalized

/-! ### Recovery committees -/

/-- `RecoveryConfig`. -/
structure RecoveryConfig where
  signers : List Pubkey
  threshold : UInt8
  deriving DecidableEq

namespace RecoveryConfig

instance : Borsh RecoveryConfig :=
  Borsh.iso (fun c => (c.signers, c.threshold)) fun (signers, threshold) => ⟨signers, threshold⟩

instance : LawfulBorsh RecoveryConfig := Borsh.lawful_iso

/-- `RecoveryConfig::validate`. -/
def validate (config : RecoveryConfig) : Exec Unit := do
  let n := config.signers.length
  let threshold := config.threshold
  check (0 < n ∧ n ≤ maxRecoverySigners)
    (.programError s!"recovery signers count {n} out of range 1..={maxRecoverySigners}")
  check (threshold ≠ 0 ∧ threshold.toNat ≤ n)
    (.programError s!"recovery threshold {threshold} out of range 1..={n}")
  check config.signers.Nodup (.programError "recovery signers must be distinct")

/-- The configuration that removes a committee. -/
def isClearing (config : RecoveryConfig) : Bool :=
  config.signers = [] ∧ config.threshold = 0

end RecoveryConfig

/-- `RecoveryEntry`. -/
structure RecoveryEntry where
  consensusAddress : Pubkey
  config : RecoveryConfig
  nonce : U64
  deriving DecidableEq

instance : Borsh RecoveryEntry :=
  Borsh.iso (fun e => (e.consensusAddress, e.config, e.nonce))
    fun (consensusAddress, config, nonce) => ⟨consensusAddress, config, nonce⟩

instance : LawfulBorsh RecoveryEntry := Borsh.lawful_iso

/-- `RecoveryRegistry`. -/
structure RecoveryRegistry where
  entries : List RecoveryEntry
  deriving DecidableEq

namespace RecoveryRegistry

instance : Borsh RecoveryRegistry := Borsh.iso RecoveryRegistry.entries mk

instance : LawfulBorsh RecoveryRegistry := Borsh.lawful_iso

instance : Inhabited RecoveryRegistry := ⟨⟨[]⟩⟩

/-- `RecoveryRegistry::find`. -/
def find (r : RecoveryRegistry) (addr : Pubkey) : Option ℕ :=
  r.entries.findIdx? fun e => e.consensusAddress = addr

end RecoveryRegistry

/-- `RecoveryApproval`. -/
structure RecoveryApproval where
  bundle : PublicKeyBundle
  signature : MultiSignature
  deriving DecidableEq

/-- `RecoveryOp`. -/
inductive RecoveryOp
  | revoke
  | freeze (untilQuanto : U64)
  | unfreeze
  | setExpiry (untilQuanto : U64)
  deriving DecidableEq

namespace RecoveryOp

/-- `RecoveryOp::tag`. -/
def tag : RecoveryOp → UInt8
  | revoke => 1
  | freeze _ => 2
  | unfreeze => 3
  | setExpiry _ => 4

/-- `RecoveryOp::param`. -/
def param : RecoveryOp → U64
  | freeze untilQuanto | setExpiry untilQuanto => untilQuanto
  | revoke | unfreeze => 0

/-- The decoder of an operation. -/
def decode : Decoder RecoveryOp :=
  Decoder.variants
    [ (Borsh.decode : Decoder Unit).map fun _ => revoke,
      (Borsh.decode : Decoder U64).map freeze,
      (Borsh.decode : Decoder Unit).map fun _ => unfreeze,
      (Borsh.decode : Decoder U64).map setExpiry ]

end RecoveryOp

/-- `recovery_message`. -/
def recoveryMessage (chainId : Bytes32) (consensusAddress : Pubkey) (op : RecoveryOp)
    (nonce : U64) : List UInt8 :=
  chainId.toBytes ++ consensusAddress.toBytes ++ [op.tag] ++ toLeBytes 8 op.param ++
    toLeBytes 8 nonce

/-! ### Pending key changes -/

/-- `KeyChangeKind`. -/
inductive KeyChangeKind
  | operator
  | withdrawal
  | recoveryCommittee
  deriving DecidableEq

/-- The decoder of a kind. -/
def KeyChangeKind.decode : Decoder KeyChangeKind :=
  Decoder.variants
    ([KeyChangeKind.operator, .withdrawal, .recoveryCommittee].map
      fun kind bytes => some (kind, bytes))

/-- `PendingKeyChange`. -/
inductive PendingKeyChange
  | operator (address : Pubkey)
  | withdrawal (address : Pubkey)
  | recoveryCommittee (config : RecoveryConfig)
  deriving DecidableEq

namespace PendingKeyChange

/-- The tag of a change. -/
def tag : PendingKeyChange → UInt8
  | operator _ => 0
  | withdrawal _ => 1
  | recoveryCommittee _ => 2

/-- The payload of a change. -/
def payload : PendingKeyChange → Option (List UInt8)
  | operator address => Borsh.encode address
  | withdrawal address => Borsh.encode address
  | recoveryCommittee config => Borsh.encode config

/-- The decoder of the payload behind a tag. -/
def variant (t : UInt8) : Decoder PendingKeyChange :=
  if t = 0 then (Borsh.decode : Decoder Pubkey).map operator
  else if t = 1 then (Borsh.decode : Decoder Pubkey).map withdrawal
  else if t = 2 then (Borsh.decode : Decoder RecoveryConfig).map recoveryCommittee
  else fun _ => none

instance : Borsh PendingKeyChange := Borsh.tagged tag payload variant

instance : LawfulBorsh PendingKeyChange := by
  apply Borsh.lawful_tagged
  · intro a front rest h
    cases a <;> simp [variant, tag, Decoder.map, LawfulBorsh.decode_encode rest h]
  · intro t a bytes rest h
    unfold variant at h
    split_ifs at h with h0 h1 h2
    all_goals
      obtain ⟨p, hp, rfl⟩ := Decoder.map_eq_some.1 h
      exact ⟨by subst t; rfl, LawfulBorsh.encode_decode hp⟩

/-- `PendingKeyChange::kind`. -/
def kind : PendingKeyChange → KeyChangeKind
  | operator _ => .operator
  | withdrawal _ => .withdrawal
  | recoveryCommittee _ => .recoveryCommittee

/-- `PendingKeyChange::window_quantos`: the time-lock of each kind of change. -/
def windowQuantos (change : PendingKeyChange) : ℕ :=
  match change.kind with
  | .operator => 1
  | .withdrawal => 3
  | .recoveryCommittee => 7

end PendingKeyChange

/-- `PendingKeyChangeEntry`. -/
structure PendingKeyChangeEntry where
  consensusAddress : Pubkey
  proposedQuanto : U64
  readyQuanto : U64
  change : PendingKeyChange
  deriving DecidableEq

instance : Borsh PendingKeyChangeEntry :=
  Borsh.iso (fun e => (e.consensusAddress, e.proposedQuanto, e.readyQuanto, e.change))
    fun (consensusAddress, proposedQuanto, readyQuanto, change) =>
      ⟨consensusAddress, proposedQuanto, readyQuanto, change⟩

instance : LawfulBorsh PendingKeyChangeEntry := Borsh.lawful_iso

/-- `KeyTimelockRegistry`. -/
structure KeyTimelockRegistry where
  pending : List PendingKeyChangeEntry
  deriving DecidableEq

namespace KeyTimelockRegistry

instance : Borsh KeyTimelockRegistry := Borsh.iso KeyTimelockRegistry.pending mk

instance : LawfulBorsh KeyTimelockRegistry := Borsh.lawful_iso

instance : Inhabited KeyTimelockRegistry := ⟨⟨[]⟩⟩

/-- `KeyTimelockRegistry::find`. -/
def find (tl : KeyTimelockRegistry) (addr : Pubkey) (kind : KeyChangeKind) : Option ℕ :=
  tl.pending.findIdx? fun p => p.consensusAddress = addr ∧ p.change.kind = kind

/-- `KeyTimelockRegistry::purge`. -/
def purge (tl : KeyTimelockRegistry) (addr : Pubkey) : KeyTimelockRegistry :=
  ⟨tl.pending.filter fun p => p.consensusAddress ≠ addr⟩

end KeyTimelockRegistry

/-- `PendingConsensusRotation`. -/
structure PendingConsensusRotation where
  consensusAddress : Pubkey
  newBundle : PublicKeyBundle
  newP2pAddress : Utf8
  proposedQuanto : U64
  deriving DecidableEq

instance : Borsh PendingConsensusRotation :=
  Borsh.iso (fun e => (e.consensusAddress, e.newBundle, e.newP2pAddress, e.proposedQuanto))
    fun (consensusAddress, newBundle, newP2pAddress, proposedQuanto) =>
      ⟨consensusAddress, newBundle, newP2pAddress, proposedQuanto⟩

instance : LawfulBorsh PendingConsensusRotation := Borsh.lawful_iso

/-- `ConsensusRotationRegistry`. -/
structure ConsensusRotationRegistry where
  pending : List PendingConsensusRotation
  deriving DecidableEq

namespace ConsensusRotationRegistry

instance : Borsh ConsensusRotationRegistry := Borsh.iso ConsensusRotationRegistry.pending mk

instance : LawfulBorsh ConsensusRotationRegistry := Borsh.lawful_iso

instance : Inhabited ConsensusRotationRegistry := ⟨⟨[]⟩⟩

/-- `ConsensusRotationRegistry::find`. -/
def find (cr : ConsensusRotationRegistry) (addr : Pubkey) : Option ℕ :=
  cr.pending.findIdx? fun p => p.consensusAddress = addr

/-- `ConsensusRotationRegistry::purge`. -/
def purge (cr : ConsensusRotationRegistry) (addr : Pubkey) : ConsensusRotationRegistry :=
  ⟨cr.pending.filter fun p => p.consensusAddress ≠ addr⟩

end ConsensusRotationRegistry

/-- `rotation_accept_message`. -/
def rotationAcceptMessage (consensusAddress newBundleAddress : Pubkey) : List UInt8 :=
  consensusAddress.toBytes ++ newBundleAddress.toBytes

/-! ### The registry of validators -/

/-- `ValidatorV7State`. -/
inductive ValidatorV7State
  | bondedPending
  | active
  | jailed
  | exiting
  | unbonding
  | withdrawable
  | slashed
  | removed
  | revoked
  deriving DecidableEq

namespace ValidatorV7State

/-- The tag of a state. -/
def tag : ValidatorV7State → UInt8
  | bondedPending => 0
  | active => 1
  | jailed => 2
  | exiting => 3
  | unbonding => 4
  | withdrawable => 5
  | slashed => 6
  | removed => 7
  | revoked => 8

instance : Borsh ValidatorV7State :=
  Borsh.ofTags tag
    [bondedPending, active, jailed, exiting, unbonding, withdrawable, slashed, removed, revoked]

instance : LawfulBorsh ValidatorV7State :=
  Borsh.lawful_ofTags (fun a => by cases a <;> rfl) rfl

instance : Borsh.FixedSize ValidatorV7State 1 := Borsh.fixedSize_ofTags

end ValidatorV7State

/-- `RetiredConsensusKey`. -/
structure RetiredConsensusKey where
  address : Pubkey
  slashUntilQuanto : U64
  deriving DecidableEq

instance : Borsh RetiredConsensusKey :=
  Borsh.iso (fun k => (k.address, k.slashUntilQuanto))
    fun (address, slashUntilQuanto) => ⟨address, slashUntilQuanto⟩

instance : LawfulBorsh RetiredConsensusKey := Borsh.lawful_iso

/-- `ValidatorV7Entry`. -/
structure ValidatorV7Entry where
  address : Pubkey
  operatorAddress : Pubkey
  withdrawalAddress : Pubkey
  moniker : Utf8
  pubkeyBundle : PublicKeyBundle
  p2pAddress : Utf8
  bond : U64
  state : ValidatorV7State
  registeredQuanto : U64
  activationQuanto : U64
  exitRequestedQuanto : U64
  bondReleaseQuanto : U64
  participationCredits : U64
  participationOpportunities : U64
  consensusKeyExpiryQuanto : U64
  consensusKeyRevoked : Bool
  retiredConsensusKeys : List RetiredConsensusKey
  frozenUntilQuanto : U64
  deriving DecidableEq

namespace ValidatorV7Entry

instance : Borsh ValidatorV7Entry :=
  Borsh.iso
    (fun e => (e.address, e.operatorAddress, e.withdrawalAddress, e.moniker, e.pubkeyBundle,
      e.p2pAddress, e.bond, e.state, e.registeredQuanto, e.activationQuanto,
      e.exitRequestedQuanto, e.bondReleaseQuanto, e.participationCredits,
      e.participationOpportunities, e.consensusKeyExpiryQuanto, e.consensusKeyRevoked,
      e.retiredConsensusKeys, e.frozenUntilQuanto))
    fun (address, operatorAddress, withdrawalAddress, moniker, pubkeyBundle, p2pAddress, bond,
      state, registeredQuanto, activationQuanto, exitRequestedQuanto, bondReleaseQuanto,
      participationCredits, participationOpportunities, consensusKeyExpiryQuanto,
      consensusKeyRevoked, retiredConsensusKeys, frozenUntilQuanto) =>
      ⟨address, operatorAddress, withdrawalAddress, moniker, pubkeyBundle, p2pAddress, bond,
        state, registeredQuanto, activationQuanto, exitRequestedQuanto, bondReleaseQuanto,
        participationCredits, participationOpportunities, consensusKeyExpiryQuanto,
        consensusKeyRevoked, retiredConsensusKeys, frozenUntilQuanto⟩

instance : LawfulBorsh ValidatorV7Entry := Borsh.lawful_iso

/-- `ValidatorV7EntryV3`: the format without the freeze. -/
def decodeV3 : Decoder ValidatorV7Entry :=
  (Borsh.decode : Decoder (Pubkey × Pubkey × Pubkey × Utf8 × PublicKeyBundle × Utf8 × U64 ×
    ValidatorV7State × U64 × U64 × U64 × U64 × U64 × U64 × U64 × Bool ×
    List RetiredConsensusKey)).map
    fun (address, operatorAddress, withdrawalAddress, moniker, pubkeyBundle, p2pAddress, bond,
      state, registeredQuanto, activationQuanto, exitRequestedQuanto, bondReleaseQuanto,
      participationCredits, participationOpportunities, consensusKeyExpiryQuanto,
      consensusKeyRevoked, retiredConsensusKeys) =>
      ⟨address, operatorAddress, withdrawalAddress, moniker, pubkeyBundle, p2pAddress, bond,
        state, registeredQuanto, activationQuanto, exitRequestedQuanto, bondReleaseQuanto,
        participationCredits, participationOpportunities, consensusKeyExpiryQuanto,
        consensusKeyRevoked, retiredConsensusKeys, 0⟩

/-- `ValidatorV7EntryV2`: the format before the key roles. -/
def decodeV2 : Decoder ValidatorV7Entry :=
  (Borsh.decode : Decoder (Pubkey × Pubkey × Pubkey × Utf8 × PublicKeyBundle × Utf8 × U64 ×
    ValidatorV7State × U64 × U64 × U64 × U64 × U64 × U64)).map
    fun (address, operatorAddress, withdrawalAddress, moniker, pubkeyBundle, p2pAddress, bond,
      state, registeredQuanto, activationQuanto, exitRequestedQuanto, bondReleaseQuanto,
      participationCredits, participationOpportunities) =>
      ⟨address, operatorAddress, withdrawalAddress, moniker, pubkeyBundle, p2pAddress, bond,
        state, registeredQuanto, activationQuanto, exitRequestedQuanto, bondReleaseQuanto,
        participationCredits, participationOpportunities, 0, false, [], 0⟩

/-- `ValidatorV7EntryV1`: the format with one address for all roles. -/
def decodeV1 : Decoder ValidatorV7Entry :=
  (Borsh.decode : Decoder (Pubkey × Utf8 × PublicKeyBundle × Utf8 × U64 × ValidatorV7State ×
    U64 × U64 × U64 × U64 × U64 × U64)).map
    fun (address, moniker, pubkeyBundle, p2pAddress, bond, state, registeredQuanto,
      activationQuanto, exitRequestedQuanto, bondReleaseQuanto, participationCredits,
      participationOpportunities) =>
      ⟨address, address, address, moniker, pubkeyBundle, p2pAddress, bond, state,
        registeredQuanto, activationQuanto, exitRequestedQuanto, bondReleaseQuanto,
        participationCredits, participationOpportunities, 0, false, [], 0⟩

variable (e : ValidatorV7Entry)

/-- `ValidatorV7Entry::is_frozen`. -/
def isFrozen (currentQuanto : U64) : Bool :=
  (e.frozenUntilQuanto : ℕ) ≠ 0 ∧ currentQuanto < e.frozenUntilQuanto

/-- `ValidatorV7Entry::consensus_key_disabled`. -/
def consensusKeyDisabled (currentQuanto : U64) : Bool :=
  e.consensusKeyRevoked ||
    ((e.consensusKeyExpiryQuanto : ℕ) ≠ 0 ∧ e.consensusKeyExpiryQuanto ≤ currentQuanto) ||
    e.isFrozen currentQuanto

/-- `ValidatorV7Entry::participation_bps`. -/
def participationBps : ℕ :=
  if (e.participationOpportunities : ℕ) = 0 then 10000
  else min ((e.participationCredits : ℕ) * 10000 / e.participationOpportunities) 10000

/-- The index of the first key that stops being slashable soonest. -/
def soonestRetired (keys : List RetiredConsensusKey) : Option ℕ :=
  keys.findIdx? fun k => ∀ k' ∈ keys, k.slashUntilQuanto ≤ k'.slashUntilQuanto

/-- `ValidatorV7Entry::retire_consensus_key`. -/
def retireConsensusKey (old : Pubkey) (currentQuanto : U64)
    (slashWindow : ℕ) : ValidatorV7Entry :=
  let keys := e.retiredConsensusKeys.filter (fun k => currentQuanto < k.slashUntilQuanto) ++
    [⟨old, Word.clamp (currentQuanto + slashWindow)⟩]
  { e with
    retiredConsensusKeys :=
      if maxRetiredConsensusKeys < keys.length then
        keys.eraseIdx ((soonestRetired keys).getD keys.length)
      else keys }

end ValidatorV7Entry

/-- `ActiveV7Member`. -/
structure ActiveV7Member where
  address : Pubkey
  pubkeyBundle : PublicKeyBundle
  p2pAddress : Utf8
  bond : U64
  deriving DecidableEq

/-- `ValidatorV7Registry`. -/
structure ValidatorV7Registry where
  validators : List ValidatorV7Entry
  deriving DecidableEq

namespace ValidatorV7Registry

instance : Borsh ValidatorV7Registry := Borsh.iso ValidatorV7Registry.validators mk

instance : LawfulBorsh ValidatorV7Registry := Borsh.lawful_iso

instance : Inhabited ValidatorV7Registry := ⟨⟨[]⟩⟩

/-- `decode_registry`: the current format, or the latest earlier one that fits. -/
def decodeRegistry (data : List UInt8) : Option ValidatorV7Registry :=
  (Borsh.fromSlice data).or <|
    [ValidatorV7Entry.decodeV3, ValidatorV7Entry.decodeV2, ValidatorV7Entry.decodeV1].findSome?
      fun d => (d.vec.map mk).all data

variable (reg : ValidatorV7Registry)

/-- `ValidatorV7Registry::find`. -/
def find (addr : Pubkey) : Option ℕ :=
  reg.validators.findIdx? fun v => v.address = addr

/-- `ValidatorV7Registry::find_slashable`: by current key, or by a key retired not too long
ago. -/
def findSlashable (author : Pubkey) (currentQuanto : U64) :
    Option ℕ :=
  (reg.find author).or <| reg.validators.findIdx? fun v =>
    v.retiredConsensusKeys.any fun k => k.address = author ∧ currentQuanto ≤ k.slashUntilQuanto

/-- `active_committee`: the active validators with a full bond and a key in force, in the order of
their addresses. -/
def activeCommittee (currentQuanto : U64) : List ActiveV7Member :=
  let members := (reg.validators.filter fun v =>
    v.state = .active && v.activationQuanto ≤ currentQuanto &&
      (v.bond : ℕ) = validatorBondAtoms && !v.consensusKeyDisabled currentQuanto).map fun v =>
    (⟨v.address, v.pubkeyBundle, v.p2pAddress, v.bond⟩ : ActiveV7Member)
  (members.insertionSort fun a b => a.address ≤ b.address).take maxActiveV7Validators

/-- `jail_inactive`: active validators that were due and took no part. -/
def jailInactive : ValidatorV7Registry :=
  ⟨reg.validators.map fun v =>
    if v.state = .active ∧ 0 < (v.participationOpportunities : ℕ) ∧
        (v.participationCredits : ℕ) = 0 then
      { v with state := .jailed }
    else v⟩

/-- `ValidatorV7Registry::moniker_taken`. -/
def monikerTaken (moniker : List UInt8) (except : Pubkey) : Bool :=
  reg.validators.any fun v =>
    v.moniker.bytes = moniker ∧ v.state ≠ .removed ∧ v.address ≠ except

/-- `ValidatorV7Registry::addresses_in_use`. -/
def addressInUse (except addr : Pubkey) : Bool :=
  reg.validators.any fun v =>
    v.state ≠ .removed ∧ v.address ≠ except ∧
      (addr = v.address ∨ addr = v.operatorAddress ∨ addr = v.withdrawalAddress)

end ValidatorV7Registry

/-! ### The audit log -/

/-- `KmAuditEntry`. -/
structure KmAuditEntry where
  seq : U64
  prevHash : Bytes32
  event : UInt8
  consensusAddress : Pubkey
  quanto : U64
  detail : U64
  entryHash : Bytes32
  deriving DecidableEq

instance : Borsh KmAuditEntry :=
  Borsh.iso
    (fun e => (e.seq, e.prevHash, e.event, e.consensusAddress, e.quanto, e.detail, e.entryHash))
    fun (seq, prevHash, event, consensusAddress, quanto, detail, entryHash) =>
      ⟨seq, prevHash, event, consensusAddress, quanto, detail, entryHash⟩

instance : LawfulBorsh KmAuditEntry := Borsh.lawful_iso

/-- `KmAuditLog`. -/
structure KmAuditLog where
  headHash : Bytes32
  count : U64
  entries : List KmAuditEntry
  deriving DecidableEq

namespace KmAuditLog

instance : Borsh KmAuditLog :=
  Borsh.iso (fun l => (l.headHash, l.count, l.entries))
    fun (headHash, count, entries) => ⟨headHash, count, entries⟩

instance : LawfulBorsh KmAuditLog := Borsh.lawful_iso

instance : Inhabited KmAuditLog := ⟨⟨0, 0, []⟩⟩

variable [Crypto]

/-- `km_audit_entry_hash`. -/
def entryHash (prevHash : Bytes32) (seq : U64) (event : UInt8) (addr : Pubkey)
    (quanto detail : U64) : Bytes32 :=
  Crypto.sha3 (kmAuditV1 ++ prevHash.toBytes ++ toLeBytes 8 seq ++ [event] ++ addr.toBytes ++
    toLeBytes 8 quanto ++ toLeBytes 8 detail)

/-- `KmAuditLog::append`: the oldest entries are dropped. -/
def append (log : KmAuditLog) (event : UInt8) (addr : Pubkey) (quanto detail : U64) :
    KmAuditLog :=
  let hash := entryHash log.headHash log.count event addr quanto detail
  let entries := log.entries ++ [⟨log.count, log.headHash, event, addr, quanto, detail, hash⟩]
  { headHash := hash
    count := Word.clamp (log.count + 1)
    entries := entries.drop (entries.length - maxKmAuditEntries) }

end KmAuditLog

/-! ### Reading and writing the registries -/

/-- `read_registry`: a registry that does not decode stops the node. -/
def readRegistryV7 : Exec ValidatorV7Registry := do
  match ← find validatorRegistryAccountId with
  | none => pure default
  | some account => expect (ValidatorV7Registry.decodeRegistry account.data)

/-- The value in an account that is made by its first write; data that does not decode stops
the node. -/
def readLazy {α : Type} [Inhabited α] [Borsh α] (k : Pubkey) : Exec α := do
  match ← find k with
  | none => pure default
  | some account =>
    if account.data = [] then pure default else expect (Borsh.fromSlice account.data)

/-- Writes a value into the data of an account, made for the staking program if it is not
there. -/
def writeLazy {α : Type} [Borsh α] (k : Pubkey) (a : α) : Exec Unit := do
  let account := (← get).getOrNew k stakingProgramId
  put k { account with data := ← toData a }

/-- `write_registry`. -/
def writeRegistryV7 (reg : ValidatorV7Registry) : Exec Unit :=
  writeLazy validatorRegistryAccountId reg

/-- `read_recovery_registry`. -/
def readRecoveryRegistry : Exec RecoveryRegistry := readLazy validatorRecoveryRegistryId

/-- `write_recovery_registry`. -/
def writeRecoveryRegistry (r : RecoveryRegistry) : Exec Unit :=
  writeLazy validatorRecoveryRegistryId r

/-- `read_key_timelock_registry`. -/
def readKeyTimelockRegistry : Exec KeyTimelockRegistry := readLazy validatorKeyTimelockRegistryId

/-- `write_key_timelock_registry`. -/
def writeKeyTimelockRegistry (tl : KeyTimelockRegistry) : Exec Unit :=
  writeLazy validatorKeyTimelockRegistryId tl

/-- `read_consensus_rotation_registry`. -/
def readConsensusRotationRegistry : Exec ConsensusRotationRegistry :=
  readLazy validatorConsensusRotationRegistryId

/-- `write_consensus_rotation_registry`. -/
def writeConsensusRotationRegistry (cr : ConsensusRotationRegistry) : Exec Unit :=
  writeLazy validatorConsensusRotationRegistryId cr

/-- `current_quanto`. -/
def currentQuanto : Exec U64 := do
  pure (← readGlobal).currentQuanto

/-- The registry as an instruction reads it; `none` if it does not decode. -/
def storedRegistryV7 (accounts : Accounts) : Option ValidatorV7Registry :=
  match accounts.lookup validatorRegistryAccountId with
  | none => some default
  | some account => ValidatorV7Registry.decodeRegistry account.data

theorem storedRegistryV7_congr {v v' : Accounts}
    (h : v.lookup validatorRegistryAccountId = v'.lookup validatorRegistryAccountId) :
    storedRegistryV7 v = storedRegistryV7 v' := by
  rw [storedRegistryV7, storedRegistryV7, h]

/-- The value in an account that is made by its first write; `none` if it does not decode. -/
def storedLazy {α : Type} [Inhabited α] [Borsh α] (accounts : Accounts) (k : Pubkey) :
    Option α :=
  match accounts.lookup k with
  | none => some default
  | some account => if account.data = [] then some default else Borsh.fromSlice account.data

section Rules

variable {accounts : Accounts}

@[simp] theorem wp_currentQuanto {Q : U64 → Accounts → Prop} :
    Wp currentQuanto accounts Q ↔
      ∀ g, storedGlobal accounts = some g → Q g.currentQuanto accounts := by
  simp [currentQuanto]

@[simp] theorem wp_readRegistryV7 {Q : ValidatorV7Registry → Accounts → Prop} :
    Wp readRegistryV7 accounts Q ↔
      ∀ reg, storedRegistryV7 accounts = some reg → Q reg accounts := by
  unfold readRegistryV7 storedRegistryV7
  rw [wp_bind, wp_find]
  cases accounts.lookup validatorRegistryAccountId <;> simp

@[simp] theorem wp_readLazy {α : Type} [Inhabited α] [Borsh α] {k : Pubkey}
    {Q : α → Accounts → Prop} :
    Wp (readLazy k) accounts Q ↔ ∀ a, storedLazy accounts k = some a → Q a accounts := by
  unfold readLazy storedLazy
  rw [wp_bind, wp_find]
  cases accounts.lookup k with
  | none => simp
  | some account =>
    dsimp only
    split_ifs <;> simp

@[simp] theorem succeeds_currentQuanto {Q : U64 → Accounts → Prop} :
    Succeeds currentQuanto accounts Q ↔
      ∃ g, storedGlobal accounts = some g ∧ Q g.currentQuanto accounts := by
  unfold currentQuanto readGlobal storedGlobal
  rw [succeeds_bind, succeeds_bind, succeeds_find]
  cases accounts.lookup stakingGlobalId <;> simp

@[simp] theorem succeeds_readRegistryV7 {Q : ValidatorV7Registry → Accounts → Prop} :
    Succeeds readRegistryV7 accounts Q ↔
      ∃ reg, storedRegistryV7 accounts = some reg ∧ Q reg accounts := by
  unfold readRegistryV7 storedRegistryV7
  rw [succeeds_bind, succeeds_find]
  cases accounts.lookup validatorRegistryAccountId <;> simp

@[simp] theorem succeeds_writeLazy {α : Type} [Borsh α] {k : Pubkey} {a : α}
    {Q : Unit → Accounts → Prop} :
    Succeeds (writeLazy k a) accounts Q ↔ ∃ bytes, Borsh.toVec a = some bytes ∧
      Q () (accounts.insert k { accounts.getOrNew k stakingProgramId with data := bytes }) := by
  simp only [writeLazy, succeeds_bind, succeeds_get, succeeds_toData, succeeds_put]

end Rules

/-! ### Instructions -/

/-- `ValidatorV7Instruction`. -/
inductive ValidatorV7Instruction
  | bondAndRegister (moniker : Utf8) (pubkeyBundle : PublicKeyBundle) (p2pAddress : Utf8)
      (withdrawalAddress : Option Pubkey) (consensusPop : MultiSignature)
  | beginExit (consensusAddress : Pubkey)
  | withdrawBond (consensusAddress : Pubkey)
  | reportEquivocation (evidence : EquivocationEvidence)
  | unjail (consensusAddress : Pubkey)
  | rotateOperator (consensusAddress newOperator : Pubkey)
  | rotateWithdrawal (consensusAddress newWithdrawal : Pubkey)
  | rotateConsensusKey (consensusAddress : Pubkey) (newBundle : PublicKeyBundle)
      (newP2pAddress : Utf8) (newPop : MultiSignature)
  | revokeConsensusKey (consensusAddress : Pubkey)
  | setConsensusKeyExpiry (consensusAddress : Pubkey) (expiryQuanto : U64)
  | setRecoveryCommittee (consensusAddress : Pubkey) (config : RecoveryConfig)
  | recoverOp (consensusAddress : Pubkey) (op : RecoveryOp) (approvals : List RecoveryApproval)
  | applyPendingKeyChange (consensusAddress : Pubkey) (kind : KeyChangeKind)
  | cancelPendingKeyChange (consensusAddress : Pubkey) (kind : KeyChangeKind)
  | proposeConsensusKeyRotation (consensusAddress : Pubkey) (newBundle : PublicKeyBundle)
      (newP2pAddress : Utf8)
  | acceptConsensusKeyRotation (consensusAddress : Pubkey) (acceptPop : MultiSignature)
  | cancelConsensusKeyRotation (consensusAddress : Pubkey)
  deriving DecidableEq

/-- The decoder of the instruction data. -/
def ValidatorV7Instruction.decode : Decoder ValidatorV7Instruction :=
  Decoder.variants
    [ (Borsh.decode : Decoder
        (Utf8 × PublicKeyBundle × Utf8 × Option Pubkey × MultiSignature)).map
        fun (moniker, pubkeyBundle, p2pAddress, withdrawalAddress, consensusPop) =>
          bondAndRegister moniker pubkeyBundle p2pAddress withdrawalAddress consensusPop,
      (Borsh.decode : Decoder Pubkey).map beginExit,
      (Borsh.decode : Decoder Pubkey).map withdrawBond,
      EquivocationEvidence.decode.map reportEquivocation,
      (Borsh.decode : Decoder Pubkey).map unjail,
      (Borsh.decode : Decoder (Pubkey × Pubkey)).map fun (consensusAddress, newOperator) =>
        rotateOperator consensusAddress newOperator,
      (Borsh.decode : Decoder (Pubkey × Pubkey)).map fun (consensusAddress, newWithdrawal) =>
        rotateWithdrawal consensusAddress newWithdrawal,
      (Borsh.decode : Decoder (Pubkey × PublicKeyBundle × Utf8 × MultiSignature)).map
        fun (consensusAddress, newBundle, newP2pAddress, newPop) =>
          rotateConsensusKey consensusAddress newBundle newP2pAddress newPop,
      (Borsh.decode : Decoder Pubkey).map revokeConsensusKey,
      (Borsh.decode : Decoder (Pubkey × U64)).map fun (consensusAddress, expiryQuanto) =>
        setConsensusKeyExpiry consensusAddress expiryQuanto,
      (Borsh.decode : Decoder (Pubkey × RecoveryConfig)).map fun (consensusAddress, config) =>
        setRecoveryCommittee consensusAddress config,
      ((Borsh.decode : Decoder Pubkey).pair <| RecoveryOp.decode.pair <|
        ((Borsh.decode : Decoder (PublicKeyBundle × MultiSignature)).map
          fun (bundle, signature) => RecoveryApproval.mk bundle signature).vec).map
        fun (consensusAddress, op, approvals) => recoverOp consensusAddress op approvals,
      ((Borsh.decode : Decoder Pubkey).pair KeyChangeKind.decode).map
        fun (consensusAddress, kind) => applyPendingKeyChange consensusAddress kind,
      ((Borsh.decode : Decoder Pubkey).pair KeyChangeKind.decode).map
        fun (consensusAddress, kind) => cancelPendingKeyChange consensusAddress kind,
      (Borsh.decode : Decoder (Pubkey × PublicKeyBundle × Utf8)).map
        fun (consensusAddress, newBundle, newP2pAddress) =>
          proposeConsensusKeyRotation consensusAddress newBundle newP2pAddress,
      (Borsh.decode : Decoder (Pubkey × MultiSignature)).map fun (consensusAddress, acceptPop) =>
        acceptConsensusKeyRotation consensusAddress acceptPop,
      (Borsh.decode : Decoder Pubkey).map cancelConsensusKeyRotation ]

namespace ValidatorV7Program

/-- The entry of a validator and its index. -/
def findValidator (reg : ValidatorV7Registry) (addr : Pubkey) :
    Exec (ℕ × ValidatorV7Entry) := do
  let idx ← okOr (reg.find addr) (.programError "not a registered validator")
  pure (idx, ← expect reg.validators[idx]?)

/-- `require_not_frozen`. -/
def requireNotFrozen (e : ValidatorV7Entry) (q : U64) (op : String) : Exec Unit := do
  let untilQuanto := e.frozenUntilQuanto
  check (e.isFrozen q = false) (.unauthorized <|
    s!"{op} is refused: this validator is emergency-FROZEN until quanto {untilQuanto} (KM#9) — " ++
    "while the pause holds, only its recovery committee can act (unfreeze/revoke)")

/-- `require_operator`: the registry, and the entry of the validator whose operator pays. -/
def requireOperator (ix : Instruction) (payer consensusAddress : Pubkey) (op : String) :
    Exec (ValidatorV7Registry × ℕ × ValidatorV7Entry) := do
  let registryPk ← named ix 1 op
  check (registryPk = validatorRegistryAccountId)
    (.unauthorized s!"{op} must name the canonical registry account")
  let reg ← readRegistryV7
  let (idx, e) ← findValidator reg consensusAddress
  check (e.state ≠ .removed) (.programError "validator has been removed")
  check (e.operatorAddress = payer)
    (.unauthorized s!"only the validator's operator (cold) key can {op}")
  pure (reg, idx, e)

section Rules

variable {accounts : Accounts} {ix : Instruction} {payer addr : Pubkey}

@[simp] theorem wp_findValidator {reg : ValidatorV7Registry}
    {Q : ℕ × ValidatorV7Entry → Accounts → Prop} :
    Wp (findValidator reg addr) accounts Q ↔ ∀ idx, reg.find addr = some idx →
      ∀ e, reg.validators[idx]? = some e → Q (idx, e) accounts := by
  simp [findValidator]

@[simp] theorem wp_requireNotFrozen {e : ValidatorV7Entry} {q : U64} {op : String}
    {Q : Unit → Accounts → Prop} :
    Wp (requireNotFrozen e q op) accounts Q ↔ (e.isFrozen q = false → Q () accounts) := by
  simp [requireNotFrozen]

@[simp] theorem wp_requireOperator {op : String}
    {Q : ValidatorV7Registry × ℕ × ValidatorV7Entry → Accounts → Prop} :
    Wp (requireOperator ix payer addr op) accounts Q ↔
      (ix.accounts[1]? = some validatorRegistryAccountId →
        ∀ reg, storedRegistryV7 accounts = some reg → ∀ idx, reg.find addr = some idx →
          ∀ e, reg.validators[idx]? = some e → e.state ≠ .removed → e.operatorAddress = payer →
            Q (reg, idx, e) accounts) := by
  simp only [requireOperator, wp_steps, wp_readRegistryV7, wp_findValidator]
  constructor
  · intro h hk
    exact h _ hk rfl
  · rintro h _ hk rfl
    exact h hk

/-- `wp_steps` with the rules of the registry operations. -/
theorem wp_stepsV7 : type_of% wp_steps ∧ type_of% @wp_currentQuanto ∧ type_of% @wp_readLazy ∧
    type_of% @wp_readRegistryV7 ∧ type_of% @wp_findValidator ∧ type_of% @wp_requireNotFrozen ∧
    type_of% @wp_requireOperator :=
  ⟨wp_steps, @wp_currentQuanto, @wp_readLazy, @wp_readRegistryV7, @wp_findValidator,
    @wp_requireNotFrozen, @wp_requireOperator⟩

end Rules

/-- Replaces an entry of the registry and writes it. -/
def writeEntry (reg : ValidatorV7Registry) (idx : ℕ) (e : ValidatorV7Entry) : Exec Unit :=
  writeRegistryV7 ⟨reg.validators.set idx e⟩

/-- Moves a bond from one pool to another account. -/
def moveBond (source target owner : Pubkey) (underfunded : String) : Exec Unit := do
  check (validatorBondAtoms ≤ (← balanceOrZero source)) (.programError underfunded)
  debitExisting source validatorBondAtoms
  credit target owner validatorBondAtoms

/-- When the bond of a validator that leaves at a quanto is released. -/
def bondRelease (q : U64) : U64 :=
  Word.clamp (q + max validatorBondUnbondingQuantos slashEvidenceWindowQuantos)

variable (ix : Instruction)

/-- `propose_key_change`. -/
def proposeKeyChange (consensusAddress : Pubkey) (change : PendingKeyChange) :
    Exec Unit := do
  let timelockPk ← okOr ix.accounts[2]?
    (.programError "propose key change requires accounts[2] (key timelock registry)")
  let globalPk ← okOr ix.accounts[3]?
    (.programError "propose key change requires accounts[3] (staking global)")
  check (timelockPk = validatorKeyTimelockRegistryId ∧ globalPk = stakingGlobalId)
    (.unauthorized <| "propose key change must name the canonical key-timelock registry " ++
      "and staking global")
  let q ← currentQuanto
  let reg ← readRegistryV7
  match reg.find consensusAddress with
  | some idx => do
    requireNotFrozen (← expect reg.validators[idx]?) q "proposing a key change"
  | none => pure ()
  let entry : PendingKeyChangeEntry :=
    ⟨consensusAddress, q, Word.clamp (q + change.windowQuantos), change⟩
  let tl ← readKeyTimelockRegistry
  let pending ← match tl.find consensusAddress change.kind with
    | some i => pure (tl.pending.set i entry)
    | none => do
      check (tl.pending.length < maxV7Validators * 3)
        (.programError "key timelock registry is full")
      pure (tl.pending ++ [entry])
  writeKeyTimelockRegistry ⟨pending⟩

variable (payer consensusAddress : Pubkey)

/-- `set_recovery_committee`. -/
def setRecoveryCommittee
    (config : RecoveryConfig) : Exec Unit := do
  let (_, _, e) ← requireOperator ix payer consensusAddress "SetRecoveryCommittee"
  check (e.state ≠ .revoked ∧ e.state ≠ .removed)
    (.programError "validator is not in a state that can configure recovery")
  if config.isClearing = false then
    config.validate
  proposeKeyChange ix consensusAddress (.recoveryCommittee config)

/-- The entry of the recovery registry set, changed or removed. -/
def applyRecoveryConfig (consensusAddress : Pubkey) (config : RecoveryConfig) : Exec Unit := do
  let recovery ← readRecoveryRegistry
  let entries ← match recovery.find consensusAddress with
    | some i => do
      if config.isClearing then
        pure (recovery.entries.eraseIdx i)
      else
        let entry ← expect recovery.entries[i]?
        -- the nonce stays, so that approvals of the old committee are not usable again
        pure (recovery.entries.set i { entry with config := config })
    | none => do
      if config.isClearing then
        pure recovery.entries
      else
        check (recovery.entries.length < maxV7Validators)
          (.programError "recovery registry is full")
        pure (recovery.entries ++ [⟨consensusAddress, config, 0⟩])
  writeRecoveryRegistry ⟨entries⟩

/-- What a pending change does when it is applied. -/
def applyChange (reg : ValidatorV7Registry) (idx : ℕ) (e : ValidatorV7Entry)
    (consensusAddress : Pubkey) (change : PendingKeyChange) : Exec Unit :=
  match change with
  | .operator newOperator => do
    check (reg.addressInUse consensusAddress newOperator = false)
      (.programError "new operator address is already registered to another validator")
    writeEntry reg idx { e with operatorAddress := newOperator }
  | .withdrawal newWithdrawal => do
    check (reg.addressInUse consensusAddress newWithdrawal = false)
      (.programError "new withdrawal address is already registered to another validator")
    writeEntry reg idx { e with withdrawalAddress := newWithdrawal }
  | .recoveryCommittee config => applyRecoveryConfig consensusAddress config

/-- `apply_pending_key_change`: anyone may apply a change whose time-lock is over. -/
def applyPendingKeyChange (consensusAddress : Pubkey) (kind : KeyChangeKind) :
    Exec Unit := do
  let registryPk ← named ix 1 "ApplyPendingKeyChange"
  let timelockPk ← named ix 2 "ApplyPendingKeyChange"
  let recoveryPk ← named ix 3 "ApplyPendingKeyChange"
  let globalPk ← named ix 4 "ApplyPendingKeyChange"
  check (registryPk = validatorRegistryAccountId ∧ timelockPk = validatorKeyTimelockRegistryId ∧
      recoveryPk = validatorRecoveryRegistryId ∧ globalPk = stakingGlobalId)
    (.unauthorized "ApplyPendingKeyChange must name the canonical accounts")
  let tl ← readKeyTimelockRegistry
  let ti ← okOr (tl.find consensusAddress kind)
    (.programError "no pending key change of that kind for this validator")
  let pending ← expect tl.pending[ti]?
  let q ← currentQuanto
  let ready := pending.readyQuanto
  check (ready ≤ q)
    (.unauthorized s!"key change is still timelocked: ready at quanto {ready}, now {q}")
  let reg ← readRegistryV7
  let (idx, e) ← findValidator reg consensusAddress
  check (e.state ≠ .revoked ∧ e.state ≠ .removed)
    (.programError "validator is not in a state that can apply a key change")
  requireNotFrozen e q "applying a pending key change"
  check (e.registeredQuanto ≤ pending.proposedQuanto)
    (.programError <| "pending key change predates the validator's current registration — stale")
  applyChange reg idx e consensusAddress pending.change
  writeKeyTimelockRegistry ⟨tl.pending.eraseIdx ti⟩

/-- `cancel_pending_key_change`. -/
def cancelPendingKeyChange
    (kind : KeyChangeKind) : Exec Unit := do
  let _ ← requireOperator ix payer consensusAddress "CancelPendingKeyChange"
  let timelockPk ← named ix 2 "CancelPendingKeyChange"
  check (timelockPk = validatorKeyTimelockRegistryId)
    (.unauthorized "CancelPendingKeyChange must name the canonical key-timelock registry")
  let tl ← readKeyTimelockRegistry
  let ti ← okOr (tl.find consensusAddress kind)
    (.programError "no pending key change of that kind for this validator")
  writeKeyTimelockRegistry ⟨tl.pending.eraseIdx ti⟩

/-- `unjail`. -/
def unjail : Exec Unit := do
  let registryPk ← named ix 1 "Unjail"
  check (registryPk = validatorRegistryAccountId)
    (.unauthorized "Unjail must name the canonical registry account")
  let reg ← readRegistryV7
  let (idx, e) ← findValidator reg consensusAddress
  check (e.operatorAddress = payer)
    (.unauthorized "only the validator's operator (cold) key can un-jail it")
  check (e.state = .jailed) (.programError "validator is not jailed")
  writeEntry reg idx
    { e with state := .active, participationCredits := 0, participationOpportunities := 0 }

/-- `rotate_operator`. -/
def rotateOperator (payer consensusAddress newOperator : Pubkey) :
    Exec Unit := do
  let (reg, _, _) ← requireOperator ix payer consensusAddress "RotateOperator"
  check (reg.addressInUse consensusAddress newOperator = false)
    (.programError "new operator address is already registered to another validator")
  proposeKeyChange ix consensusAddress (.operator newOperator)

/-- `rotate_withdrawal`. -/
def rotateWithdrawal (payer consensusAddress newWithdrawal : Pubkey) :
    Exec Unit := do
  let (reg, _, _) ← requireOperator ix payer consensusAddress "RotateWithdrawal"
  check (reg.addressInUse consensusAddress newWithdrawal = false)
    (.programError "new withdrawal address is already registered to another validator")
  proposeKeyChange ix consensusAddress (.withdrawal newWithdrawal)

/-- The length of a network address is within bounds. -/
def checkP2pAddress (address : Utf8) : Exec Unit :=
  check (1 ≤ address.bytes.length ∧ address.bytes.length ≤ 128)
    (.programError "p2p address length out of range")

/-- `cancel_consensus_key_rotation`. -/
def cancelConsensusKeyRotation :
    Exec Unit := do
  let _ ← requireOperator ix payer consensusAddress "CancelConsensusKeyRotation"
  let rotPk ← named ix 2 "CancelConsensusKeyRotation"
  check (rotPk = validatorConsensusRotationRegistryId)
    (.unauthorized <|
      "CancelConsensusKeyRotation must name the canonical consensus-rotation registry")
  let cr ← readConsensusRotationRegistry
  let ci ← okOr (cr.find consensusAddress)
    (.programError "no pending consensus-key rotation for this validator")
  writeConsensusRotationRegistry ⟨cr.pending.eraseIdx ci⟩

/-- `revoke_consensus_key`. -/
def revokeConsensusKey : Exec Unit := do
  let globalPk ← named ix 2 "RevokeConsensusKey"
  check (globalPk = stakingGlobalId)
    (.unauthorized "RevokeConsensusKey must name the canonical global account")
  let (reg, idx, e) ← requireOperator ix payer consensusAddress "RevokeConsensusKey"
  writeEntry reg idx { e with consensusKeyRevoked := true }

/-- `set_consensus_key_expiry`. -/
def setConsensusKeyExpiry
    (expiryQuanto : U64) : Exec Unit := do
  let (reg, idx, e) ← requireOperator ix payer consensusAddress "SetConsensusKeyExpiry"
  writeEntry reg idx { e with consensusKeyExpiryQuanto := expiryQuanto }

/-- `begin_exit`. -/
def beginExit : Exec Unit := do
  let registryPk ← named ix 1 "BeginExit"
  let escrowPk ← named ix 2 "BeginExit"
  let unbondingPk ← named ix 3 "BeginExit"
  let globalPk ← named ix 4 "BeginExit"
  check (registryPk = validatorRegistryAccountId ∧ escrowPk = validatorBondEscrowId ∧
      unbondingPk = validatorUnbondingPoolId ∧ globalPk = stakingGlobalId)
    (.unauthorized "BeginExit must name the canonical accounts")
  let reg ← readRegistryV7
  let (idx, e) ← findValidator reg consensusAddress
  check (e.operatorAddress = payer)
    (.unauthorized "only the validator's operator (cold) key can begin an exit")
  check (e.state = .bondedPending ∨ e.state = .active ∨ e.state = .jailed)
    (.programError "validator is not in an exitable state")
  let q ← currentQuanto
  requireNotFrozen e q "BeginExit"
  moveBond escrowPk unbondingPk stakingProgramId "bond escrow underfunded (invariant violation)"
  let q ← currentQuanto
  writeEntry reg idx
    { e with state := .unbonding, exitRequestedQuanto := q, bondReleaseQuanto := bondRelease q }

/-- `withdraw_bond`: to the recorded withdrawal address only; the bond of a revoked validator
may be released by anyone. -/
def withdrawBond : Exec Unit := do
  let registryPk ← named ix 1 "WithdrawBond"
  let unbondingPk ← named ix 2 "WithdrawBond"
  let globalPk ← named ix 3 "WithdrawBond"
  let withdrawalDest ← okOr ix.accounts[4]?
    (.programError "WithdrawBond requires accounts[4] (the withdrawal destination)")
  check (registryPk = validatorRegistryAccountId ∧ unbondingPk = validatorUnbondingPoolId ∧
      globalPk = stakingGlobalId)
    (.unauthorized "WithdrawBond must name the canonical accounts")
  let reg ← readRegistryV7
  let (idx, e) ← findValidator reg consensusAddress
  check (e.state = .unbonding ∨ e.state = .revoked) (.programError "bond is not unbonding")
  check (e.state = .unbonding → e.operatorAddress = payer)
    (.unauthorized "only the validator's operator (cold) key can withdraw the bond")
  check (withdrawalDest = e.withdrawalAddress)
    (.unauthorized "WithdrawBond accounts[4] must be the validator's recorded withdrawal address")
  let q ← currentQuanto
  requireNotFrozen e q "WithdrawBond"
  let release := e.bondReleaseQuanto
  check (release ≤ q) (.programError s!"bond still unbonding until quanto {release} (now {q})")
  moveBond unbondingPk e.withdrawalAddress systemProgramId
    "validator unbonding pool underfunded (invariant violation)"
  writeEntry reg idx { e with state := .removed, bond := 0 }

variable [Crypto]

/-- `pop_message`. -/
def popMessage (operator withdrawal : Pubkey) (moniker : Utf8) : List UInt8 :=
  operator.toBytes ++ withdrawal.toBytes ++ moniker.bytes

/-- The committee members who validly approved, each counted once. -/
def countApprovals (config : RecoveryConfig) (msg : List UInt8)
    (approvals : List RecoveryApproval) : List Pubkey :=
  approvals.foldl (fun counted a =>
    let addr := a.bundle.toAddress
    if addr ∉ config.signers ∨ addr ∈ counted then counted
    else if verifyDomain a.bundle recoveryAuthV1 msg a.signature then counted ++ [addr]
    else counted) []

/-- The effect of a recovery operation on the entry, and the event that is logged. -/
def applyRecoveryOp (e : ValidatorV7Entry) (op : RecoveryOp) (q : U64) :
    Exec (ValidatorV7Entry × UInt8 × U64) :=
  match op with
  | .revoke => do
    check (e.state = .bondedPending ∨ e.state = .active ∨ e.state = .jailed)
      (.programError "validator is not in a revocable state")
    moveBond validatorBondEscrowId validatorUnbondingPoolId stakingProgramId
      "bond escrow underfunded (invariant violation)"
    pure ({ e with
      state := .revoked, exitRequestedQuanto := q, bondReleaseQuanto := bondRelease q }, 4, 0)
  | .freeze untilQuanto => do
    check (e.state ≠ .revoked ∧ e.state ≠ .removed)
      (.programError "validator is not in a freezable state")
    check (0 < (untilQuanto : ℕ))
      (.programError "freeze until_quanto must be non-zero (use Unfreeze to lift)")
    pure ({ e with frozenUntilQuanto := untilQuanto }, 1, untilQuanto)
  | .unfreeze => pure ({ e with frozenUntilQuanto := 0 }, 2, 0)
  | .setExpiry untilQuanto =>
    pure ({ e with consensusKeyExpiryQuanto := untilQuanto }, 3, untilQuanto)

/-- Pending changes of a revoked validator are removed from the registries that are named. -/
def purgePending (consensusAddress : Pubkey) : Exec Unit := do
  let tl ← readKeyTimelockRegistry
  if ∃ p ∈ tl.pending, p.consensusAddress = consensusAddress then
    writeKeyTimelockRegistry (tl.purge consensusAddress)
  let cr ← readConsensusRotationRegistry
  if (cr.find consensusAddress).isSome then
    writeConsensusRotationRegistry (cr.purge consensusAddress)

variable (ix : Instruction)

/-- `recover_op`. -/
def recoverOp (consensusAddress : Pubkey) (op : RecoveryOp)
    (approvals : List RecoveryApproval) : Exec Unit := do
  let registryPk ← named ix 1 "RecoverOp"
  let recoveryPk ← named ix 2 "RecoverOp"
  let escrowPk ← named ix 3 "RecoverOp"
  let unbondingPk ← named ix 4 "RecoverOp"
  let globalPk ← named ix 5 "RecoverOp"
  let auditPk ← okOr ix.accounts[6]? (.programError "RecoverOp requires accounts[6] (KM audit log)")
  check (registryPk = validatorRegistryAccountId ∧ recoveryPk = validatorRecoveryRegistryId ∧
      escrowPk = validatorBondEscrowId ∧ unbondingPk = validatorUnbondingPoolId ∧
      globalPk = stakingGlobalId ∧ auditPk = validatorKmAuditLogId)
    (.unauthorized "RecoverOp must name the canonical accounts")
  let recovery ← readRecoveryRegistry
  let ridx ← okOr (recovery.find consensusAddress)
    (.programError "no recovery committee registered for this validator")
  let entry ← expect recovery.entries[ridx]?
  let threshold := entry.config.threshold
  check (threshold ≠ 0 ∧ entry.config.signers ≠ [])
    (.programError "recovery committee is empty")
  check (chainIdAccountId ∈ ix.accounts)
    (.unauthorized "RecoverOp must name the chain-id singleton (#187)")
  let chainId ← readChainId
  let msg := recoveryMessage chainId consensusAddress op entry.nonce
  let counted := (countApprovals entry.config msg approvals).length
  check (threshold.toNat ≤ counted % 256) (.unauthorized <|
    s!"recovery quorum not met: {counted} distinct valid recovery signatures, need {threshold}")
  let q ← currentQuanto
  let reg ← readRegistryV7
  let (idx, e) ← findValidator reg consensusAddress
  let (e, event, detail) ← applyRecoveryOp e op q
  writeEntry reg idx e
  if op = .revoke then
    purgePending consensusAddress
  let log : KmAuditLog ← readLazy validatorKmAuditLogId
  writeLazy validatorKmAuditLogId (log.append event consensusAddress q detail)
  writeRecoveryRegistry
    ⟨recovery.entries.set ridx { entry with nonce := Word.clamp (entry.nonce + 1) }⟩

/-- `apply_consensus_rotation`: the entry with its new key; the old one is retired. -/
def applyConsensusRotation (reg : ValidatorV7Registry) (e : ValidatorV7Entry)
    (newBundle : PublicKeyBundle) (newP2pAddress : Utf8) (q : U64) : Exec ValidatorV7Entry := do
  checkP2pAddress newP2pAddress
  let newAddr := newBundle.toAddress
  check (newAddr ≠ e.address)
    (.programError "new consensus key is identical to the current one")
  check (reg.addressInUse e.address newAddr = false)
    (.programError "new consensus key is already registered to another validator")
  pure { e.retireConsensusKey e.address q slashEvidenceWindowQuantos with
    address := newAddr, pubkeyBundle := newBundle, p2pAddress := newP2pAddress,
    consensusKeyRevoked := false, consensusKeyExpiryQuanto := 0 }

/-- `rotate_consensus_key`. -/
def rotateConsensusKey (payer consensusAddress : Pubkey)
    (newBundle : PublicKeyBundle) (newP2pAddress : Utf8) (newPop : MultiSignature) :
    Exec Unit := do
  let globalPk ← named ix 2 "RotateConsensusKey"
  check (globalPk = stakingGlobalId)
    (.unauthorized "RotateConsensusKey must name the canonical global account")
  let (reg, idx, e) ← requireOperator ix payer consensusAddress "RotateConsensusKey"
  let q ← currentQuanto
  requireNotFrozen e q "RotateConsensusKey"
  check (verifyDomain newBundle validatorPopV1
      (popMessage e.operatorAddress e.withdrawalAddress e.moniker) newPop = true)
    (.unauthorized <| "new_pop does not prove possession of the new consensus key " ++
      "for this operator/withdrawal/moniker")
  writeEntry reg idx (← applyConsensusRotation reg e newBundle newP2pAddress q)
  let cr ← readConsensusRotationRegistry
  if (cr.find consensusAddress).isSome then
    writeConsensusRotationRegistry (cr.purge consensusAddress)

/-- `propose_consensus_key_rotation`. -/
def proposeConsensusKeyRotation (payer consensusAddress : Pubkey)
    (newBundle : PublicKeyBundle) (newP2pAddress : Utf8) : Exec Unit := do
  let rotPk ← named ix 2 "ProposeConsensusKeyRotation"
  let globalPk ← okOr ix.accounts[3]?
    (.programError "ProposeConsensusKeyRotation requires accounts[3] (staking global)")
  check (rotPk = validatorConsensusRotationRegistryId ∧ globalPk = stakingGlobalId)
    (.unauthorized <| "ProposeConsensusKeyRotation must name the canonical " ++
      "consensus-rotation registry and staking global")
  checkP2pAddress newP2pAddress
  let (reg, _, e) ← requireOperator ix payer consensusAddress "ProposeConsensusKeyRotation"
  check (e.state ≠ .revoked) (.programError "validator is revoked")
  let q ← currentQuanto
  requireNotFrozen e q "ProposeConsensusKeyRotation"
  let newAddr := newBundle.toAddress
  check (newAddr ≠ e.address)
    (.programError "new consensus key is identical to the current one")
  check (reg.addressInUse consensusAddress newAddr = false)
    (.programError "new consensus key is already registered to another validator")
  let entry : PendingConsensusRotation := ⟨consensusAddress, newBundle, newP2pAddress, q⟩
  let cr ← readConsensusRotationRegistry
  let pending ← match cr.find consensusAddress with
    | some i => pure (cr.pending.set i entry)
    | none => do
      check (cr.pending.length < maxV7Validators)
        (.programError "consensus-rotation registry is full")
      pure (cr.pending ++ [entry])
  writeConsensusRotationRegistry ⟨pending⟩

/-- `accept_consensus_key_rotation`. -/
def acceptConsensusKeyRotation (consensusAddress : Pubkey)
    (acceptPop : MultiSignature) : Exec Unit := do
  let registryPk ← named ix 1 "AcceptConsensusKeyRotation"
  let rotPk ← named ix 2 "AcceptConsensusKeyRotation"
  let globalPk ← named ix 3 "AcceptConsensusKeyRotation"
  check (registryPk = validatorRegistryAccountId ∧
      rotPk = validatorConsensusRotationRegistryId ∧ globalPk = stakingGlobalId)
    (.unauthorized "AcceptConsensusKeyRotation must name the canonical accounts")
  let cr ← readConsensusRotationRegistry
  let ci ← okOr (cr.find consensusAddress)
    (.programError "no pending consensus-key rotation for this validator")
  let pending ← expect cr.pending[ci]?
  check (verifyDomain pending.newBundle keyRotationAcceptV1
      (rotationAcceptMessage consensusAddress pending.newBundle.toAddress) acceptPop = true)
    (.unauthorized "accept_pop does not prove possession of the proposed new consensus key")
  let reg ← readRegistryV7
  let (idx, e) ← findValidator reg consensusAddress
  check (e.state ≠ .revoked ∧ e.state ≠ .removed)
    (.programError "validator is not in a state that can rotate its consensus key")
  check (e.registeredQuanto ≤ pending.proposedQuanto)
    (.programError "pending rotation predates the validator's current registration — stale")
  let q ← currentQuanto
  requireNotFrozen e q "AcceptConsensusKeyRotation"
  writeEntry reg idx
    (← applyConsensusRotation reg e pending.newBundle pending.newP2pAddress q)
  writeConsensusRotationRegistry ⟨cr.pending.eraseIdx ci⟩

/-- `bond_and_register`. -/
def bondAndRegister (payer : Pubkey) (moniker : Utf8)
    (bundle : PublicKeyBundle) (p2pAddress : Utf8) (withdrawalAddress : Option Pubkey)
    (consensusPop : MultiSignature) : Exec Unit := do
  let operator ← named ix 0 "BondAndRegister"
  let registryPk ← named ix 1 "BondAndRegister"
  let escrowPk ← named ix 2 "BondAndRegister"
  let globalPk ← named ix 3 "BondAndRegister"
  check (registryPk = validatorRegistryAccountId ∧ escrowPk = validatorBondEscrowId ∧
      globalPk = stakingGlobalId)
    (.unauthorized "BondAndRegister must name the canonical registry/escrow/global accounts")
  check (operator = payer) (.unauthorized "the operator account must be the transaction payer")
  let norm := normalizeMoniker moniker.bytes
  check (monikerIsValid norm = true)
    (.programError "invalid moniker (3-32 chars, [a-z0-9_-], not reserved)")
  -- a valid moniker is ASCII, so it is a text
  let norm ← expect (Borsh.ofUtf8 norm)
  checkP2pAddress p2pAddress
  let consensusAddr := bundle.toAddress
  let withdrawal := withdrawalAddress.getD payer
  check (verifyDomain bundle validatorPopV1 (popMessage payer withdrawal norm) consensusPop = true)
    (.unauthorized <| "consensus_pop does not prove possession of the consensus key " ++
      "for this operator/withdrawal/moniker")
  let reg ← readRegistryV7
  check (∀ idx ∈ reg.find consensusAddr, ∀ e ∈ reg.validators[idx]?, e.state = .removed)
    (.programError "this consensus key already has an active validator registration")
  check (reg.monikerTaken norm.bytes consensusAddr = false)
    (.programError "moniker already taken")
  check (reg.addressInUse consensusAddr consensusAddr = false)
    (.programError "consensus key address is already registered to another validator")
  check (reg.addressInUse consensusAddr payer = false)
    (.programError "operator address is already registered to another validator")
  check (reg.addressInUse consensusAddr withdrawal = false)
    (.programError "withdrawal address is already registered to another validator")
  check (reg.validators.length < maxV7Validators ∨ (reg.find consensusAddr).isSome)
    (.programError "validator registry is full")
  let account ← load operator (.accountNotFound operator)
  check (validatorBondAtoms ≤ account.balance) .insufficientFunds
  debitExisting operator validatorBondAtoms
  credit escrowPk stakingProgramId validatorBondAtoms
  let q ← currentQuanto
  let entry : ValidatorV7Entry :=
    { address := consensusAddr, operatorAddress := payer, withdrawalAddress := withdrawal,
      moniker := norm, pubkeyBundle := bundle, p2pAddress := p2pAddress,
      bond := validatorBondAtoms, state := .bondedPending, registeredQuanto := q,
      activationQuanto := Word.clamp (q + 1), exitRequestedQuanto := 0, bondReleaseQuanto := 0,
      participationCredits := 0, participationOpportunities := 0,
      consensusKeyExpiryQuanto := 0, consensusKeyRevoked := false, retiredConsensusKeys := [],
      frozenUntilQuanto := 0 }
  writeRegistryV7 <| match reg.find consensusAddr with
    | some idx => ⟨reg.validators.set idx entry⟩
    | none => ⟨reg.validators ++ [entry]⟩

/-- `report_equivocation`: burns the bond, wherever it is held. The quanto is read from the
global account only if the instruction names it. -/
def reportEquivocation (evidence : EquivocationEvidence) : Exec Unit := do
  let registryPk ← named ix 1 "ReportEquivocation"
  let escrowPk ← named ix 2 "ReportEquivocation"
  let unbondingPk ← named ix 3 "ReportEquivocation"
  check (chainIdAccountId ∈ ix.accounts)
    (.programError "ReportEquivocation must name the chain-id singleton (#187)")
  check (registryPk = validatorRegistryAccountId ∧ escrowPk = validatorBondEscrowId ∧
      unbondingPk = validatorUnbondingPoolId)
    (.unauthorized "ReportEquivocation must name the canonical accounts")
  let chainId ← readChainId
  check (evidence.vertexA.round = evidence.vertexB.round ∧
      evidence.vertexA.author = evidence.vertexB.author)
    (.programError "evidence must reference the same (round, author)")
  check (evidence.vertexA.digest ≠ evidence.vertexB.digest)
    (.programError "evidence vertices are identical - not a conflict")
  StakingProgram.checkEvidence chainId evidence
  let reg ← readRegistryV7
  let q ← currentQuanto
  let idx ← okOr (reg.findSlashable evidence.vertexA.author q)
    (.programError "accused is not a registered validator")
  let e ← expect reg.validators[idx]?
  check (e.state ≠ .slashed ∧ e.state ≠ .removed) (.programError "nothing to slash")
  let poolPk := if e.state = .unbonding ∨ e.state = .revoked then unbondingPk else escrowPk
  check (validatorBondAtoms ≤ (← balanceOrZero poolPk)) (.programError "nothing to slash")
  debitExisting poolPk validatorBondAtoms
  writeEntry reg idx { e with state := .slashed, bond := 0 }

/-- `ValidatorV7Program::process`. -/
def process (payer : Pubkey) : Exec Unit := do
  let instr ← okOr (ValidatorV7Instruction.decode.all ix.data)
    (.programError "bad v7 validator instruction: ")
  match instr with
  | .bondAndRegister moniker pubkeyBundle p2pAddress withdrawalAddress consensusPop =>
    bondAndRegister ix payer moniker pubkeyBundle p2pAddress withdrawalAddress consensusPop
  | .beginExit consensusAddress => beginExit ix payer consensusAddress
  | .withdrawBond consensusAddress => withdrawBond ix payer consensusAddress
  | .reportEquivocation evidence => reportEquivocation ix evidence
  | .unjail consensusAddress => unjail ix payer consensusAddress
  | .rotateOperator consensusAddress newOperator =>
    rotateOperator ix payer consensusAddress newOperator
  | .rotateWithdrawal consensusAddress newWithdrawal =>
    rotateWithdrawal ix payer consensusAddress newWithdrawal
  | .rotateConsensusKey consensusAddress newBundle newP2pAddress newPop =>
    rotateConsensusKey ix payer consensusAddress newBundle newP2pAddress newPop
  | .revokeConsensusKey consensusAddress => revokeConsensusKey ix payer consensusAddress
  | .setConsensusKeyExpiry consensusAddress expiryQuanto =>
    setConsensusKeyExpiry ix payer consensusAddress expiryQuanto
  | .setRecoveryCommittee consensusAddress config =>
    setRecoveryCommittee ix payer consensusAddress config
  | .recoverOp consensusAddress op approvals => recoverOp ix consensusAddress op approvals
  | .applyPendingKeyChange consensusAddress kind => applyPendingKeyChange ix consensusAddress kind
  | .cancelPendingKeyChange consensusAddress kind =>
    cancelPendingKeyChange ix payer consensusAddress kind
  | .proposeConsensusKeyRotation consensusAddress newBundle newP2pAddress =>
    proposeConsensusKeyRotation ix payer consensusAddress newBundle newP2pAddress
  | .acceptConsensusKeyRotation consensusAddress acceptPop =>
    acceptConsensusKeyRotation ix consensusAddress acceptPop
  | .cancelConsensusKeyRotation consensusAddress =>
    cancelConsensusKeyRotation ix payer consensusAddress

end ValidatorV7Program

end QChain
