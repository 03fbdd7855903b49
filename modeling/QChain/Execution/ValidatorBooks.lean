import QChain.Execution.Trace

/-!
# The books of the validators

What the validator program keeps between two instructions, apart from the accounts it is kept in. A
step of the books is what one instruction enters in them, or one entry at the close of a quanto, and
carries what the program checks.
-/

namespace QChain

open List ValidatorV7Program

/-! ### Lists of entries -/

section Lists

variable {α β : Type*} {p : α → Bool} {f : α → β} {l : List α} {i : ℕ} {x y : α}

/-- How many entries have a property, where one entry is replaced. -/
theorem countP_set_add (hx : l[i]? = some x) :
    (l.set i y).countP p + (if p x then 1 else 0) = l.countP p + if p y then 1 else 0 := by
  obtain ⟨hi, hget⟩ := List.getElem?_eq_some_iff.1 hx
  have hle := boole_getElem_le_countP (p := p) hi
  rw [countP_set hi, hget]
  rw [hget] at hle
  omega

end Lists

/-! ### Committees -/

/-- A committee that can act: as `RecoveryConfig::validate` requires. -/
structure RecoveryConfig.Proper (config : RecoveryConfig) : Prop where
  threshold_ne : config.threshold ≠ 0
  threshold_le : config.threshold.toNat ≤ config.signers.length
  length_le : config.signers.length ≤ maxRecoverySigners
  nodup : config.signers.Nodup

/-- A change that may be pending: a new committee is proper, or there is none. -/
def PendingKeyChange.Proper : PendingKeyChange → Prop
  | .operator _ | .withdrawal _ => True
  | .recoveryCommittee config => config.isClearing = true ∨ config.Proper

namespace RecoveryRegistry

/-- The registry after the committee of an address was removed, replaced or created. The entry of
a committee that is created starts from the first nonce. -/
inductive Recommit (r : RecoveryRegistry) (addr : Pubkey) (config : RecoveryConfig) :
    RecoveryRegistry → Prop
  | clear {i : ℕ} (hfind : r.find addr = some i) (hclearing : config.isClearing = true) :
      Recommit r addr config ⟨r.entries.eraseIdx i⟩
  | absent (hfind : r.find addr = none) (hclearing : config.isClearing = true) :
      Recommit r addr config r
  | replace {i : ℕ} {entry : RecoveryEntry} (hfind : r.find addr = some i)
      (hentry : r.entries[i]? = some entry) (hset : config.isClearing ≠ true) :
      Recommit r addr config ⟨r.entries.set i { entry with config := config }⟩
  | create (hfind : r.find addr = none) (hset : config.isClearing ≠ true) :
      Recommit r addr config ⟨r.entries ++ [⟨addr, config, 0⟩]⟩

variable {r r' : RecoveryRegistry} {addr a : Pubkey} {config : RecoveryConfig} {i : ℕ}
  {entry : RecoveryEntry}

theorem address_of_find (h : r.find addr = some i) (hentry : r.entries[i]? = some entry) :
    entry.consensusAddress = addr := by
  obtain ⟨hlt, haddress, _⟩ := findIdx?_eq_some_iff_getElem.1 h
  rw [getElem?_eq_getElem hlt] at hentry
  rw [← Option.some.inj hentry]
  exact of_decide_eq_true haddress

theorem Recommit.mem (h : Recommit r addr config r') :
    ∀ e ∈ r'.entries, e ∈ r.entries ∨ config.isClearing ≠ true ∧ e.config = config := by
  intro e he
  cases h with
  | clear => exact .inl (mem_of_mem_eraseIdx he)
  | absent => exact .inl he
  | replace _ _ hset =>
    rcases mem_or_eq_of_mem_set he with hold | rfl
    · exact .inl hold
    · exact .inr ⟨hset, rfl⟩
  | create _ hset =>
    rcases mem_append.1 he with hold | hnew
    · exact .inl hold
    · rw [mem_singleton.1 hnew]
      exact .inr ⟨hset, rfl⟩

end RecoveryRegistry

/-! ### Bonds -/

namespace ValidatorV7Entry

/-- The bond of a validator is in the escrow. -/
def inEscrow (e : ValidatorV7Entry) : Bool :=
  e.state ∉ [ValidatorV7State.unbonding, .revoked, .slashed, .removed]

/-- The bond of a validator is in the unbonding pool. -/
def inPool (e : ValidatorV7Entry) : Bool := e.state ∈ [ValidatorV7State.unbonding, .revoked]

variable {e : ValidatorV7Entry}

theorem inEscrow_of_exitable
    (h : e.state = .bondedPending ∨ e.state = .active ∨ e.state = .jailed) :
    e.inEscrow = true ∧ e.inPool = false := by
  unfold inEscrow inPool
  rcases h with h | h | h
  · rw [h]
    decide
  · rw [h]
    decide
  · rw [h]
    decide

theorem inPool_of_unbonding (h : e.state = .unbonding ∨ e.state = .revoked) :
    e.inEscrow = false ∧ e.inPool = true := by
  unfold inEscrow inPool
  rcases h with h | h
  · rw [h]
    decide
  · rw [h]
    decide

theorem inEscrow_of_slashable (hslashed : e.state ≠ .slashed) (hremoved : e.state ≠ .removed)
    (h : ¬(e.state = .unbonding ∨ e.state = .revoked)) :
    e.inEscrow = true ∧ e.inPool = false := by
  unfold inEscrow inPool
  simp [hslashed, hremoved, h]

end ValidatorV7Entry

/-- The number of bonds in the escrow. -/
def ValidatorV7Registry.bonds (reg : ValidatorV7Registry) : ℕ :=
  reg.validators.countP ValidatorV7Entry.inEscrow

/-- The number of bonds in the unbonding pool. -/
def ValidatorV7Registry.unbondings (reg : ValidatorV7Registry) : ℕ :=
  reg.validators.countP ValidatorV7Entry.inPool

theorem ValidatorV7Registry.address_of_find {reg : ValidatorV7Registry} {addr : Pubkey} {idx : ℕ}
    {e : ValidatorV7Entry} (h : reg.find addr = some idx) (he : reg.validators[idx]? = some e) :
    e.address = addr := by
  obtain ⟨hlt, haddress, _⟩ := findIdx?_eq_some_iff_getElem.1 h
  rw [getElem?_eq_getElem hlt] at he
  rw [← Option.some.inj he]
  exact of_decide_eq_true haddress

namespace ValidatorV7Registry

variable {reg reg' : ValidatorV7Registry} {a : Pubkey} {slot idx : ℕ} {e e' : ValidatorV7Entry}

/-- Upkeep leaves everybody's address and bond where it is, and removes nobody. -/
theorem forall₂_upkeep (h : Upkeep reg reg') :
    List.Forall₂ (fun e e' : ValidatorV7Entry => e'.address = e.address ∧
        e'.inEscrow = e.inEscrow ∧ e'.inPool = e.inPool ∧
        (e'.state = .removed ↔ e.state = .removed))
      reg.validators reg'.validators := by
  refine h.imp ?_
  rintro e e' ⟨hentry, hstates⟩
  have haddress : e'.address = e.address := by rw [hentry]
  refine ⟨haddress, ?_⟩
  unfold ValidatorV7Entry.inEscrow ValidatorV7Entry.inPool
  rcases hstates with hsame | ⟨hold, hnew⟩ | ⟨hold, hnew⟩
  · rw [hsame]
    exact ⟨rfl, rfl, Iff.rfl⟩
  · rw [hold, hnew]
    decide
  · rw [hold, hnew]
    decide

/-- What upkeep leaves of every entry, it leaves of the registry. -/
theorem map_upkeep {α : Type} {f : ValidatorV7Entry → α}
    (h : List.Forall₂ (fun e e' => f e' = f e) reg.validators reg'.validators) :
    reg'.validators.map f = reg.validators.map f := by
  symm
  rw [← forall₂_eq_eq_eq, forall₂_map_left_iff, forall₂_map_right_iff]
  exact h.imp fun _ _ hentry => hentry.symm

theorem countP_upkeep {p : ValidatorV7Entry → Bool}
    (h : List.Forall₂ (fun e e' => p e' = p e) reg.validators reg'.validators) :
    reg'.validators.countP p = reg.validators.countP p := by
  have hcount : ∀ reg : ValidatorV7Registry,
      reg.validators.countP p = (reg.validators.map p).countP id := by
    intro reg
    rw [countP_map]
    rfl
  rw [hcount, hcount, map_upkeep h]

theorem bonds_upkeep (h : Upkeep reg reg') : reg'.bonds = reg.bonds :=
  countP_upkeep ((forall₂_upkeep h).imp fun _ _ hentry => hentry.2.1)

theorem unbondings_upkeep (h : Upkeep reg reg') : reg'.unbondings = reg.unbondings :=
  countP_upkeep ((forall₂_upkeep h).imp fun _ _ hentry => hentry.2.2.1)

theorem countP_set_toNat {p : ValidatorV7Entry → Bool} (he : reg.validators[idx]? = some e)
    (e' : ValidatorV7Entry) :
    (reg.validators.set idx e').countP p + (p e).toNat =
      reg.validators.countP p + (p e').toNat := by
  have hset : (reg.validators.set idx e').countP p + _ = _ := countP_set_add he
  have hnat : ∀ c : Bool, (if c then 1 else 0) = c.toNat := by decide
  rw [hnat, hnat] at hset
  exact hset

end ValidatorV7Registry

/-! ### The books -/

/-- What the validator program keeps. -/
structure ValidatorBooks where
  chainId : Bytes32
  global : GlobalStakingState
  registry : ValidatorV7Registry
  recovery : RecoveryRegistry
  timelock : KeyTimelockRegistry
  rotation : ConsensusRotationRegistry
  log : KmAuditLog
  /-- The amount set aside for bonds in the escrow. -/
  escrow : ℕ
  /-- The amount set aside for bonds in the unbonding pool. -/
  pool : ℕ

/-- The current quanto. -/
def ValidatorBooks.quanto (b : ValidatorBooks) : U64 := b.global.currentQuanto

/-- The bond of an entry goes where the new entry has it. -/
def ValidatorBooks.settle (b : ValidatorBooks) (e e' : ValidatorV7Entry) : ValidatorBooks :=
  { b with
    escrow := b.escrow + validatorBondAtoms * e'.inEscrow.toNat -
      validatorBondAtoms * e.inEscrow.toNat
    pool := b.pool + validatorBondAtoms * e'.inPool.toNat - validatorBondAtoms * e.inPool.toNat }

namespace RecoveryOp

/-- What a recovery operation asks of the entry of a validator. -/
def Allowed (e : ValidatorV7Entry) : RecoveryOp → Prop
  | revoke => e.state = .bondedPending ∨ e.state = .active ∨ e.state = .jailed
  | freeze untilQuanto => (e.state ≠ .revoked ∧ e.state ≠ .removed) ∧ 0 < (untilQuanto : ℕ)
  | unfreeze | setExpiry _ => True

/-- The entry after a recovery operation. -/
def edit (q : U64) (e : ValidatorV7Entry) : RecoveryOp → ValidatorV7Entry
  | revoke => { e with
      state := .revoked, exitRequestedQuanto := q
      bondReleaseQuanto := bondRelease q }
  | freeze untilQuanto => { e with frozenUntilQuanto := untilQuanto }
  | unfreeze => { e with frozenUntilQuanto := 0 }
  | setExpiry untilQuanto => { e with consensusKeyExpiryQuanto := untilQuanto }

end RecoveryOp

/-- The entry with a new key; the old one is retired. -/
def ValidatorV7Entry.rotated [Crypto] (e : ValidatorV7Entry) (newBundle : PublicKeyBundle)
    (newP2pAddress : Utf8) (q : U64) : ValidatorV7Entry :=
  { e.retireConsensusKey e.address q slashEvidenceWindowQuantos with
    address := newBundle.toAddress, pubkeyBundle := newBundle, p2pAddress := newP2pAddress,
    consensusKeyRevoked := false, consensusKeyExpiryQuanto := 0 }

/-- An entry that may be registered: its addresses and its moniker are not in use. -/
structure Registration [Crypto] (reg : ValidatorV7Registry) (q : U64) (bundle : PublicKeyBundle)
    (e : ValidatorV7Entry) : Prop where
  address : e.address = bundle.toAddress
  bundle : e.pubkeyBundle = bundle
  state : e.state = .bondedPending
  bond : e.bond = validatorBondAtoms
  registered : e.registeredQuanto = q
  expiry : e.consensusKeyExpiryQuanto = 0
  frozen : e.frozenUntilQuanto = 0
  retired : e.retiredConsensusKeys = []
  moniker : reg.monikerTaken e.moniker.bytes e.address = false
  free : ∀ k ∈ [e.address, e.operatorAddress, e.withdrawalAddress],
    reg.addressInUse e.address k = false

namespace ValidatorBooks

/-- What an instruction makes of the entry of one validator. -/
inductive Edit [Crypto] (b : ValidatorBooks) (e : ValidatorV7Entry) :
    ValidatorV7Instruction → ValidatorV7Entry → Prop
  | unjail (hjailed : e.state = .jailed) :
      Edit b e (.unjail e.address)
        { e with state := .active, participationCredits := 0, participationOpportunities := 0 }
  | revokeKey (hremoved : e.state ≠ .removed) :
      Edit b e (.revokeConsensusKey e.address) { e with consensusKeyRevoked := true }
  | expiry {expiryQuanto : U64} (hremoved : e.state ≠ .removed) :
      Edit b e (.setConsensusKeyExpiry e.address expiryQuanto)
        { e with consensusKeyExpiryQuanto := expiryQuanto }
  | operator {newOperator : Pubkey} (hremoved : e.state ≠ .removed)
      (hfrozen : e.isFrozen b.quanto = false)
      (hfree : b.registry.addressInUse e.address newOperator = false) :
      Edit b e (.applyPendingKeyChange e.address .operator)
        { e with operatorAddress := newOperator }
  | withdrawal {newWithdrawal : Pubkey} (hremoved : e.state ≠ .removed)
      (hfrozen : e.isFrozen b.quanto = false)
      (hfree : b.registry.addressInUse e.address newWithdrawal = false) :
      Edit b e (.applyPendingKeyChange e.address .withdrawal)
        { e with withdrawalAddress := newWithdrawal }
  | exit (hstate : e.state = .bondedPending ∨ e.state = .active ∨ e.state = .jailed)
      (hfrozen : e.isFrozen b.quanto = false) :
      Edit b e (.beginExit e.address)
        { e with
          state := .unbonding, exitRequestedQuanto := b.quanto
          bondReleaseQuanto := bondRelease b.quanto }
  | withdraw (hstate : e.state = .unbonding ∨ e.state = .revoked)
      (hfrozen : e.isFrozen b.quanto = false) (hrelease : e.bondReleaseQuanto ≤ b.quanto) :
      Edit b e (.withdrawBond e.address) { e with state := .removed, bond := 0 }
  | recover {op : RecoveryOp} {approvals : List RecoveryApproval} (hop : op.Allowed e) :
      Edit b e (.recoverOp e.address op approvals) (op.edit b.quanto e)
  | rotate {newBundle : PublicKeyBundle} {newP2pAddress : Utf8} {newPop : MultiSignature}
      (hremoved : e.state ≠ .removed) (hfrozen : e.isFrozen b.quanto = false)
      (hne : newBundle.toAddress ≠ e.address)
      (hfree : b.registry.addressInUse e.address newBundle.toAddress = false) :
      Edit b e (.rotateConsensusKey e.address newBundle newP2pAddress newPop)
        (e.rotated newBundle newP2pAddress b.quanto)
  | accept {newBundle : PublicKeyBundle} {newP2pAddress : Utf8} {acceptPop : MultiSignature}
      (hremoved : e.state ≠ .removed) (hfrozen : e.isFrozen b.quanto = false)
      (hne : newBundle.toAddress ≠ e.address)
      (hfree : b.registry.addressInUse e.address newBundle.toAddress = false) :
      Edit b e (.acceptConsensusKeyRotation e.address acceptPop)
        (e.rotated newBundle newP2pAddress b.quanto)
  | slash {evidence : EquivocationEvidence} (hslashed : e.state ≠ .slashed)
      (hremoved : e.state ≠ .removed) :
      Edit b e (.reportEquivocation evidence) { e with state := .slashed, bond := 0 }
  | registerAgain {moniker p2pAddress : Utf8} {bundle : PublicKeyBundle}
      {withdrawalAddress : Option Pubkey} {consensusPop : MultiSignature} {e' : ValidatorV7Entry}
      (hremoved : e.state = .removed) (haddress : e'.address = e.address)
      (hregistration : Registration b.registry b.quanto bundle e') :
      Edit b e (.bondAndRegister moniker bundle p2pAddress withdrawalAddress consensusPop) e'

end ValidatorBooks

namespace ValidatorV7Instruction

/-- An instruction that enters a pending change or removes one. -/
def isPending : ValidatorV7Instruction → Bool
  | rotateOperator _ _ | rotateWithdrawal _ _ | setRecoveryCommittee _ _
  | cancelPendingKeyChange _ _ => true
  | _ => false

/-- An instruction that enters a pending rotation or removes one. -/
def isPendingRotation : ValidatorV7Instruction → Bool
  | proposeConsensusKeyRotation _ _ _ | cancelConsensusKeyRotation _ => true
  | _ => false

/-- An instruction that replaces the key of a validator. -/
def isRotation : ValidatorV7Instruction → Bool
  | rotateConsensusKey _ _ _ _ | acceptConsensusKeyRotation _ _ => true
  | _ => false

/-- An instruction of a recovery committee. -/
def isRecovery : ValidatorV7Instruction → Bool
  | recoverOp _ _ _ => true
  | _ => false

/-- An instruction that registers a validator. -/
def isRegistration : ValidatorV7Instruction → Bool
  | bondAndRegister _ _ _ _ _ => true
  | _ => false

/-- An instruction that reports a validator for equivocation. -/
def isReport : ValidatorV7Instruction → Bool
  | reportEquivocation _ => true
  | _ => false

/-- An instruction whose guards look at the quanto. -/
def readsQuanto : ValidatorV7Instruction → Bool
  | unjail _ | revokeConsensusKey _ | setConsensusKeyExpiry _ _ | cancelPendingKeyChange _ _
  | cancelConsensusKeyRotation _ | reportEquivocation _ => false
  | _ => true

/-- The validator that an instruction names by its address. -/
def target [Crypto] : ValidatorV7Instruction → Option Pubkey
  | bondAndRegister _ consensusBundle _ _ _ => some consensusBundle.toAddress
  | reportEquivocation _ => none
  | beginExit consensusAddress | withdrawBond consensusAddress | unjail consensusAddress
  | rotateOperator consensusAddress _ | rotateWithdrawal consensusAddress _
  | rotateConsensusKey consensusAddress _ _ _ | revokeConsensusKey consensusAddress
  | setConsensusKeyExpiry consensusAddress _ | setRecoveryCommittee consensusAddress _
  | recoverOp consensusAddress _ _ | applyPendingKeyChange consensusAddress _
  | cancelPendingKeyChange consensusAddress _ | proposeConsensusKeyRotation consensusAddress _ _
  | acceptConsensusKeyRotation consensusAddress _
  | cancelConsensusKeyRotation consensusAddress => some consensusAddress

end ValidatorV7Instruction

namespace ValidatorBooks

variable [Crypto]

/-- What an instruction, or the close of a quanto, enters in the books. -/
inductive Step (b : ValidatorBooks) : Option ValidatorV7Instruction → ValidatorBooks → Prop
  | close {g : GlobalStakingState}
      (hquanto : g.currentQuanto = Word.clamp (b.global.currentQuanto + 1)) :
      Step b none { b with global := g }
  | upkeep {reg : ValidatorV7Registry} (hupkeep : Upkeep b.registry reg) :
      Step b none { b with registry := reg }
  | pending {instr : ValidatorV7Instruction} {pending : List PendingKeyChangeEntry}
      (hinstr : instr.isPending = true)
      (hproper : ∀ p ∈ pending, p ∈ b.timelock.pending ∨ p.change.Proper) :
      Step b (some instr) { b with timelock := ⟨pending⟩ }
  | rotation {instr : ValidatorV7Instruction} (hinstr : instr.isPendingRotation = true)
      (cr : ConsensusRotationRegistry) : Step b (some instr) { b with rotation := cr }
  | committee {addr : Pubkey} {config : RecoveryConfig} {r : RecoveryRegistry} {ti : ℕ}
      {p : PendingKeyChangeEntry} {pending : List PendingKeyChangeEntry}
      (hti : b.timelock.find addr .recoveryCommittee = some ti)
      (hp : b.timelock.pending[ti]? = some p) (hchange : p.change = .recoveryCommittee config)
      (hrecommit : b.recovery.Recommit addr config r)
      (hpending : ∀ p ∈ pending, p ∈ b.timelock.pending) :
      Step b (some (.applyPendingKeyChange addr .recoveryCommittee))
        { b with recovery := r, timelock := ⟨pending⟩ }
  | edit {instr : ValidatorV7Instruction} {idx : ℕ} {e e' : ValidatorV7Entry}
      {pending : List PendingKeyChangeEntry} (cr : ConsensusRotationRegistry)
      (hrecovery : instr.isRecovery = false) (hfind : b.registry.find e.address = some idx)
      (he : b.registry.validators[idx]? = some e) (hedit : b.Edit e instr e')
      (hpending : ∀ p ∈ pending, p ∈ b.timelock.pending) :
      Step b (some instr)
        { b.settle e e' with
          registry := ⟨b.registry.validators.set idx e'⟩
          timelock := ⟨pending⟩
          rotation := cr }
  | slash {evidence : EquivocationEvidence} {idx : ℕ} {e e' : ValidatorV7Entry}
      (he : b.registry.validators[idx]? = some e)
      (hedit : b.Edit e (.reportEquivocation evidence) e') :
      Step b (some (.reportEquivocation evidence))
        { b.settle e e' with registry := ⟨b.registry.validators.set idx e'⟩ }
  | recover {addr : Pubkey} {op : RecoveryOp} {approvals : List RecoveryApproval} {i idx : ℕ}
      {entry : RecoveryEntry} {e e' : ValidatorV7Entry} {pending : List PendingKeyChangeEntry}
      (cr : ConsensusRotationRegistry) (log : KmAuditLog)
      (hcommittee : b.recovery.find addr = some i) (hentry : b.recovery.entries[i]? = some entry)
      (hthreshold : entry.config.threshold ≠ 0)
      (hquorum : entry.config.threshold.toNat ≤ (countApprovals entry.config
        (recoveryMessage b.chainId addr op entry.nonce) approvals).length % 256)
      (hfind : b.registry.find addr = some idx) (he : b.registry.validators[idx]? = some e)
      (hedit : b.Edit e (.recoverOp addr op approvals) e')
      (hpending : ∀ p ∈ pending, p ∈ b.timelock.pending) :
      Step b (some (.recoverOp addr op approvals))
        { b.settle e e' with
          registry := ⟨b.registry.validators.set idx e'⟩
          recovery := ⟨b.recovery.entries.set i
            { entry with nonce := Word.clamp (entry.nonce + 1) }⟩
          timelock := ⟨pending⟩
          rotation := cr
          log := log }
  | register {moniker p2pAddress : Utf8} {bundle : PublicKeyBundle}
      {withdrawalAddress : Option Pubkey} {consensusPop : MultiSignature} {e : ValidatorV7Entry}
      (hfind : b.registry.find e.address = none)
      (hregistration : Registration b.registry b.quanto bundle e) :
      Step b (some (.bondAndRegister moniker bundle p2pAddress withdrawalAddress consensusPop))
        { b with
          registry := ⟨b.registry.validators ++ [e]⟩
          escrow := b.escrow + validatorBondAtoms }

/-! ### One validator -/

/-- What the upkeep of a quanto makes of an entry. -/
def UpkeepEntry (e e' : ValidatorV7Entry) : Prop :=
  e' = { e with
    state := e'.state, participationCredits := e'.participationCredits,
    participationOpportunities := e'.participationOpportunities } ∧
  (e.state = e'.state ∨ e.state = .bondedPending ∧ e'.state = .active ∨
    e.state = .active ∧ e'.state = .jailed)

/-- What a step makes of the entry in a slot of the registry. -/
inductive Turn (b : ValidatorBooks) (label : Option ValidatorV7Instruction) (slot : ℕ)
    (e : ValidatorV7Entry) : ValidatorV7Entry → Prop
  | same : Turn b label slot e e
  | upkeep {e' : ValidatorV7Entry} (hupkeep : UpkeepEntry e e') : Turn b label slot e e'
  | edit {instr : ValidatorV7Instruction} {e' : ValidatorV7Entry} (hlabel : label = some instr)
      (hedit : b.Edit e instr e')
      (hfind : instr.isReport = false → b.registry.find e.address = some slot) :
      Turn b label slot e e'

section

variable {b b' : ValidatorBooks} {e e' : ValidatorV7Entry} {instr : ValidatorV7Instruction}
  {label : Option ValidatorV7Instruction} {slot idx : ℕ} {a : Pubkey}

/-- Only a rotation changes the address of a validator. -/
theorem Edit.address (h : b.Edit e instr e') (hrotation : instr.isRotation = false) :
    e'.address = e.address := by
  cases h with
  | recover => rename_i op _ _; cases op <;> rfl
  | rotate | accept => cases hrotation
  | registerAgain _ haddress => exact haddress
  | _ => rfl

/-- An instruction edits the validator that it names, if it is no report. -/
theorem Edit.target (h : b.Edit e instr e') (hreport : instr.isReport = false) :
    instr.target = some e.address := by
  cases h with
  | registerAgain _ haddress hregistration =>
    rw [← haddress, hregistration.address]
    rfl
  | slash => cases hreport
  | _ => rfl

/-- An entry that is replaced, and the others that are not. -/
theorem turn_set (he : b.registry.validators[slot]? = some e)
    (hidx : b.registry.validators[idx]? = some e') {e'' : ValidatorV7Entry}
    (hturn : idx = slot → b.Turn label slot e e'') :
    ∃ e₁, (b.registry.validators.set idx e'')[slot]? = some e₁ ∧ b.Turn label slot e e₁ := by
  by_cases hslot : idx = slot
  · obtain ⟨hlt, _⟩ := List.getElem?_eq_some_iff.1 hidx
    refine ⟨e'', ?_, hturn hslot⟩
    rw [← hslot]
    exact getElem?_set_self hlt
  · exact ⟨e, (getElem?_set_ne hslot).trans he, .same⟩

/-- The validator in a slot stays there, and turns as one edit or the upkeep says. -/
theorem Step.turn (h : b.Step label b') (he : b.registry.validators[slot]? = some e) :
    ∃ e', b'.registry.validators[slot]? = some e' ∧ b.Turn label slot e e' := by
  cases h with
  | close | pending | rotation | committee => exact ⟨e, he, .same⟩
  | @upkeep reg hupkeep =>
    obtain ⟨hlt, rfl⟩ := List.getElem?_eq_some_iff.1 he
    have hlt' : slot < reg.validators.length := hupkeep.length_eq ▸ hlt
    have hentries : List.Forall₂ UpkeepEntry b.registry.validators reg.validators := hupkeep
    exact ⟨_, getElem?_eq_getElem hlt', .upkeep (hentries.get hlt hlt')⟩
  | @edit _ idx _ _ _ _ _ hfind hidx hedit =>
    apply turn_set he hidx
    rintro rfl
    obtain rfl := Option.mem_unique he hidx
    exact .edit rfl hedit fun _ => hfind
  | @slash _ idx _ _ hidx hedit =>
    apply turn_set he hidx
    rintro rfl
    obtain rfl := Option.mem_unique he hidx
    refine .edit rfl hedit fun hreport => ?_
    cases hreport
  | @recover _ _ _ _ idx _ _ _ _ _ _ _ _ _ _ hfind hidx hedit =>
    apply turn_set he hidx
    rintro rfl
    obtain rfl := Option.mem_unique he hidx
    rw [← ValidatorV7Registry.address_of_find hfind he] at hfind
    exact .edit rfl hedit fun _ => hfind
  | register =>
    obtain ⟨hlt, _⟩ := List.getElem?_eq_some_iff.1 he
    exact ⟨e, (getElem?_append_left hlt).trans he, .same⟩

/-- An entry of the registry was there before, or is that of a new validator. -/
theorem Step.entry (h : b.Step label b') (he' : b'.registry.validators[slot]? = some e') :
    (∃ e, b.registry.validators[slot]? = some e ∧ b.Turn label slot e e') ∨
      ∃ instr bundle, label = some instr ∧ instr.isRegistration = true ∧
        b.registry.find e'.address = none ∧ Registration b.registry b.quanto bundle e' ∧
        b'.registry.validators = b.registry.validators ++ [e'] ∧
        instr.target = some e'.address := by
  by_cases hlt : slot < b.registry.validators.length
  · obtain ⟨e'', hslot, hturn⟩ := h.turn (getElem?_eq_getElem hlt)
    obtain rfl := Option.mem_unique he' hslot
    exact .inl ⟨_, getElem?_eq_getElem hlt, hturn⟩
  · -- only a registration makes the registry longer
    have hgrows : b'.registry.validators.length ≠ b.registry.validators.length := by
      intro hlength
      rw [← hlength] at hlt
      exact hlt (List.getElem?_eq_some_iff.1 he').1
    cases h with
    | @register _ _ bundle _ _ e hfind hregistration =>
      obtain ⟨hlt', hget⟩ := List.getElem?_eq_some_iff.1 he'
      have hslot : slot = b.registry.validators.length := by
        rw [length_append, length_singleton] at hlt'
        omega
      subst hslot
      rw [getElem?_concat_length] at he'
      obtain rfl := Option.some.inj he'
      exact .inr ⟨_, bundle, rfl, rfl, hfind, hregistration, rfl,
        congrArg some hregistration.address.symm⟩
    | upkeep hupkeep => exact absurd hupkeep.length_eq.symm hgrows
    | edit | slash | recover => exact absurd length_set hgrows
    | _ => exact absurd rfl hgrows

/-- The quanto never falls. -/
theorem Step.quanto_le (h : b.Step label b') : b.quanto ≤ b'.quanto := by
  cases h with
  | @close g hquanto =>
    have hlt := b.global.currentQuanto.toNat_lt
    rw [quanto, quanto, hquanto, Word.le_iff, Word.toNat_clamp]
    omega
  | _ => exact le_rfl

end

/-! ### Sound books -/

/-- Committees are proper, also those that are pending, and both pools hold every bond that is in
them. -/
structure Sound (b : ValidatorBooks) : Prop where
  committees : ∀ e ∈ b.recovery.entries, e.config.Proper
  pending : ∀ p ∈ b.timelock.pending, p.change.Proper
  bonds : validatorBondAtoms * b.registry.bonds ≤ b.escrow
  unbondings : validatorBondAtoms * b.registry.unbondings ≤ b.pool

section

variable {b b' : ValidatorBooks} {e e' : ValidatorV7Entry} {instr : ValidatorV7Instruction}
  {label : Option ValidatorV7Instruction} {slot idx : ℕ} {a : Pubkey} {config : RecoveryConfig}

omit [Crypto] in
/-- What is set aside follows the number of bonds. -/
theorem le_settled {bond bonds bonds' inside inside' funds : ℕ}
    (hset : bonds' + inside = bonds + inside') (h : bond * bonds ≤ funds) :
    bond * bonds' ≤ funds + bond * inside' - bond * inside := by
  apply Nat.le_sub_of_add_le
  rw [← Nat.mul_add, hset, Nat.mul_add]
  exact Nat.add_le_add_right h _

omit [Crypto] in
/-- The pools hold the bonds as an entry is replaced and its bond goes where it has to. -/
theorem Sound.settle (h : Sound b) (he : b.registry.validators[idx]? = some e) :
    validatorBondAtoms * ValidatorV7Registry.bonds ⟨b.registry.validators.set idx e'⟩ ≤
        (b.settle e e').escrow ∧
      validatorBondAtoms * ValidatorV7Registry.unbondings ⟨b.registry.validators.set idx e'⟩ ≤
        (b.settle e e').pool :=
  ⟨le_settled (ValidatorV7Registry.countP_set_toNat he e') h.bonds,
    le_settled (ValidatorV7Registry.countP_set_toNat he e') h.unbondings⟩

/-- Every step keeps the books sound. -/
theorem Step.sound (hstep : b.Step label b') (h : Sound b) : Sound b' := by
  obtain ⟨hcommittees, hpending, hbonds, hunbondings⟩ := id h
  cases hstep with
  | close | rotation => exact ⟨hcommittees, hpending, hbonds, hunbondings⟩
  | pending _ hproper =>
    refine ⟨hcommittees, fun p hp => ?_, hbonds, hunbondings⟩
    rcases hproper p hp with hold | hnew
    · exact hpending p hold
    · exact hnew
  | committee _ hp hchange hrecommit hsubset =>
    refine ⟨fun e he => ?_, fun p hp => hpending p (hsubset p hp), hbonds, hunbondings⟩
    rcases hrecommit.mem e he with hold | ⟨hset, hconfig⟩
    · exact hcommittees e hold
    · have hproper := hpending _ (mem_of_getElem? hp)
      rw [hchange] at hproper
      rw [hconfig]
      exact hproper.resolve_left hset
  | upkeep hupkeep =>
    refine ⟨hcommittees, hpending, ?_, ?_⟩
    · show _ * ValidatorV7Registry.bonds _ ≤ _
      rw [ValidatorV7Registry.bonds_upkeep hupkeep]
      exact hbonds
    · show _ * ValidatorV7Registry.unbondings _ ≤ _
      rw [ValidatorV7Registry.unbondings_upkeep hupkeep]
      exact hunbondings
  | edit _ _ _ he _ hsubset =>
    exact ⟨hcommittees, fun p hp => hpending p (hsubset p hp), (h.settle he).1, (h.settle he).2⟩
  | slash he => exact ⟨hcommittees, hpending, (h.settle he).1, (h.settle he).2⟩
  | recover _ _ _ hentry _ _ _ he _ hsubset =>
    refine ⟨fun e' he' => ?_, fun p hp => hpending p (hsubset p hp), (h.settle he).1,
      (h.settle he).2⟩
    rcases mem_or_eq_of_mem_set he' with hold | rfl
    · exact hcommittees e' hold
    · have hproper := hcommittees _ (mem_of_getElem? hentry)
      exact hproper
  | @register _ _ _ _ _ e _ hregistration =>
    have hcount : ∀ p : ValidatorV7Entry → Bool, (b.registry.validators ++ [e]).countP p =
        b.registry.validators.countP p + (p e).toNat := by
      intro p
      rw [countP_append, countP_singleton]
      cases p e <;> rfl
    obtain ⟨hin, hout⟩ := ValidatorV7Entry.inEscrow_of_exitable (.inl hregistration.state)
    refine ⟨hcommittees, hpending, ?_, ?_⟩
    · show _ * List.countP ValidatorV7Entry.inEscrow _ ≤ _
      rw [hcount, hin]
      exact Nat.add_le_add_right hbonds _
    · show _ * List.countP ValidatorV7Entry.inPool _ ≤ _
      rw [hcount, hout]
      exact hunbondings

end

end ValidatorBooks

end QChain
