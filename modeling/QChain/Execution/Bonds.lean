import QChain.Execution.ValidatorHistory

/-!
# The bonds of validators

Every validator pays a bond into the escrow. It goes to the unbonding pool when the validator leaves
or is revoked, and from there to its withdrawal address; or it is burned, from either pool, when the
validator is slashed. Both pools always hold the bonds that are in them, and a bond that has left
them does not leave them again unless another one is paid in.
-/

namespace QChain

open Accounts Borsh Exec List Option Transact
open ValidatorV7Entry ValidatorV7Program ValidatorV7Registry

/-! ### Transfers -/

/-- An amount goes from one account to another. Without a source it comes from nowhere, and without
a target it is burned. -/
def Transfers (amount : ℕ) (source target : Option Pubkey) (w w' : Accounts) : Prop :=
  ∀ k, w'.balanceOf k + (if source = some k then amount else 0) =
    w.balanceOf k + if target = some k then amount else 0

namespace Transfers

variable {amount : ℕ} {source target : Option Pubkey} {k k' owner : Pubkey} {w w' : Accounts}

theorem of_balanceOf_eq (h : ∀ k, w'.balanceOf k = w.balanceOf k) :
    Transfers amount none none w w' := fun k => h k

/-- Data is written without a change of any balance. -/
theorem data (h : Transfers amount source target w w') {bytes : List UInt8} :
    Transfers amount source target w
      (w'.insert k { w'.getOrNew k owner with data := bytes }) := by
  intro k'
  rw [balanceOf_insert_data]
  exact h k'

theorem debit {account : Account} {balance : U64} (hlookup : w.lookup k = some account)
    (hbalance : (balance : ℕ) + amount = account.balance) :
    Transfers amount (some k) none w (w.insert k { account with balance := balance }) := by
  intro k'
  rw [balanceOf_insert]
  by_cases hk : k' = k
  · subst hk
    rw [if_pos rfl, if_pos rfl, if_neg (some_ne_none _).symm, Nat.add_zero, hbalance,
      balanceOf_of_lookup hlookup]
  · rw [if_neg hk, if_neg fun heq => hk (Option.some.inj heq).symm,
      if_neg (some_ne_none _).symm]

/-- What was taken from one account is paid to another. -/
theorem credit (h : Transfers amount source none w w') {balance : U64}
    (hbalance : (balance : ℕ) = w'.balanceOf k + amount) :
    Transfers amount source (some k) w
      (w'.insert k { w'.getOrNew k owner with balance := balance }) := by
  intro k'
  have hsame := h k'
  rw [if_neg (some_ne_none _).symm, Nat.add_zero] at hsame
  rw [balanceOf_insert]
  by_cases hk : k' = k
  · subst hk
    rw [if_pos rfl, if_pos rfl, hbalance]
    omega
  · rw [if_neg hk, hsame, if_neg fun heq => hk (Option.some.inj heq).symm, Nat.add_zero]

end Transfers

/-! ### What instructions do with bonds -/

namespace ValidatorV7Entry

/-- The pool in which a validator has its bond. -/
def bondPlace (v : ValidatorV7Entry) : Option Pubkey :=
  if v.inEscrow then some validatorBondEscrowId
  else if v.inPool then some validatorUnbondingPoolId else none

variable {v v' : ValidatorV7Entry}

theorem bondPlace_of_escrow (h : v.inEscrow = true ∧ v.inPool = false) :
    v.bondPlace = some validatorBondEscrowId := by
  rw [bondPlace, h.1, if_pos rfl]

theorem bondPlace_eq_pool : v.bondPlace = some validatorUnbondingPoolId ↔ v.inPool = true := by
  have hne : validatorBondEscrowId ≠ validatorUnbondingPoolId := by decide
  rw [bondPlace, inEscrow, inPool]
  cases v.state <;> simp [hne]

theorem bondPlace_of_pool (h : v.inEscrow = false ∧ v.inPool = true) :
    v.bondPlace = some validatorUnbondingPoolId := by
  rw [bondPlace, h.1, h.2, if_neg Bool.false_ne_true, if_pos rfl]

theorem bondPlace_of_slashable (hslashed : v.state ≠ .slashed) (hremoved : v.state ≠ .removed) :
    v.bondPlace = some (if v.state = .unbonding ∨ v.state = .revoked then
      validatorUnbondingPoolId else validatorBondEscrowId) := by
  split_ifs with hstate
  · exact bondPlace_of_pool (inPool_of_unbonding hstate)
  · exact bondPlace_of_escrow (inEscrow_of_slashable hslashed hremoved hstate)

theorem slashable_of_bondPlace {place : Pubkey} (h : v.bondPlace = some place) :
    v.state ≠ .slashed ∧ v.state ≠ .removed := by
  constructor
  · intro hstate
    simp [bondPlace, inEscrow, inPool, hstate] at h
  · intro hstate
    simp [bondPlace, inEscrow, inPool, hstate] at h

theorem bondPlace_congr (h : v'.inEscrow = v.inEscrow ∧ v'.inPool = v.inPool) :
    v'.bondPlace = v.bondPlace := by
  rw [bondPlace, h.1, h.2, bondPlace]

end ValidatorV7Entry

/-- The pool in which the validator in a slot of the registry has its bond. -/
def bondAt (accounts : Accounts) (slot : ℕ) : Option Pubkey :=
  (storedRegistryV7 accounts).bind fun reg =>
    reg.validators[slot]?.bind ValidatorV7Entry.bondPlace

/-- The balances an instruction changes. -/
def BondFunds (payer : Pubkey) (w w' : Accounts) : ValidatorV7Instruction → Prop
  | .bondAndRegister _ _ _ _ _ =>
    Transfers validatorBondAtoms (some payer) (some validatorBondEscrowId) w w'
  | .beginExit _ | .recoverOp _ .revoke _ =>
    Transfers validatorBondAtoms (some validatorBondEscrowId) (some validatorUnbondingPoolId) w w'
  | .withdrawBond addr => ∃ reg idx v, storedRegistryV7 w = some reg ∧ reg.find addr = some idx ∧
    reg.validators[idx]? = some v ∧
    Transfers validatorBondAtoms (some validatorUnbondingPoolId) (some v.withdrawalAddress) w w'
  | .reportEquivocation _ => ∃ reg idx v, storedRegistryV7 w = some reg ∧
    reg.validators[idx]? = some v ∧ v.state ≠ .slashed ∧
    Transfers validatorBondAtoms v.bondPlace none w w' ∧
    storedRegistryV7 w' = some ⟨reg.validators.set idx { v with state := .slashed, bond := 0 }⟩
  | _ => Transfers validatorBondAtoms none none w w'

namespace ValidatorV7Program

variable {ix : Instruction} {payer addr : Pubkey} {w : Accounts}

theorem moveBond_transfers {source target owner : Pubkey} {underfunded : String} :
    Wp (moveBond source target owner underfunded) w fun _ w' =>
      Transfers validatorBondAtoms (some source) (some target) w w' := by
  simp only [moveBond, wp_rules, wp_balanceOrZero, wp_debitExisting, wp_credit]
  intro _ account hlookup balance hbalance balance' hbalance'
  exact (Transfers.debit hlookup hbalance).credit hbalance'

/-- What is written to the registry is read from it. -/
theorem wp_writeRegistryV7_stored {reg : ValidatorV7Registry} :
    Wp (writeRegistryV7 reg) w fun _ w' => storedRegistryV7 w' = some reg := by
  simp only [writeRegistryV7, writeLazy, wp_steps, wp_put]
  intro bytes hbytes
  rw [storedRegistryV7, Finmap.lookup_insert]
  show decodeRegistry bytes = some reg
  rw [decodeRegistry, fromSlice_eq_some_iff.2 hbytes, some_or]

theorem beginExit_funds : Wp (beginExit ix payer addr) w fun _ w' =>
    BondFunds payer w w' (.beginExit addr) := by
  simp only [beginExit, wp_stepsV7]
  rintro _ _ _ _ _ _ _ _ ⟨rfl, rfl, rfl, rfl⟩
  intros
  refine moveBond_transfers.mono fun _ w₁ h₁ _ _ => ?_
  exact writeEntry_writesData (fun _ _ _ _ _ h => h.data) h₁

theorem withdrawBond_funds : Wp (withdrawBond ix payer addr) w fun _ w' =>
    BondFunds payer w w' (.withdrawBond addr) := by
  simp only [withdrawBond, wp_stepsV7]
  rintro _ _ _ _ _ _ _ _ ⟨rfl, rfl, rfl⟩ reg hreg idx hfind v hv _ _ rfl
  intros
  refine moveBond_transfers.mono fun _ w₁ h₁ => ?_
  refine (writeEntry_writesData (fun _ _ _ _ _ h => h.data) h₁).mono fun _ w' h' => ?_
  exact ⟨reg, idx, v, hreg, hfind, hv, h'⟩

variable [Crypto]

theorem recoverOp_funds {op : RecoveryOp} {approvals : List RecoveryApproval} :
    Wp (recoverOp ix addr op approvals) w fun _ w' =>
      BondFunds payer w w' (.recoverOp addr op approvals) := by
  cases op with
  | revoke =>
    refine recoverOp_keeps (fun _ _ _ _ _ h => h.data) fun e q => ?_
    simp only [applyRecoveryOp, wp_rules]
    exact fun _ => moveBond_transfers
  | freeze untilQuanto =>
    refine recoverOp_keeps (fun _ _ _ _ _ h => h.data) fun e q => ?_
    simp only [applyRecoveryOp, wp_rules]
    exact fun _ _ => .of_balanceOf_eq fun _ => rfl
  | unfreeze | setExpiry untilQuanto =>
    refine recoverOp_keeps (fun _ _ _ _ _ h => h.data) fun e q => ?_
    exact (wp_pure _).2 (.of_balanceOf_eq fun _ => rfl)

theorem bondAndRegister_funds {moniker : Utf8} {bundle : PublicKeyBundle} {p2pAddress : Utf8}
    {withdrawalAddress : Option Pubkey} {consensusPop : MultiSignature} :
    Wp (bondAndRegister ix payer moniker bundle p2pAddress withdrawalAddress consensusPop) w
      fun _ w' => BondFunds payer w w'
        (.bondAndRegister moniker bundle p2pAddress withdrawalAddress consensusPop) := by
  simp only [bondAndRegister, checkP2pAddress, wp_stepsV7, wp_debitExisting, wp_credit]
  rintro _ _ _ _ _ _ _ _ ⟨rfl, rfl, rfl⟩ rfl _ _ _ _ _ _ _ _ _ _ _ _ _ _ _ _ account hlookup
    balance hbalance balance' hbalance' _ _
  refine WritesData.writeLazy (mem_singleton_self _) (fun _ _ _ _ _ h => h.data) ?_
  exact (Transfers.debit hlookup hbalance).credit hbalance'

theorem reportEquivocation_funds {evidence : EquivocationEvidence} :
    Wp (reportEquivocation ix evidence) w fun _ w' =>
      BondFunds payer w w' (.reportEquivocation evidence) := by
  simp only [reportEquivocation, StakingProgram.checkEvidence, readChainId, wp_stepsV7,
    wp_balanceOrZero]
  rintro _ _ _ _ _ _ _ ⟨rfl, rfl, rfl⟩ _ _ _ _ _ _ _ _ reg hreg g _ idx _ v hv
    ⟨hslashed, hremoved⟩ _
  have hplace := ValidatorV7Entry.bondPlace_of_slashable hslashed hremoved
  rw [wp_debitExisting]
  intro account hlookup balance hbalance
  refine (wp_writeRegistryV7_stored.and (writeEntry_writesData
    (fun _ _ _ _ _ h => h.data) (Transfers.debit hlookup hbalance))).mono ?_
  rintro _ w' ⟨hstored, htransfers⟩
  rw [← hplace] at htransfers
  exact ⟨reg, idx, v, hreg, hv, hslashed, htransfers, hstored⟩

/-- The balances that change are those the instruction says. -/
theorem process_funds : Wp (process ix payer) w fun _ w' => ∃ instr,
    ValidatorV7Instruction.decode.all ix.data = some instr ∧ BondFunds payer w w' instr := by
  simp only [process, wp_rules]
  intro instr hinstr
  have hfunds : ∀ {m : Exec Unit}, Wp m w (fun _ w' => BondFunds payer w w' instr) →
      Wp m w fun _ w' => ∃ instr, ValidatorV7Instruction.decode.all ix.data = some instr ∧
        BondFunds payer w w' instr := fun hm => hm.mono fun _ _ h => ⟨instr, hinstr, h⟩
  have hkept : ∀ {m : Exec Unit}, WritesData keys m →
      Wp m w fun _ w' => Transfers validatorBondAtoms none none w w' := fun hm =>
    hm.balanceOf_eq.mono fun _ _ h => .of_balanceOf_eq h
  cases instr with
  | bondAndRegister => exact hfunds bondAndRegister_funds
  | beginExit => exact hfunds beginExit_funds
  | withdrawBond => exact hfunds withdrawBond_funds
  | reportEquivocation => exact hfunds reportEquivocation_funds
  | recoverOp => exact hfunds recoverOp_funds
  | unjail => exact hfunds (hkept unjail_writesData)
  | rotateOperator => exact hfunds (hkept rotateOperator_writesData)
  | rotateWithdrawal => exact hfunds (hkept rotateWithdrawal_writesData)
  | rotateConsensusKey => exact hfunds (hkept rotateConsensusKey_writesData)
  | revokeConsensusKey => exact hfunds (hkept revokeConsensusKey_writesData)
  | setConsensusKeyExpiry => exact hfunds (hkept setConsensusKeyExpiry_writesData)
  | setRecoveryCommittee => exact hfunds (hkept setRecoveryCommittee_writesData)
  | applyPendingKeyChange => exact hfunds (hkept applyPendingKeyChange_writesData)
  | cancelPendingKeyChange => exact hfunds (hkept cancelPendingKeyChange_writesData)
  | proposeConsensusKeyRotation => exact hfunds (hkept proposeConsensusKeyRotation_writesData)
  | acceptConsensusKeyRotation => exact hfunds (hkept acceptConsensusKeyRotation_writesData)
  | cancelConsensusKeyRotation => exact hfunds (hkept cancelConsensusKeyRotation_writesData)

end ValidatorV7Program

/-! ### Executions -/

/-- An execution moves the bond of the validator in a slot, along with an amount, and leaves all
other bonds where they are. -/
structure MovesBond (e : Execution) (slot : ℕ) (before after source target : Option Pubkey) :
    Prop where
  before : bondAt e.before slot = before
  after : bondAt e.after slot = after
  others : ∀ slot' ≠ slot, bondAt e.after slot' = bondAt e.before slot'
  funds : Transfers validatorBondAtoms source target e.before e.after

/-- An execution leaves all bonds where they are. -/
structure KeepsBonds (e : Execution) : Prop where
  places : ∀ slot, bondAt e.after slot = bondAt e.before slot
  funds : Transfers validatorBondAtoms none none e.before e.after

variable (e : Execution)

/-- The quanto at which an execution starts. -/
def Execution.AtQuanto (q : U64) : Prop :=
  ∃ g, storedGlobal e.before = some g ∧ g.currentQuanto = q

variable (slot : ℕ)

/-- A bond is paid into the escrow. -/
def PaysIn : Prop :=
  MovesBond e slot none (some validatorBondEscrowId) (some e.payer) (some validatorBondEscrowId)

/-- A bond goes from the escrow to the unbonding pool. -/
def Unbonds (q : U64) : Prop :=
  e.AtQuanto q ∧ MovesBond e slot (some validatorBondEscrowId) (some validatorUnbondingPoolId)
    (some validatorBondEscrowId) (some validatorUnbondingPoolId)

/-- A bond is paid out to the withdrawal address of the validator. -/
def Withdraws (q : U64) : Prop :=
  e.AtQuanto q ∧ ∃ reg v, storedRegistryV7 e.before = some reg ∧ reg.validators[slot]? = some v ∧
    v.bondReleaseQuanto ≤ q ∧
    MovesBond e slot (some validatorUnbondingPoolId) none (some validatorUnbondingPoolId)
      (some v.withdrawalAddress)

/-- A bond is burned, in whichever pool it is, on a report of equivocation. -/
def Burns : Prop :=
  (∃ evidence, ValidatorV7Instruction.decode.all e.ix.data = some (.reportEquivocation evidence)) ∧
    ∃ place, MovesBond e slot (some place) none (some place) none

/-- The bond of one validator moves, at a quanto. -/
def MovesOne (q : U64) : Prop :=
  PaysIn e slot ∨ Unbonds e slot q ∨ Withdraws e slot q ∨ Burns e slot

theorem MovesOne.moves {e : Execution} {slot : ℕ} {q : U64} (h : MovesOne e slot q) :
    ∃ before after source target, MovesBond e slot before after source target := by
  rcases h with hmoves | ⟨_, hmoves⟩ | ⟨_, _, _, _, _, _, hmoves⟩ | ⟨_, _, hmoves⟩
  · exact ⟨_, _, _, _, hmoves⟩
  · exact ⟨_, _, _, _, hmoves⟩
  · exact ⟨_, _, _, _, hmoves⟩
  · exact ⟨_, _, _, _, hmoves⟩

section Registries

variable {e : Execution} {reg : ValidatorV7Registry} {idx slot : ℕ} {v v' : ValidatorV7Entry}
  {source target : Option Pubkey} {accounts : Accounts}

theorem bondAt_of_stored (h : storedRegistryV7 accounts = some reg) :
    bondAt accounts slot = reg.validators[slot]?.bind ValidatorV7Entry.bondPlace := by
  rw [bondAt, h, bind_some]

variable (hbefore : storedRegistryV7 e.before = some reg)

include hbefore

/-- The entry of one validator is replaced. -/
theorem MovesBond.of_set (hafter : storedRegistryV7 e.after = some ⟨reg.validators.set idx v'⟩)
    (hv : reg.validators[idx]? = some v)
    (hfunds : Transfers validatorBondAtoms source target e.before e.after) :
    MovesBond e idx v.bondPlace v'.bondPlace source target := by
  obtain ⟨hlt, _⟩ := List.getElem?_eq_some_iff.1 hv
  refine ⟨?_, ?_, fun slot' hslot => ?_, hfunds⟩
  · rw [bondAt_of_stored hbefore, hv, bind_some]
  · rw [bondAt_of_stored hafter, getElem?_set_self hlt, bind_some]
  · rw [bondAt_of_stored hafter, bondAt_of_stored hbefore, getElem?_set_ne hslot.symm]

theorem KeepsBonds.of_set (hafter : storedRegistryV7 e.after = some ⟨reg.validators.set idx v'⟩)
    (hv : reg.validators[idx]? = some v)
    (hfunds : Transfers validatorBondAtoms none none e.before e.after)
    (hplace : v'.bondPlace = v.bondPlace) : KeepsBonds e := by
  have hmoves := MovesBond.of_set hbefore hafter hv hfunds
  refine ⟨fun slot => ?_, hfunds⟩
  by_cases hslot : slot = idx
  · rw [hslot, hmoves.after, hmoves.before, hplace]
  · exact hmoves.others slot hslot

theorem KeepsBonds.of_eq (hafter : storedRegistryV7 e.after = some reg)
    (hfunds : Transfers validatorBondAtoms none none e.before e.after) : KeepsBonds e :=
  ⟨fun _ => by rw [bondAt_of_stored hbefore, bondAt_of_stored hafter], hfunds⟩

end Registries

namespace ValidatorBooks

variable [Crypto] {b b' : ValidatorBooks} {e : Execution} {instr : ValidatorV7Instruction}
  {v v' : ValidatorV7Entry} {idx : ℕ}

theorem Act.funds (h : b.Act e b' instr) : BondFunds e.payer e.before e.after instr := by
  obtain ⟨instr', hdecode, hfunds⟩ := ValidatorV7Program.process_funds _ _ h.run
  obtain rfl := mem_unique hdecode h.decode
  exact hfunds

theorem Act.atQuanto (h : b.Act e b' instr) (hreads : instr.readsQuanto = true) :
    e.AtQuanto b.quanto := by
  obtain ⟨store, hheld, _⟩ := h.held
  exact ⟨b.global, hheld.storedGlobal_eq (h.quanto hreads), rfl⟩

/-- What an edit of one validator does with bonds. -/
theorem Edit.bonds (h : b.Edit v instr v') (hact : b.Act e b' instr)
    (hv : b.registry.validators[idx]? = some v)
    (hfind : instr.isReport = false → b.registry.find v.address = some idx)
    (hregistry : b'.registry = ⟨b.registry.validators.set idx v'⟩) :
    KeepsBonds e ∨ MovesOne e idx b.quanto := by
  obtain ⟨hbefore, hafter⟩ := hact.storedRegistryV7_eq
  rw [hregistry] at hafter
  have hfunds := hact.funds
  cases h with
  | unjail hjailed =>
    refine .inl (.of_set hbefore hafter hv hfunds (ValidatorV7Entry.bondPlace_congr ?_))
    simp [ValidatorV7Entry.inEscrow, ValidatorV7Entry.inPool, hjailed]
  | revokeKey | expiry | operator | withdrawal | rotate | accept =>
    exact .inl (.of_set hbefore hafter hv hfunds rfl)
  | exit hstate =>
    have hmoves := MovesBond.of_set hbefore hafter hv hfunds
    rw [ValidatorV7Entry.bondPlace_of_escrow (inEscrow_of_exitable hstate)]
      at hmoves
    exact .inr (.inr (.inl ⟨hact.atQuanto rfl, hmoves⟩))
  | withdraw hstate _ hrelease =>
    obtain ⟨reg, idx', v', hreg, hfind', hv', hfunds⟩ := hfunds
    obtain rfl := mem_unique hbefore hreg
    obtain rfl := mem_unique (hfind rfl) hfind'
    obtain rfl := mem_unique hv hv'
    have hmoves := MovesBond.of_set hbefore hafter hv hfunds
    rw [ValidatorV7Entry.bondPlace_of_pool (ValidatorV7Entry.inPool_of_unbonding hstate)] at hmoves
    exact .inr (.inr (.inr (.inl ⟨hact.atQuanto rfl, _, v, hbefore, hv, hrelease, hmoves⟩)))
  | @recover op _ hop =>
    cases op with
    | revoke =>
      have hmoves := MovesBond.of_set hbefore hafter hv hfunds
      rw [ValidatorV7Entry.bondPlace_of_escrow (inEscrow_of_exitable hop)]
        at hmoves
      exact .inr (.inr (.inl ⟨hact.atQuanto rfl, hmoves⟩))
    | freeze | unfreeze | setExpiry => exact .inl (.of_set hbefore hafter hv hfunds rfl)
  | @slash evidence hslashed hremoved =>
    obtain ⟨reg, idx', v', hreg, hv', hslashed', hfunds, hafter'⟩ := hfunds
    obtain rfl := mem_unique hbefore hreg
    have hidx : idx' = idx := by
      -- the entry that was slashed was not slashed before
      by_contra hne
      have hsame := congrArg (fun reg => reg.validators[idx]?)
        (mem_unique hafter hafter')
      obtain ⟨hlt, _⟩ := List.getElem?_eq_some_iff.1 hv
      simp only [getElem?_set_self hlt, getElem?_set_ne hne, hv] at hsame
      exact hslashed (congrArg (·.state) (Option.some.inj hsame)).symm
    subst hidx
    obtain rfl := mem_unique hv hv'
    have hplace : ∃ place, v.bondPlace = some place := by
      by_cases hstate : v.state = .unbonding ∨ v.state = .revoked
      · exact ⟨_, ValidatorV7Entry.bondPlace_of_pool (ValidatorV7Entry.inPool_of_unbonding hstate)⟩
      · exact ⟨_, ValidatorV7Entry.bondPlace_of_escrow
          (ValidatorV7Entry.inEscrow_of_slashable hslashed hremoved hstate)⟩
    obtain ⟨place, hplace⟩ := hplace
    have hmoves := MovesBond.of_set hbefore hafter hv hfunds
    rw [hplace] at hmoves
    exact .inr (.inr (.inr (.inr ⟨⟨evidence, hact.decode⟩, place, hmoves⟩)))
  | registerAgain hremoved haddress hregistration =>
    have hmoves := MovesBond.of_set hbefore hafter hv hfunds
    rw [ValidatorV7Entry.bondPlace_of_escrow
      (inEscrow_of_exitable (.inl hregistration.state))] at hmoves
    have hnone : v.bondPlace = none := by
      simp [ValidatorV7Entry.bondPlace, ValidatorV7Entry.inEscrow, ValidatorV7Entry.inPool,
        hremoved]
    rw [hnone] at hmoves
    exact .inr (.inl hmoves)

/-- What an execution does with bonds: it moves none, or one in one of four ways. -/
theorem Act.bonds (h : b.Act e b' instr) :
    KeepsBonds e ∨ ∃ slot, MovesOne e slot b.quanto := by
  obtain ⟨hbefore, hafter⟩ := h.storedRegistryV7_eq
  have hfunds := h.funds
  have hstep := h.step
  cases hstep with
  | pending hinstr | rotation hinstr =>
    refine .inl (.of_eq hbefore hafter ?_)
    cases instr <;> first | exact hfunds | cases hinstr
  | committee => exact .inl (.of_eq hbefore hafter hfunds)
  | @edit _ idx _ _ _ _ _ hfind he hedit =>
    exact (hedit.bonds h he (fun _ => hfind) rfl).imp_right fun hbonds => ⟨idx, hbonds⟩
  | @slash _ idx _ _ he hedit =>
    refine (hedit.bonds h he (fun hreport => ?_) rfl).imp_right fun hbonds => ⟨idx, hbonds⟩
    cases hreport
  | @recover _ _ _ _ idx _ _ _ _ _ _ _ _ _ _ hfind he hedit =>
    rw [← ValidatorV7Registry.address_of_find hfind he] at hfind
    exact (hedit.bonds h he (fun _ => hfind) rfl).imp_right fun hbonds => ⟨idx, hbonds⟩
  | @register _ _ _ _ _ v hfind hregistration =>
    have hlast : ∀ slot, slot ≠ b.registry.validators.length →
        (b.registry.validators ++ [v])[slot]? = b.registry.validators[slot]? := by
      intro slot hslot
      rw [getElem?_append]
      split_ifs with hlt
      · rfl
      · rw [getElem?_eq_none (not_lt.1 hlt), getElem?_eq_none]
        rw [length_singleton]
        omega
    refine .inr ⟨b.registry.validators.length, .inl ⟨?_, ?_, fun slot hslot => ?_, hfunds⟩⟩
    · rw [bondAt_of_stored hbefore, getElem?_eq_none le_rfl, bind_none]
    · rw [bondAt_of_stored hafter]
      rw [getElem?_concat_length]
      exact ValidatorV7Entry.bondPlace_of_escrow
        (inEscrow_of_exitable (.inl hregistration.state))
    · rw [bondAt_of_stored hafter, bondAt_of_stored hbefore]
      rw [hlast slot hslot]

end ValidatorBooks

/-! ### Runs -/

/-- A bond leaves the pools. -/
def Releases (e : Execution) (slot : ℕ) : Prop := (∃ q, Withdraws e slot q) ∨ Burns e slot

/-- Between two times that the bond of a validator leaves the pools, one is paid in. -/
def ReleasedOnce (log : List Execution) : Prop :=
  ∀ (i j : ℕ) e e' slot, i < j → log[i]? = some e → log[j]? = some e' → Releases e slot →
    Releases e' slot → ∃ k e'', (i < k ∧ k < j) ∧ log[k]? = some e'' ∧ PaysIn e'' slot

/-- A bond is paid out only after the delay since it went to the unbonding pool. -/
def ReleasedLate (log : List Execution) : Prop :=
  ∀ (j : ℕ) e slot q, log[j]? = some e → Withdraws e slot q →
    ∃ i e' q', i < j ∧ log[i]? = some e' ∧ Unbonds e' slot q' ∧
      Word.clamp (q' + validatorBondUnbondingQuantos) ≤ q ∧
      ∀ k e'', i < k ∧ k < j → log[k]? = some e'' → ¬PaysIn e'' slot

theorem Releases.places {e : Execution} {slot : ℕ} (h : Releases e slot) :
    bondAt e.before slot ≠ none ∧ bondAt e.after slot = none := by
  rcases h with ⟨_, _, _, _, _, _, _, hmoves⟩ | ⟨_, _, hmoves⟩
  · rw [hmoves.before]
    exact ⟨some_ne_none _, hmoves.after⟩
  · rw [hmoves.before]
    exact ⟨some_ne_none _, hmoves.after⟩

namespace ValidatorBooks

/-- The pool in which the validator in a slot has its bond. -/
def place (b : ValidatorBooks) (slot : ℕ) : Option Pubkey :=
  b.registry.validators[slot]?.bind ValidatorV7Entry.bondPlace

variable [Crypto] {b b' : ValidatorBooks} {e : Execution} {instr : ValidatorV7Instruction}
  {v v' : ValidatorV7Entry} {slot : ℕ} {log : List Execution}

theorem Act.place_eq (h : b.Act e b' instr) :
    bondAt e.before slot = b.place slot ∧ bondAt e.after slot = b'.place slot :=
  ⟨bondAt_of_stored h.storedRegistryV7_eq.1, bondAt_of_stored h.storedRegistryV7_eq.2⟩

/-- A silent step leaves all bonds where they are. -/
theorem Step.place_eq (h : b.Step none b') : b'.place slot = b.place slot := by
  cases h with
  | close => rfl
  | @upkeep reg hupkeep =>
    unfold place
    by_cases hlt : slot < b.registry.validators.length
    · have hlt' : slot < reg.validators.length := hupkeep.length_eq ▸ hlt
      obtain ⟨_, hescrow, hpool, _⟩ :=
        (forall₂_upkeep hupkeep).get hlt hlt'
      rw [getElem?_eq_getElem hlt, getElem?_eq_getElem hlt']
      exact ValidatorV7Entry.bondPlace_congr ⟨hescrow, hpool⟩
    · have hlt' : ¬slot < reg.validators.length := hupkeep.length_eq ▸ hlt
      rw [getElem?_eq_none (not_lt.1 hlt), getElem?_eq_none (not_lt.1 hlt')]

/-- A bond that has left the pools stays out of them until one is paid in. -/
theorem Runs.place_none (h : b.Runs log b') (hnone : b.place slot = none)
    (hlog : ∀ e ∈ log, ¬PaysIn e slot) : b'.place slot = none := by
  refine h.invariant_along (I := fun _ b => b.place slot = none) (.of_forall hlog) hnone ?_ ?_
  · exact fun _ b b' hnone hstep => hstep.place_eq.trans hnone
  · rintro _ e b b' hpays hnone ⟨instr, hact⟩
    have hplaces : bondAt e.before slot = b.place slot ∧ bondAt e.after slot = b'.place slot :=
      hact.place_eq
    obtain ⟨hbefore, hafter⟩ := hplaces
    rw [hnone] at hbefore
    rw [← hafter]
    rcases hact.bonds with hkeeps | ⟨slot', hbonds⟩
    · rw [hkeeps.places, hbefore]
    · by_cases hslot : slot = slot'
      · subst hslot
        rcases hbonds with hpaid | ⟨_, hmoves⟩ | ⟨_, _, _, _, _, _, hmoves⟩ | ⟨_, _, hmoves⟩
        · exact absurd hpaid hpays
        · exact absurd (hbefore.symm.trans hmoves.before) (some_ne_none _).symm
        · exact hmoves.after
        · exact hmoves.after
      · obtain ⟨_, _, _, _, hmoves⟩ := hbonds.moves
        rw [hmoves.others slot hslot, hbefore]

theorem Runs.releasedOnce (h : b.Runs log b') : ReleasedOnce log := by
  intro i j e e' slot hij hi hj hrelease hrelease'
  obtain ⟨b₁, b₂, instr, _, hact, hruns⟩ := h.act_at hi
  have hj' : (log.drop (i + 1))[j - (i + 1)]? = some e' := by
    rw [getElem?_drop, Nat.add_sub_cancel' hij, hj]
  obtain ⟨b₃, b₄, instr', hruns', hact', _⟩ := hruns.act_at hj'
  have hnone : b₂.place slot = none := hact.place_eq.2.symm.trans hrelease.places.2
  by_contra hpays
  refine hrelease'.places.1 (hact'.place_eq.1.trans (hruns'.place_none hnone fun e'' he'' => ?_))
  intro hpaid
  obtain ⟨k, hk⟩ := mem_iff_getElem?.1 he''
  have hlt : k < j - (i + 1) := by
    by_contra hge
    rw [getElem?_take_eq_none (not_lt.1 hge)] at hk
    cases hk
  rw [getElem?_take_of_lt hlt, getElem?_drop] at hk
  exact hpays ⟨i + 1 + k, e'', by omega, hk, hpaid⟩

/-- A bond that goes from the escrow to the unbonding pool. -/
theorem Act.unbonds (h : b.Act e b' instr) (hbefore : b.place slot = some validatorBondEscrowId)
    (hafter : b'.place slot = some validatorUnbondingPoolId) : Unbonds e slot b.quanto := by
  have hne : validatorBondEscrowId ≠ validatorUnbondingPoolId := by decide
  rw [← h.place_eq.1] at hbefore
  rw [← h.place_eq.2] at hafter
  have hsame : bondAt e.after slot ≠ bondAt e.before slot := by
    rw [hafter, hbefore]
    exact fun heq => hne (Option.some.inj heq).symm
  rcases h.bonds with hkeeps | ⟨slot', hbonds⟩
  · exact absurd (hkeeps.places slot) hsame
  · obtain ⟨_, _, _, _, hmoves⟩ := hbonds.moves
    obtain rfl : slot = slot' := by
      by_contra hslot
      exact hsame (hmoves.others slot hslot)
    rcases hbonds with hmoves | hunbonds | ⟨_, _, _, _, _, _, hmoves⟩ | ⟨_, _, hmoves⟩
    · exact absurd (hbefore.symm.trans hmoves.before) (some_ne_none _)
    · exact hunbonds
    · exact absurd (hafter.symm.trans hmoves.after) (some_ne_none _)
    · exact absurd (hafter.symm.trans hmoves.after) (some_ne_none _)

/-- The bond of a validator is in the unbonding pool after an edit: it was there before, or the
validator leaves. -/
theorem Edit.inPool (h : b.Edit v instr v') (hpool : v'.inPool = true) :
    v.inPool = true ∧ v'.bondReleaseQuanto = v.bondReleaseQuanto ∨
      v.bondPlace = some validatorBondEscrowId ∧
        v'.bondReleaseQuanto = bondRelease b.quanto := by
  cases h with
  | exit hstate =>
    exact .inr ⟨ValidatorV7Entry.bondPlace_of_escrow
      (inEscrow_of_exitable hstate), rfl⟩
  | @recover op _ hop =>
    cases op with
    | revoke =>
      exact .inr ⟨ValidatorV7Entry.bondPlace_of_escrow
        (inEscrow_of_exitable hop), rfl⟩
    | freeze | unfreeze | setExpiry => exact .inl ⟨hpool, rfl⟩
  | unjail | withdraw | slash => cases hpool
  | registerAgain _ _ hregistration =>
    rw [(inEscrow_of_exitable (.inl hregistration.state)).2] at hpool
    cases hpool
  | _ => exact .inl ⟨hpool, rfl⟩

end ValidatorBooks

/-- The bond in a slot has gone to the unbonding pool at the quanto `q`, and none was paid in for
the validator since. -/
def LeftAt (log : List Execution) (slot : ℕ) (q : U64) : Prop :=
  ∃ (i : ℕ) (e : Execution), log[i]? = some e ∧ Unbonds e slot q ∧
    ∀ k e', i < k → log[k]? = some e' → ¬PaysIn e' slot

theorem LeftAt.append {log : List Execution} {slot : ℕ} {q : U64} {e : Execution}
    (h : LeftAt log slot q) (hpays : ¬PaysIn e slot) : LeftAt (log ++ [e]) slot q := by
  obtain ⟨i, e₀, hi, hunbonds, hlater⟩ := h
  have hlt := (List.getElem?_eq_some_iff.1 hi).1
  refine ⟨i, e₀, (getElem?_append_left hlt).trans hi, hunbonds, fun k e' hk he' => ?_⟩
  by_cases hlt' : k < log.length
  · exact hlater k e' hk ((getElem?_append_left hlt').symm.trans he')
  · rw [getElem?_append_right (not_lt.1 hlt'), getElem?_singleton] at he'
    split_ifs at he'
    obtain rfl := Option.some.inj he'
    exact hpays

theorem LeftAt.last {log : List Execution} {slot : ℕ} {q : U64} {e : Execution}
    (h : Unbonds e slot q) : LeftAt (log ++ [e]) slot q := by
  refine ⟨log.length, e, getElem?_concat_length, h, fun k e' hk he' => ?_⟩
  rw [getElem?_eq_none] at he'
  · cases he'
  · rw [length_append, length_singleton]
    omega

/-- Every bond in the unbonding pool has gone there, and is released after the delay. -/
def Leaving (log : List Execution) (b : ValidatorBooks) : Prop :=
  ∀ slot v, b.registry.validators[slot]? = some v → v.inPool = true →
    ∃ q, v.bondReleaseQuanto = bondRelease q ∧ LeftAt log slot q

namespace ValidatorBooks

variable [Crypto] {b b' : ValidatorBooks} {e : Execution} {instr : ValidatorV7Instruction}
  {v v' : ValidatorV7Entry} {slot : ℕ} {log : List Execution}

omit [Crypto] in
theorem UpkeepEntry.inPool (h : UpkeepEntry v v') (hpool : v'.inPool = true) :
    v.inPool = true ∧ v'.bondReleaseQuanto = v.bondReleaseQuanto := by
  obtain ⟨hentry, hstate⟩ := h
  refine ⟨?_, by rw [hentry]⟩
  rw [ValidatorV7Entry.inPool] at hpool ⊢
  rcases hstate with hstate | ⟨_, hstate⟩ | ⟨_, hstate⟩
  · rwa [hstate]
  · rw [hstate] at hpool
    cases hpool
  · rw [hstate] at hpool
    cases hpool

theorem Step.leaving (hstep : b.Step none b') (h : Leaving log b) : Leaving log b' := by
  intro slot v' hv' hpool
  rcases hstep.entry hv' with ⟨v, hv, hturn⟩ | ⟨_, _, hlabel, _⟩
  · cases hturn with
    | same => exact h slot v' hv hpool
    | upkeep hupkeep =>
      obtain ⟨hpool, hrelease⟩ := hupkeep.inPool hpool
      rw [hrelease]
      exact h slot v hv hpool
    | edit hlabel => cases hlabel
  · cases hlabel

omit [Crypto] in
theorem place_eq_pool (hv : b.registry.validators[slot]? = some v) :
    b.place slot = some validatorUnbondingPoolId ↔ v.inPool = true := by
  rw [place, hv, bind_some, ValidatorV7Entry.bondPlace_eq_pool]

theorem Act.leaving (hact : b.Act e b' instr) (h : Leaving log b) : Leaving (log ++ [e]) b' := by
  intro slot v' hv' hpool'
  -- a bond that was in the pool before has left earlier, and none is paid in for the validator now
  have hearlier : ∀ v, b.registry.validators[slot]? = some v → v.inPool = true →
      v'.bondReleaseQuanto = v.bondReleaseQuanto →
      ∃ q, v'.bondReleaseQuanto = bondRelease q ∧
        LeftAt (log ++ [e]) slot q := by
    intro v hv hpool hrelease
    obtain ⟨q, hq, hleft⟩ := h slot v hv hpool
    refine ⟨q, hrelease.trans hq, hleft.append fun hpays => ?_⟩
    have hplace : bondAt e.before slot = some validatorUnbondingPoolId :=
      hact.place_eq.1.trans ((place_eq_pool hv).2 hpool)
    exact some_ne_none _ (hplace.symm.trans hpays.before)
  rcases hact.step.entry hv' with ⟨v, hv, hturn⟩ | ⟨_, _, _, _, _, hregistration, _⟩
  · cases hturn with
    | same => exact hearlier v' hv hpool' rfl
    | upkeep hupkeep =>
      obtain ⟨hpool, hrelease⟩ := hupkeep.inPool hpool'
      exact hearlier v hv hpool hrelease
    | edit hlabel hedit =>
      rcases hedit.inPool hpool' with ⟨hpool, hrelease⟩ | ⟨hescrow, hrelease⟩
      · exact hearlier v hv hpool hrelease
      · have hbefore : b.place slot = some validatorBondEscrowId := by
          rw [place, hv, bind_some, hescrow]
        exact ⟨b.quanto, hrelease, .last (hact.unbonds hbefore ((place_eq_pool hv').2 hpool'))⟩
  · rw [(inEscrow_of_exitable (.inl hregistration.state)).2] at hpool'
    cases hpool'

theorem Runs.leaving (h : b.Runs log b') (hstart : Leaving [] b) : Leaving log b' := by
  refine h.invariant hstart ?_ ?_
  · exact fun _ _ _ h hstep => hstep.leaving h
  · rintro _ _ _ _ h ⟨_, hact⟩
    exact hact.leaving h

theorem Runs.releasedLate (h : b.Runs log b') (hstart : Leaving [] b) : ReleasedLate log := by
  intro j e slot q hj hwithdraws
  obtain ⟨b₁, b₂, instr, hruns, hact, _⟩ := h.act_at hj
  obtain ⟨_, reg, v, hreg, hv, hrelease, hmoves⟩ := hwithdraws
  obtain rfl := mem_unique hact.storedRegistryV7_eq.1 hreg
  have hpool := (place_eq_pool hv).1 (hact.place_eq.1.symm.trans hmoves.before)
  obtain ⟨q', hq', i, e', hi, hunbonds, hlater⟩ := hruns.leaving hstart slot v hv hpool
  have hij : i < j := by
    by_contra hge
    rw [getElem?_take_eq_none (not_lt.1 hge)] at hi
    cases hi
  rw [getElem?_take_of_lt hij] at hi
  refine ⟨i, e', q', hij, hi, hunbonds, ?_, fun k e'' hk he'' => hlater k e'' hk.1 ?_⟩
  · rw [hq'] at hrelease
    exact hrelease
  · rw [getElem?_take_of_lt hk.2, he'']

end ValidatorBooks

/-- Both pools hold a bond for every validator that has its bond there. -/
def Backed (store : Accounts) : Prop :=
  ∃ reg, storedRegistryV7 store = some reg ∧
    validatorBondAtoms *
        reg.validators.countP (·.state ∈ [ValidatorV7State.bondedPending, .active, .jailed]) ≤
      store.balanceOf validatorBondEscrowId ∧
    validatorBondAtoms * reg.validators.countP (·.state ∈ [ValidatorV7State.unbonding, .revoked]) ≤
      store.balanceOf validatorUnbondingPoolId

/-- The books of a network and its pools. -/
theorem Recorded.backed [Crypto] {b : ValidatorBooks} {store : Accounts} (h : Recorded b store)
    (hsound : b.Sound) : Backed store := by
  refine ⟨b.registry, h.storedRegistryV7_eq, ?_, ?_⟩
  · refine (Nat.mul_le_mul_left _ (countP_mono_left fun v _ hstate => ?_)).trans
      (hsound.bonds.trans h.escrow.le_balanceOf)
    rw [decide_eq_true_iff, mem_cons, mem_cons, mem_singleton] at hstate
    exact (inEscrow_of_exitable hstate).1
  · exact hsound.unbondings.trans h.pool.le_balanceOf

/-- **The bonds of validators.** In every v7 network that has escrowed the bonds of its founders,
both pools hold a bond for each validator that has its bond there. Every instruction moves one bond
at most: into the escrow, to the unbonding pool, to the withdrawal address of the validator, or out
of circulation on a report of equivocation. Between two times that the bond of a validator leaves
the pools another is paid in, and it is paid out only when the delay since it went to the unbonding
pool is over. -/
theorem Chain.bonds_accounted [Crypto] [WasmEngine] [GenesisFormat] {cfg : LedgerConfig}
    {config : NodeConfig} {accounts : Accounts} {events : List ChainEvent}
    (hsha : ∀ bytes, ¬IsProtocolId (Crypto.sha3 bytes))
    (hseed : config.seedGenesis = some accounts) (hcfg : config.ledgerConfig = some cfg)
    (hv7 : config.economicsV7 = true)
    (hbonds : validatorBondAtoms * config.validators.length < 2 ^ 64)
    (hevents : ∀ event ∈ events, ValidatorsOnly event) :
    Backed (run cfg (ofAccounts accounts) events).ledger.store ∧
      (∀ e ∈ (run cfg (ofAccounts accounts) events).log,
        KeepsBonds e ∨ ∃ slot q, MovesOne e slot q) ∧
      ReleasedOnce (run cfg (ofAccounts accounts) events).log ∧
      ReleasedLate (run cfg (ofAccounts accounts) events).log := by
  obtain ⟨founders, b, hfounders, hruns, hrecorded⟩ :=
    network_books hsha hseed hcfg hv7 hevents
  have hsound : b.Sound :=
    hruns.invariant (I := fun _ b => b.Sound) (NodeConfig.sound_genesis hfounders hbonds)
      (fun _ _ _ h hstep => hstep.sound h) (fun _ _ _ _ h hstep => hstep.choose_spec.step.sound h)
  have hstart : Leaving [] (ValidatorBooks.genesis config founders) := by
    intro slot v hv hpool
    rw [ValidatorV7Entry.inPool,
      ((NodeConfig.mem_founders hfounders).2 v (mem_of_getElem? hv)).1] at hpool
    cases hpool
  refine ⟨hrecorded.backed hsound, fun e he => ?_, hruns.releasedOnce, hruns.releasedLate hstart⟩
  obtain ⟨i, hi⟩ := mem_iff_getElem?.1 he
  obtain ⟨b₁, _, _, _, hact, _⟩ := hruns.act_at hi
  exact hact.bonds.imp_right fun h => h.imp fun _ hmoves => ⟨b₁.quanto, hmoves⟩

/-- A founder leaves, and withdraws its bond a quanto later. -/
def departureEvents : List ChainEvent :=
  [memberEvent 0 0 0 [leave 0], memberEvent 0 1 1 [withdraw 0]]

/-- The bond of a founder who leaves. -/
theorem Chain.bonds_accounted_departure :
    (memberChain [0, 2] departureEvents).log.length = 2 ∧
      (storedRegistryV7 (memberChain [0, 2] departureEvents).ledger.store).map
        (·.validators.map (·.state)) = some [.removed, .active] ∧
      Backed (memberChain [0, 2] departureEvents).ledger.store ∧
      (∀ e ∈ (memberChain [0, 2] departureEvents).log,
        KeepsBonds e ∨ ∃ slot q, MovesOne e slot q) ∧
      ReleasedOnce (memberChain [0, 2] departureEvents).log ∧
      ReleasedLate (memberChain [0, 2] departureEvents).log := by
  have hrun : (memberChain [0, 2] departureEvents).log.length = 2 ∧
      (storedRegistryV7 (memberChain [0, 2] departureEvents).ledger.store).map
        (·.validators.map (·.state)) = some [.removed, .active] := by decide +kernel
  refine ⟨hrun.1, hrun.2, ?_⟩
  unfold memberChain
  exact @bonds_accounted memberCrypto WasmEngine.none capFormat memberSettings
    (memberConfig [0, 2]) (memberAccounts [0, 2]) departureEvents memberCrypto_sha3
    (by decide +kernel) (by decide +kernel) rfl (by decide +kernel)
    (by decide +kernel)

end QChain
