import QChain.Execution.Effects

/-!
# The writes of the programs of the v7 economy

The System program and the programs of the v7 economy make only the writes listed in `Write`,
for the data of a few accounts of the protocol, and take out at least what they pay in. One
lemma per instruction, and `process_balanced` for each program.
-/

namespace QChain

open Exec List Transact

variable {ix : Instruction} {payer : Pubkey} {w₀ w : Accounts} {round : U64} {paidIn takenOut : ℕ}

/-! ### The System program -/

namespace SystemProgram

variable [Crypto]

theorem transferInternal_effects {names keys : List Pubkey} {recipient : Pubkey} {amount : U64}
    (h : Effects payer names keys w₀ paidIn takenOut w) (hrecipient : recipient ∈ names) :
    Wp (transferInternal payer recipient amount) w fun _ w' =>
      Effects payer names keys w₀ (paidIn + amount) (takenOut + amount) w' := by
  simp only [transferInternal, wp_steps, checkedSub_eq_some]
  intro account hlookup _ balance hbalance
  refine (h.wp_put (.debit (.inl rfl) hlookup hbalance)).mono fun _ w₁ h₁ => ?_
  exact h₁.wp_credit (.inr ⟨rfl, .inl hrecipient⟩)

theorem createAccount_balanced {units : U64} {owner : Pubkey} :
    Wp (createAccount ix payer units owner) w fun _ w' => Balanced payer ix.accounts [] w w' := by
  simp only [createAccount, wp_steps, Exec.wp_put]
  intro k hk
  have hcreated : Effects payer ix.accounts [] w 0 0 (w.insert k (w.getOrNew k owner)) := by
    cases hlookup : w.lookup k with
    | none =>
      rw [Accounts.getOrNew, hlookup]
      exact Effects.refl.write (.create (mem_of_getElem? hk) hlookup rfl)
    | some account =>
      -- an account that is there is written back as it was
      rw [Accounts.getOrNew_of_lookup hlookup, Finmap.insert_of_lookup hlookup]
      exact .refl
  refine (transferInternal_effects hcreated (mem_of_getElem? hk)).mono fun _ w' h' => ?_
  exact ⟨_, _, le_rfl, h'⟩

theorem transfer_balanced {amount : U64} :
    Wp (transfer ix payer amount) w fun _ w' => Balanced payer ix.accounts [] w w' := by
  simp only [transfer, wp_steps]
  intro sender _ recipient hrecipient hsender
  subst sender
  have h₀ : Effects payer ix.accounts [] w 0 0 w := .refl
  refine (transferInternal_effects h₀ (mem_of_getElem? hrecipient)).mono fun _ w' h' => ?_
  exact ⟨_, _, le_rfl, h'⟩

theorem deployProgram_balanced {moduleBytes salt : List UInt8} {entryPoint : Utf8} :
    Wp (deployProgram ix payer moduleBytes entryPoint salt) w fun _ w' =>
      Balanced payer ix.accounts [] w w' := by
  simp only [deployProgram, wp_steps, Exec.wp_put]
  intro _ k hk haddr _ data _
  exact ⟨_, _, le_rfl, Effects.refl.write (.deploy (mem_of_getElem? hk) haddr rfl)⟩

theorem process_balanced :
    Wp (process ix payer) w fun _ w' => Balanced payer ix.accounts [] w w' := by
  simp only [process, wp_rules]
  intro instr _
  cases instr with
  | createAccount units owner => exact createAccount_balanced
  | transfer amount => exact transfer_balanced
  | deployProgram moduleBytes entryPoint salt => exact deployProgram_balanced

end SystemProgram

/-! ### The v7 staking program -/

@[simp] theorem StakePositionV7.owner_settle {pos : StakePositionV7} {g : GlobalStakingState} :
    (pos.settle g).owner = pos.owner := by
  unfold settle
  split_ifs <;> rfl

namespace StakingV7Program

/-- The accounts of the protocol that the program writes. -/
def keys : List Pubkey := [stakingGlobalId, stakingReserveId, stakingUnbondingPoolId]

variable {g : GlobalStakingState} {amount : U64} {pos : StakePositionV7} {positionPk : Pubkey}

@[simp] theorem owner_unstakeValue : (unstakeValue g pos amount).2.1.owner = pos.owner := by
  rw [unstakeValue]
  simp only [apply_ite Prod.fst, apply_ite Prod.snd, apply_ite StakePositionV7.owner, ite_self]

variable [Crypto]

theorem deposit_balanced
    (hpos : ∀ w' bytes, Borsh.toVec (addPendingDeposit pos g amount).1 = some bytes →
      Write payer ix.accounts keys w w' positionPk
        { w'.getOrNew positionPk stakingProgramId with
          owner := stakingProgramId, balance := 0, data := bytes } 0 0) :
    Wp (deposit payer positionPk g pos amount) w fun _ w' =>
      Balanced payer ix.accounts keys w w' := by
  have h₀ : Effects payer ix.accounts keys w 0 0 w := .refl
  refine (h₀.wp_debitExisting (.inl rfl)).bind fun _ w₁ h₁ => ?_
  refine (h₁.wp_creditOrPanic (.inl (by simp [keys]))).bind
    fun _ w₂ h₂ => ?_
  refine (Neutral.writeGlobal (by simp [keys]) h₂).bind fun _ w₃ h₃ => ?_
  rw [wp_writePosition]
  intro bytes hbytes
  exact ⟨_, _, by omega, h₃.write (hpos _ _ hbytes)⟩

theorem openStake_balanced {existing : Option StakePositionV7} (hk : positionPk ∈ ix.accounts) :
    Wp (openStake payer payer positionPk g existing amount) w fun _ w' =>
      Balanced payer ix.accounts keys w w' := by
  simp only [openStake, checkFunds, wp_steps]
  intro _ hpayer hreserved hfresh _ _ _
  rw [Accounts.balance_getOrNew] at hfresh
  apply deposit_balanced
  intro w' bytes hbytes
  exact .openPosition hk ⟨hpayer, hreserved⟩ hfresh rfl hbytes

theorem increaseStake_balanced :
    Wp (increaseStake payer payer positionPk g (storedPosition w positionPk) amount) w
      fun _ w' => Balanced payer ix.accounts keys w w' := by
  simp only [increaseStake, checkFunds, wp_steps]
  intro old hold howner _ _ _ _
  apply deposit_balanced
  intro w' bytes hbytes
  refine .position hold howner ?_ hbytes
  exact StakePositionV7.owner_settle.trans howner

theorem stake_balanced {increase : Bool} :
    Wp (stake ix payer amount increase) w fun _ w' => Balanced payer ix.accounts keys w w' := by
  simp only [stake, wp_steps, wp_readGlobal, wp_readPosition, wp_ite]
  intro staker _ k hk _ _ _ _ _ _ hstaker _ g _
  subst staker
  exact ⟨fun _ => increaseStake_balanced, fun _ => openStake_balanced (mem_of_getElem? hk)⟩

theorem beginUnstake_balanced :
    Wp (beginUnstake ix payer amount) w fun _ w' => Balanced payer ix.accounts keys w w' := by
  simp only [beginUnstake, wp_steps, wp_readGlobal, wp_readPosition, wp_balanceOrZero]
  rintro _ _ k _ _ _ _ _ _ _ ⟨rfl, rfl, rfl⟩ g _ old hold howner _ _ _ _
  have h₀ : Effects payer ix.accounts keys w 0 0 w := .refl
  refine (h₀.wp_debitExisting (.inr (by simp [keys]))).mono
    fun _ w₁ h₁ => ?_
  refine (h₁.wp_creditOrPanic (.inl (by simp [keys]))).mono
    fun _ w₂ h₂ => ?_
  refine (Neutral.writeGlobal (by simp [keys]) h₂).mono fun _ w₃ h₃ => ?_
  rw [wp_writePosition]
  intro bytes hbytes
  refine ⟨_, _, by omega, h₃.write (.position hold howner ?_ hbytes)⟩
  rw [owner_unstakeValue]
  exact StakePositionV7.owner_settle.trans howner

theorem withdrawUnbonded_balanced :
    Wp (withdrawUnbonded ix payer) w fun _ w' => Balanced payer ix.accounts keys w w' := by
  simp only [withdrawUnbonded, wp_steps, wp_readGlobal, wp_readPosition, wp_balanceOrZero]
  rintro staker _ k _ _ _ _ _ rfl _ g _ old hold ⟨howner, hstaker⟩ _ _ _
  subst staker
  have h₀ : Effects payer ix.accounts keys w 0 0 w := .refl
  refine (h₀.wp_debitExisting (.inr (by simp [keys]))).mono
    fun _ w₁ h₁ => ?_
  refine (h₁.wp_creditOrPanic (.inr ⟨rfl, .inr rfl⟩)).mono fun _ w₂ h₂ => ?_
  rw [wp_writePosition]
  intro bytes hbytes
  refine ⟨_, _, by omega, h₂.write (.position hold howner ?_ hbytes)⟩
  exact StakePositionV7.owner_settle.trans howner

theorem process_balanced :
    Wp (process ix payer) w fun _ w' => Balanced payer ix.accounts keys w w' := by
  simp only [process, wp_rules]
  intro instr _
  cases instr with
  | stake amount | increaseStake amount => exact stake_balanced
  | beginUnstake amount => exact beginUnstake_balanced
  | withdrawUnbonded => exact withdrawUnbonded_balanced

end StakingV7Program

/-! ### The v7 validator program -/

namespace ValidatorV7Program

variable {addr : Pubkey}

/-- The accounts of the protocol that the program writes. -/
def keys : List Pubkey :=
  [validatorRegistryAccountId, validatorRecoveryRegistryId, validatorKeyTimelockRegistryId,
    validatorConsensusRotationRegistryId, validatorKmAuditLogId, validatorBondEscrowId,
    validatorUnbondingPoolId]

variable {e : ValidatorV7Entry} {newBundle : PublicKeyBundle} {reg : ValidatorV7Registry}
  {newP2pAddress : Utf8} {op : RecoveryOp}

theorem writeEntry_writesData {idx : ℕ} : WritesData keys (writeEntry reg idx e) :=
  .writeLazy (by simp [keys])

theorem writeRecoveryRegistry_writesData {r : RecoveryRegistry} :
    WritesData keys (writeRecoveryRegistry r) :=
  .writeLazy (by simp [keys])

theorem writeKeyTimelockRegistry_writesData {tl : KeyTimelockRegistry} :
    WritesData keys (writeKeyTimelockRegistry tl) :=
  .writeLazy (by simp [keys])

theorem writeConsensusRotationRegistry_writesData {cr : ConsensusRotationRegistry} :
    WritesData keys (writeConsensusRotationRegistry cr) :=
  .writeLazy (by simp [keys])

theorem proposeKeyChange_writesData {change : PendingKeyChange} :
    WritesData keys (proposeKeyChange ix addr change) := by
  intro I hI w h
  simp only [proposeKeyChange, readKeyTimelockRegistry, wp_stepsV7]
  intros
  -- whether the validator is known, and whether a change of this kind is pending
  split <;> simp only [wp_stepsV7] <;> intros <;>
    split <;> simp only [wp_rules] <;> intros <;>
      exact writeKeyTimelockRegistry_writesData hI h

theorem setRecoveryCommittee_writesData {config : RecoveryConfig} :
    WritesData keys (setRecoveryCommittee ix payer addr config) := by
  intro I hI w h
  simp only [setRecoveryCommittee, RecoveryConfig.validate, wp_stepsV7, wp_ite]
  intro _ reg _ idx _ e _ _ _ _
  constructor
  · intros
    exact proposeKeyChange_writesData hI h
  · intro _
    exact proposeKeyChange_writesData hI h

theorem applyRecoveryConfig_writesData {config : RecoveryConfig} :
    WritesData keys (applyRecoveryConfig addr config) := by
  intro I hI w h
  simp only [applyRecoveryConfig, readRecoveryRegistry, wp_stepsV7]
  intro recovery _
  split <;> simp only [wp_rules, wp_ite]
  · exact ⟨fun _ => writeRecoveryRegistry_writesData hI h,
      fun _ _ _ => writeRecoveryRegistry_writesData hI h⟩
  · exact ⟨fun _ => writeRecoveryRegistry_writesData hI h,
      fun _ _ => writeRecoveryRegistry_writesData hI h⟩

theorem applyChange_writesData {idx : ℕ} {change : PendingKeyChange} :
    WritesData keys (applyChange reg idx e addr change) := by
  intro I hI w h
  cases change with
  | operator newOperator | withdrawal newWithdrawal =>
    simp only [applyChange, wp_rules]
    intro _
    exact writeEntry_writesData hI h
  | recoveryCommittee config => exact applyRecoveryConfig_writesData hI h

theorem applyPendingKeyChange_writesData {kind : KeyChangeKind} :
    WritesData keys (applyPendingKeyChange ix addr kind) := by
  intro I hI w h
  simp only [applyPendingKeyChange, readKeyTimelockRegistry, wp_stepsV7]
  intros
  refine (applyChange_writesData hI h).mono fun _ w₁ h₁ => ?_
  exact writeKeyTimelockRegistry_writesData hI h₁

theorem cancelPendingKeyChange_writesData {kind : KeyChangeKind} :
    WritesData keys (cancelPendingKeyChange ix payer addr kind) := by
  intro I hI w h
  simp only [cancelPendingKeyChange, readKeyTimelockRegistry, wp_stepsV7]
  intros
  exact writeKeyTimelockRegistry_writesData hI h

theorem unjail_writesData : WritesData keys (unjail ix payer addr) := by
  intro I hI w h
  simp only [unjail, wp_stepsV7]
  intros
  exact writeEntry_writesData hI h

theorem rotateOperator_writesData {newOperator : Pubkey} :
    WritesData keys (rotateOperator ix payer addr newOperator) := by
  intro I hI w h
  simp only [rotateOperator, wp_stepsV7]
  intros
  exact proposeKeyChange_writesData hI h

theorem rotateWithdrawal_writesData {newWithdrawal : Pubkey} :
    WritesData keys (rotateWithdrawal ix payer addr newWithdrawal) := by
  intro I hI w h
  simp only [rotateWithdrawal, wp_stepsV7]
  intros
  exact proposeKeyChange_writesData hI h

theorem cancelConsensusKeyRotation_writesData :
    WritesData keys (cancelConsensusKeyRotation ix payer addr) := by
  intro I hI w h
  simp only [cancelConsensusKeyRotation, readConsensusRotationRegistry, wp_stepsV7]
  intros
  exact writeConsensusRotationRegistry_writesData hI h

theorem revokeConsensusKey_writesData : WritesData keys (revokeConsensusKey ix payer addr) := by
  intro I hI w h
  simp only [revokeConsensusKey, wp_stepsV7]
  intros
  exact writeEntry_writesData hI h

theorem setConsensusKeyExpiry_writesData {expiryQuanto : U64} :
    WritesData keys (setConsensusKeyExpiry ix payer addr expiryQuanto) := by
  intro I hI w h
  simp only [setConsensusKeyExpiry, wp_stepsV7]
  intros
  exact writeEntry_writesData hI h

theorem purgePending_writesData : WritesData keys (purgePending addr) := by
  intro I hI w h
  simp only [purgePending, readKeyTimelockRegistry, readConsensusRotationRegistry, wp_stepsV7,
    wp_ite]
  intro tl _
  constructor
  · intro _
    refine (writeKeyTimelockRegistry_writesData hI h).mono fun _ w₁ h₁ cr _ => ?_
    exact ⟨fun _ => writeConsensusRotationRegistry_writesData hI h₁, fun _ => h₁⟩
  · intro _ cr _
    exact ⟨fun _ => writeConsensusRotationRegistry_writesData hI h, fun _ => h⟩

variable [Crypto]

theorem moveBond_effects {source target owner : Pubkey} {underfunded : String}
    (h : Effects payer ix.accounts keys w₀ paidIn takenOut w) (hsource : source ∈ keys)
    (htarget : target ∈ keys ∨
      owner = systemProgramId ∧ (target ∈ ix.accounts ∨ target = payer)) :
    Wp (moveBond source target owner underfunded) w fun _ w' =>
      Effects payer ix.accounts keys w₀ (paidIn + validatorBondAtoms)
        (takenOut + validatorBondAtoms) w' := by
  simp only [moveBond, wp_rules, wp_balanceOrZero]
  intro _
  refine (h.wp_debitExisting (.inr hsource)).mono fun _ w₁ h₁ => ?_
  exact h₁.wp_credit htarget

theorem beginExit_balanced :
    Wp (beginExit ix payer addr) w fun _ w' => Balanced payer ix.accounts keys w w' := by
  simp only [beginExit, wp_stepsV7]
  rintro _ _ _ _ _ _ _ _ ⟨rfl, rfl, rfl, rfl⟩
  intros
  have h₀ : Effects payer ix.accounts keys w 0 0 w := .refl
  refine (moveBond_effects h₀ (by simp [keys])
    (.inl (by simp [keys]))).mono fun _ w₁ h₁ => ?_
  intros
  exact (writeEntry_writesData.neutral h₁).mono fun _ w₂ h₂ => ⟨_, _, by omega, h₂⟩

theorem withdrawBond_balanced :
    Wp (withdrawBond ix payer addr) w fun _ w' => Balanced payer ix.accounts keys w w' := by
  simp only [withdrawBond, wp_stepsV7]
  rintro _ _ _ _ _ _ dest hdest ⟨rfl, rfl, rfl⟩ _ _ _ _ e _ _ _ rfl
  intros
  have h₀ : Effects payer ix.accounts keys w 0 0 w := .refl
  refine (moveBond_effects h₀ (by simp [keys])
    (.inr ⟨rfl, .inl (mem_of_getElem? hdest)⟩)).mono fun _ w₁ h₁ => ?_
  exact (writeEntry_writesData.neutral h₁).mono fun _ w₂ h₂ => ⟨_, _, by omega, h₂⟩

theorem applyRecoveryOp_balanced {q : U64} :
    Wp (applyRecoveryOp e op q) w fun _ w' => Balanced payer ix.accounts keys w w' := by
  have h₀ : Effects payer ix.accounts keys w 0 0 w := .refl
  have hbalanced : Balanced payer ix.accounts keys w w := ⟨0, 0, le_rfl, h₀⟩
  cases op with
  | revoke =>
    simp only [applyRecoveryOp, wp_rules]
    intro _
    refine (moveBond_effects h₀ (by simp [keys])
      (.inl (by simp [keys]))).mono fun _ w₁ h₁ => ?_
    exact ⟨_, _, by omega, h₁⟩
  | freeze untilQuanto =>
    simp only [applyRecoveryOp, wp_rules]
    exact fun _ _ => hbalanced
  | unfreeze | setExpiry untilQuanto => exact (wp_pure _).2 hbalanced

/-- Apart from what the operation does, a recovery operation only writes data. -/
theorem recoverOp_keeps {approvals : List RecoveryApproval} {I : Accounts → Prop}
    (hI : ∀ w k owner bytes, k ∈ keys → I w →
      I (w.insert k { w.getOrNew k owner with data := bytes }))
    (h : ∀ e q, Wp (applyRecoveryOp e op q) w fun _ w' => I w') :
    Wp (recoverOp ix addr op approvals) w fun _ w' => I w' := by
  simp only [recoverOp, readRecoveryRegistry, readChainId, wp_stepsV7, wp_ite]
  intros
  refine (h _ _).mono fun _ w₁ h₁ => (writeEntry_writesData hI h₁).mono fun _ w₂ h₂ => ?_
  -- the entry of the log and the committee's nonce follow in either case
  have hrest : ∀ w₃, I w₃ → ∀ (log : KmAuditLog) (r : RecoveryRegistry),
      Wp (writeLazy validatorKmAuditLogId log) w₃ fun _ w₄ =>
        Wp (writeRecoveryRegistry r) w₄ fun _ w' => I w' := by
    intro w₃ h₃ log r
    refine (WritesData.writeLazy (by simp [keys]) hI h₃).mono fun _ w₄ h₄ => ?_
    exact writeRecoveryRegistry_writesData hI h₄
  constructor
  · intro _
    exact (purgePending_writesData hI h₂).mono fun _ w₃ h₃ log _ => hrest w₃ h₃ _ _
  · intro _ log _
    exact hrest w₂ h₂ _ _

theorem recoverOp_balanced {approvals : List RecoveryApproval} :
    Wp (recoverOp ix addr op approvals) w fun _ w' => Balanced payer ix.accounts keys w w' := by
  refine recoverOp_keeps ?_ fun _ _ => applyRecoveryOp_balanced
  rintro w k owner bytes hk ⟨paidIn, takenOut, hle, h⟩
  exact ⟨paidIn, takenOut, hle, h.write (.data hk)⟩

theorem wp_applyConsensusRotation {q : U64} {Q : ValidatorV7Entry → Accounts → Prop}
    (h : ∀ e', Q e' w) :
    Wp (applyConsensusRotation reg e newBundle newP2pAddress q) w Q := by
  simp only [applyConsensusRotation, checkP2pAddress, wp_rules]
  intro _ _ _
  exact h _

theorem rotateConsensusKey_writesData {newPop : MultiSignature} :
    WritesData keys (rotateConsensusKey ix payer addr newBundle newP2pAddress newPop) := by
  intro I hI w h
  simp only [rotateConsensusKey, readConsensusRotationRegistry, wp_stepsV7, wp_ite]
  intros
  apply wp_applyConsensusRotation
  intro e'
  refine (writeEntry_writesData hI h).mono fun _ w₁ h₁ cr _ => ?_
  exact ⟨fun _ => writeConsensusRotationRegistry_writesData hI h₁, fun _ => h₁⟩

theorem proposeConsensusKeyRotation_writesData :
    WritesData keys (proposeConsensusKeyRotation ix payer addr newBundle newP2pAddress) := by
  intro I hI w h
  simp only [proposeConsensusKeyRotation, checkP2pAddress, readConsensusRotationRegistry,
    wp_stepsV7]
  intros
  split <;> simp only [wp_rules] <;> intros <;>
    exact writeConsensusRotationRegistry_writesData hI h

theorem acceptConsensusKeyRotation_writesData {acceptPop : MultiSignature} :
    WritesData keys (acceptConsensusKeyRotation ix addr acceptPop) := by
  intro I hI w h
  simp only [acceptConsensusKeyRotation, readConsensusRotationRegistry, wp_stepsV7]
  intros
  apply wp_applyConsensusRotation
  intro e'
  refine (writeEntry_writesData hI h).mono fun _ w₁ h₁ => ?_
  exact writeConsensusRotationRegistry_writesData hI h₁

theorem bondAndRegister_balanced {moniker : Utf8} {bundle : PublicKeyBundle} {p2pAddress : Utf8}
    {withdrawalAddress : Option Pubkey} {consensusPop : MultiSignature} :
    Wp (bondAndRegister ix payer moniker bundle p2pAddress withdrawalAddress consensusPop) w
      fun _ w' => Balanced payer ix.accounts keys w w' := by
  simp only [bondAndRegister, checkP2pAddress, wp_stepsV7]
  rintro _ _ _ _ _ _ _ _ ⟨rfl, rfl, rfl⟩ hpayer
  intros
  have h₀ : Effects payer ix.accounts keys w 0 0 w := .refl
  refine (h₀.wp_debitExisting (.inl hpayer)).mono fun _ w₁ h₁ => ?_
  refine (h₁.wp_credit (.inl (by simp [keys]))).mono fun _ w₂ h₂ g _ => ?_
  refine ((WritesData.writeLazy (by simp [keys])).neutral h₂).mono fun _ w₃ h₃ => ?_
  exact ⟨_, _, by omega, h₃⟩

theorem reportEquivocation_balanced {evidence : EquivocationEvidence} :
    Wp (reportEquivocation ix evidence) w fun _ w' => Balanced payer ix.accounts keys w w' := by
  simp only [reportEquivocation, StakingProgram.checkEvidence, readChainId, wp_stepsV7,
    wp_balanceOrZero]
  rintro _ _ _ _ _ _ _ ⟨rfl, rfl, rfl⟩
  intros
  have h₀ : Effects payer ix.accounts keys w 0 0 w := .refl
  refine (h₀.wp_debitExisting (.inr ?_)).mono fun _ w₁ h₁ => ?_
  · split_ifs <;> simp [keys]
  · exact (writeEntry_writesData.neutral h₁).mono fun _ w₂ h₂ => ⟨_, _, by omega, h₂⟩

theorem process_balanced :
    Wp (process ix payer) w fun _ w' => Balanced payer ix.accounts keys w w' := by
  simp only [process, wp_rules]
  intro instr _
  cases instr with
  | bondAndRegister => exact bondAndRegister_balanced
  | beginExit => exact beginExit_balanced
  | withdrawBond => exact withdrawBond_balanced
  | reportEquivocation => exact reportEquivocation_balanced
  | unjail => exact unjail_writesData.neutral.balanced
  | rotateOperator => exact rotateOperator_writesData.neutral.balanced
  | rotateWithdrawal => exact rotateWithdrawal_writesData.neutral.balanced
  | rotateConsensusKey => exact rotateConsensusKey_writesData.neutral.balanced
  | revokeConsensusKey => exact revokeConsensusKey_writesData.neutral.balanced
  | setConsensusKeyExpiry => exact setConsensusKeyExpiry_writesData.neutral.balanced
  | setRecoveryCommittee => exact setRecoveryCommittee_writesData.neutral.balanced
  | recoverOp => exact recoverOp_balanced
  | applyPendingKeyChange => exact applyPendingKeyChange_writesData.neutral.balanced
  | cancelPendingKeyChange => exact cancelPendingKeyChange_writesData.neutral.balanced
  | proposeConsensusKeyRotation => exact proposeConsensusKeyRotation_writesData.neutral.balanced
  | acceptConsensusKeyRotation => exact acceptConsensusKeyRotation_writesData.neutral.balanced
  | cancelConsensusKeyRotation => exact cancelConsensusKeyRotation_writesData.neutral.balanced

end ValidatorV7Program

/-! ### The treasury program -/

namespace TreasuryV7Program

/-- The accounts of the protocol that the program writes. -/
def keys : List Pubkey := [treasuryAccountId]

variable {s : TreasuryState} {opId : U64} {op : TreasuryOp}

theorem wp_preamble {Q : TreasuryState → Accounts → Prop} (h : ∀ s, Q s w) :
    Wp (preamble ix payer round) w Q := by
  simp only [preamble, wp_steps, wp_readState]
  intros
  exact h _

theorem wp_validateOp {Q : Unit → Accounts → Prop} (h : Q () w) : Wp (validateOp op) w Q := by
  cases op <;>
    simp only [validateOp, validateSignerSet, validateThresholds, wp_rules] <;>
    intros <;> exact h

theorem wp_countRelease {amount : U64} {Q : TreasuryState → Accounts → Prop} (h : ∀ s, Q s w) :
    Wp (countRelease s round amount) w Q := by
  simp only [countRelease, wp_rules, wp_ite]
  intro _
  exact ⟨fun _ => h _, fun _ _ => h _⟩

variable [Crypto]

theorem writeState_neutral : Neutral payer ix.accounts keys (writeState s) := by
  intro w₀ w paidIn takenOut h
  simp only [writeState, wp_steps, Exec.wp_put]
  intro account hlookup bytes _
  exact h.write (.newData (mem_singleton_self _) hlookup)

theorem propose_neutral : Neutral payer ix.accounts keys (propose ix payer round op) := by
  intro w₀ w paidIn takenOut h
  simp only [propose, requireSigner, wp_rules]
  refine wp_preamble fun s _ => wp_validateOp fun _ => ?_
  exact writeState_neutral h

theorem approve_neutral : Neutral payer ix.accounts keys (approve ix payer round opId) := by
  intro w₀ w paidIn takenOut h
  simp only [approve, requireSigner, wp_rules, wp_findOp]
  refine wp_preamble fun s _ idx _ p _ _ => ?_
  exact writeState_neutral h

theorem cancel_neutral : Neutral payer ix.accounts keys (cancel ix payer round opId) := by
  intro w₀ w paidIn takenOut h
  simp only [cancel, requireSigner, wp_rules, wp_findOp]
  refine wp_preamble fun s _ idx _ p _ _ _ _ => ?_
  exact writeState_neutral h

theorem applyRelease_balanced {amount : U64} {destination : Pubkey} :
    Wp (applyRelease ix s round amount destination) w fun _ w' =>
      Balanced payer ix.accounts keys w w' := by
  simp only [applyRelease, wp_steps]
  intro dest hdest _
  refine wp_countRelease fun s _ _ _ => ?_
  have h₀ : Effects payer ix.accounts keys w 0 0 w := .refl
  refine (h₀.wp_debitExisting (.inr (by simp [keys]))).mono
    fun _ w₁ h₁ => ?_
  refine (h₁.wp_credit (.inr ⟨rfl, .inl (mem_of_getElem? hdest)⟩)).mono fun _ w₂ h₂ => ?_
  exact ⟨_, _, by omega, h₂⟩

theorem applyOp_balanced :
    Wp (applyOp ix s round opId op) w fun _ w' => Balanced payer ix.accounts keys w w' := by
  have hbalanced : Balanced payer ix.accounts keys w w := ⟨0, 0, le_rfl, .refl⟩
  cases op with
  | release amount destination => exact applyRelease_balanced
  | setSigners =>
    simp only [applyOp, validateThresholds, wp_rules]
    exact fun _ => hbalanced
  | setPolicy => exact (wp_pure _).2 hbalanced

theorem executeOp_balanced :
    Wp (executeOp ix round opId) w fun _ w' => Balanced payer ix.accounts keys w w' := by
  simp only [executeOp, wp_rules, wp_readState, wp_findOp]
  intros
  refine Wp.mono (Q := fun _ w' => Balanced payer ix.accounts keys w w') applyOp_balanced ?_
  rintro s w₁ ⟨paidIn, takenOut, hle, h₁⟩
  exact (writeState_neutral h₁).mono fun _ w₂ h₂ => ⟨_, _, hle, h₂⟩

theorem process_balanced :
    Wp (process ix payer round) w fun _ w' => Balanced payer ix.accounts keys w w' := by
  simp only [process, wp_rules]
  intro instr _
  cases instr with
  | propose op => exact propose_neutral.balanced
  | approve opId => exact approve_neutral.balanced
  | execute opId => exact executeOp_balanced
  | cancel opId => exact cancel_neutral.balanced
  | pruneExpired =>
    rw [wp_bind]
    exact wp_preamble fun s => writeState_neutral.balanced

end TreasuryV7Program

end QChain
