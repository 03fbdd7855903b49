import QChain.Execution.Governance
import QChain.Execution.SystemProgram
import QChain.Execution.TreasuryV7
import QChain.Execution.ValidatorV7
import QChain.Execution.Wasm

/-!
# The ledger

`Ledger` of `qchain-execution/src/ledger.rs`, with the fee rules of `fees_v7.rs`: how a
transaction is checked, charged and executed, where fees go, and what happens when quantos
close. A transaction works on copies of the accounts it names. Only if every instruction
succeeds are the copies written back; the fee is taken in any case.

A panic stops the node and is the only failure of `LedgerM`; the error of a transaction is a
value, since what was written before it stays.

## Main definitions

* `LedgerConfig`, `Ledger`: the fixed settings, and the accounts with the counters.
* `Ledger.closeDueQuantos`: the close of quantos a transaction's round has passed.
* `Ledger.applyTransaction`: the execution of a transaction.
-/

namespace QChain

open Exec Finmap Transact

/-- The settings a ledger is made with. -/
structure LedgerConfig where
  economicsV7 : Bool
  roundsPerQuanto : U64
  hardCapSupply : Bool
  adminFeeWallet : Pubkey
  deriving DecidableEq

/-- A validator's participation in a quanto: credits and opportunities. -/
abbrev ParticipationTally := List (Pubkey × U64 × U64)

/-- The accounts and the counters of a ledger. -/
structure Ledger where
  store : Accounts
  totalBurned : U64
  feeBurned : U64
  dustBurned : U64
  validatorEarned : U64
  poolEarned : U64
  totalEmitted : U64
  validatorCommissions : Finmap fun _ : Pubkey => U64
  participationByQuanto : Finmap fun _ : U64 => ParticipationTally
  deriving DecidableEq

/-- Code on a ledger, which fails only by stopping the node. -/
abbrev LedgerM := Transact Ledger Unit

/-! ### Native programs -/

/-- The programs that are part of the node. -/
inductive NativeProgram
  | system
  | staking
  | stakingV7
  | validatorV7
  | treasuryV7
  | governance
  deriving DecidableEq

/-- `register_standard_programs`: the program at an address. -/
def nativeProgram (economicsV7 : Bool) (id : Pubkey) : Option NativeProgram :=
  if id = systemProgramId then some .system
  else if id = stakingProgramId then some (if economicsV7 then .stakingV7 else .staking)
  else if id = governanceProgramId then some .governance
  else if economicsV7 ∧ id = validatorV7ProgramId then some .validatorV7
  else if economicsV7 ∧ id = treasuryV7ProgramId then some .treasuryV7
  else none

/-- `NativeProgram::process`. -/
def NativeProgram.process [Crypto] (program : NativeProgram) (ix : Instruction) (payer : Pubkey)
    (currentRound : U64) : Exec Unit :=
  match program with
  | system => SystemProgram.process ix payer
  | staking => StakingProgram.process ix payer currentRound
  | stakingV7 => StakingV7Program.process ix payer
  | validatorV7 => ValidatorV7Program.process ix payer
  | treasuryV7 => TreasuryV7Program.process ix payer currentRound
  | governance => GovernanceProgram.process ix payer currentRound

/-! ### v7 fees -/

/-- `FeeSplit`. -/
structure FeeSplit where
  validator : U64
  burn : U64
  admin : U64
  deriving DecidableEq

/-- `fee_split`: 45/45/10, the odd unit to the burn. -/
def feeSplit (fee : U64) : FeeSplit :=
  let admin := (fee : ℕ) / 10
  let rest := (fee : ℕ) - admin
  let burn := (rest + 1) / 2
  ⟨Word.ofNat (rest - burn), Word.ofNat burn, Word.ofNat admin⟩

/-- `VALIDATOR_MIN_PARTICIPATION_BPS`. -/
def validatorMinParticipationBps : ℕ := 9000

/-- `is_eligible`. -/
def isEligible (entry : ValidatorV7Entry) (quanto : U64) : Bool :=
  entry.state = .active && entry.activationQuanto ≤ quanto &&
    validatorMinParticipationBps ≤ entry.participationBps && !entry.consensusKeyDisabled quanto

/-- `eligible_addresses`: the withdrawal addresses of the eligible validators. -/
def eligibleAddresses (registry : ValidatorV7Registry) (quanto : U64) : List Pubkey :=
  (registry.validators.filter fun v => isEligible v quanto).map (·.withdrawalAddress)

/-- `distribute_fee_pool`: equal shares; the rest stays in the pool. -/
def distributeFeePool (eligible : List Pubkey) : Exec U64 := do
  let pool ← balanceOrZero validatorFeePoolId
  if eligible = [] ∨ (pool : ℕ) = 0 then
    pure 0
  else
    let reward : U64 := Word.ofNat (pool / eligible.length)
    let paid : U64 ← expect (Word.checked (reward * eligible.length))
    if 0 < (reward : ℕ) then
      let account ← expect (← find validatorFeePoolId)
      put validatorFeePoolId { account with balance := ← expect (checkedSub account.balance paid) }
      eligible.forM fun k => creditOrPanic k systemProgramId reward
    pure reward

/-- `DEFAULT_FUEL_LIMIT`. -/
def defaultFuelLimit : U64 := 5000000

/-- `wasm_fuel_budget`. -/
def wasmFuelBudget (gasBudget gasPricePerFuel : U64) : U64 :=
  if (gasPricePerFuel : ℕ) = 0 then defaultFuelLimit
  else min (Word.ofNat (gasBudget / gasPricePerFuel)) defaultFuelLimit

/-- `PARTICIPATION_LAG_QUANTOS`. -/
def participationLagQuantos : ℕ := 1

/-- `PARTICIPATION_RETENTION_QUANTOS`. -/
def participationRetentionQuantos : ℕ := 64

/-- `MAX_QUANTO_CATCHUP_PER_TX`. -/
def maxQuantoCatchupPerTx : ℕ := 4096

namespace Ledger

/-- `write_account`. -/
def writeAccount (k : Pubkey) (account : Account) : LedgerM Unit :=
  modify fun l => { l with store := l.store.insert k account }

/-- Copies the account at an address, if there is one. -/
def copyAt (source target : Accounts) (k : Pubkey) : Accounts :=
  match source.lookup k with
  | some account => target.insert k account
  | none => target

/-- The accounts of the store at some addresses. -/
def copies (store : Accounts) (ks : List Pubkey) : Accounts := ks.foldl (copyAt store) ∅

/-- Writes the accounts of a map at some addresses back to the store. -/
def writeBack (accounts : Accounts) (ks : List Pubkey) : LedgerM Unit :=
  modify fun l => { l with store := ks.foldl (copyAt accounts) l.store }

/-- Runs a program on copies of accounts. -/
def runOn {α : Type} (program : Exec α) (accounts : Accounts) :
    LedgerM (Except ExecError (α × Accounts)) :=
  match program.run accounts with
  | .ok result => pure (.ok result)
  | .error (.error e) => pure (.error e)
  | .error .panicked => throw ()

section Rules

variable {l : Ledger} {k : Pubkey} {account : Account} {store : Accounts} {ks : List Pubkey}

@[simp] theorem wp_writeAccount {Q : Unit → Ledger → Prop} :
    Wp (writeAccount k account) l Q ↔ Q () { l with store := l.store.insert k account } := by
  simp [writeAccount]

@[simp] theorem wp_runOn {α : Type} {program : Exec α} {w : Accounts}
    {Q : Except ExecError (α × Accounts) → Ledger → Prop} :
    Wp (runOn program w) l Q ↔ (Wp program w fun a w' => Q (.ok (a, w')) l) ∧
      ∀ e, program.run w = .error (.error e) → Q (.error e) l := by
  unfold runOn
  cases h : program.run w with
  | ok result =>
    rw [wp_pure]
    constructor
    · intro hQ
      refine ⟨fun a w' hrun => ?_, fun e he => ?_⟩
      · rw [h] at hrun
        obtain rfl := Except.ok.inj hrun
        exact hQ
      · cases he
    · rintro ⟨hQ, _⟩
      exact hQ _ _ h
  | error halt =>
    have hrun : ∀ Q : α → Accounts → Prop, Wp program w Q := by
      intro Q a w' hrun
      rw [h] at hrun
      cases hrun
    cases halt with
    | error e | panicked => simp [hrun]

variable {source target : Accounts}

theorem lookup_copyAt {k' : Pubkey} :
    (copyAt source target k').lookup k =
      (if k = k' then source.lookup k else none).or (target.lookup k) := by
  unfold copyAt
  by_cases hk : k = k'
  · subst hk
    cases source.lookup k with
    | none | some account => simp
  · cases source.lookup k' with
    | none | some account => simp [hk]

theorem copyAt_of_lookup_eq (h : source.lookup k = target.lookup k) :
    copyAt source target k = target := by
  unfold copyAt
  rw [h]
  cases hlookup : target.lookup k with
  | none => rfl
  | some account => exact insert_of_lookup hlookup

theorem lookup_foldl_copyAt :
    (ks.foldl (copyAt source) target).lookup k =
      (if k ∈ ks then source.lookup k else none).or (target.lookup k) := by
  induction ks generalizing target with
  | nil => rfl
  | cons k' ks ih =>
    rw [List.foldl_cons, ih, lookup_copyAt, ← Option.or_assoc]
    by_cases hk : k = k'
    · subst hk
      by_cases hmem : k ∈ ks <;> simp [hmem]
    · simp [hk]

theorem lookup_copies : (copies store ks).lookup k = if k ∈ ks then store.lookup k else none := by
  rw [copies, lookup_foldl_copyAt, lookup_empty, Option.or_none]

@[simp] theorem copies_union : copies store ks ∪ store = store := by
  apply ext_lookup
  intro k
  rw [lookup_union_eq, lookup_copies]
  split_ifs
  · exact Option.or_self
  · exact Option.none_or

theorem mem_copies : k ∈ copies store ks ↔ k ∈ ks ∧ k ∈ store := by
  rw [Finmap.mem_iff, lookup_copies, Finmap.mem_iff]
  split_ifs with hk <;> simp [hk]

/-- Copies at addresses of a list, written back, are what they are over the store. -/
theorem wp_writeBack {accounts : Accounts} {Q : Unit → Ledger → Prop}
    (hkeys : ∀ k ∈ accounts, k ∈ ks) :
    Wp (writeBack accounts ks) l Q ↔ Q () { l with store := accounts ∪ l.store } := by
  have hstore : ks.foldl (copyAt accounts) l.store = accounts ∪ l.store := by
    apply ext_lookup
    intro k
    rw [lookup_foldl_copyAt, lookup_union_eq]
    split_ifs with hk
    · rfl
    · rw [lookup_eq_none.2 fun hmem => hk (hkeys k hmem)]
  rw [writeBack, wp_modify, hstore]

end Rules

/-! ### The close of quantos -/

/-- The registry of validators, if it is there and decodes. -/
def storedRegistry (l : Ledger) : Option ValidatorV7Registry :=
  (l.store.lookup validatorRegistryAccountId).bind fun account =>
    ValidatorV7Registry.decodeRegistry account.data

/-- Writes a registry that differs from the one before. -/
def writeStoredRegistry (before after : ValidatorV7Registry) : LedgerM Unit := do
  let account := (← get).store.getOrNew validatorRegistryAccountId stakingProgramId
  match Borsh.toVec after with
  | some data =>
    if after ≠ before then
      writeAccount validatorRegistryAccountId { account with data := data }
  | none => pure ()

/-- `activate_due_validators`. -/
def activateDueValidators (quanto : U64) : LedgerM Unit := do
  match (← get).storedRegistry with
  | none => pure ()
  | some registry =>
    writeStoredRegistry registry ⟨registry.validators.map fun v =>
      if v.state = .bondedPending ∧ v.activationQuanto ≤ quanto then { v with state := .active }
      else v⟩

variable (cfg : LedgerConfig)

/-- `set_quanto_participation`. -/
def setQuantoParticipation (quanto : U64) (entries : ParticipationTally)
    (l : Ledger) : Ledger :=
  if cfg.economicsV7 then
    let cutoff := (quanto : ℕ) - participationRetentionQuantos
    { l with
      participationByQuanto :=
        (l.participationByQuanto.insert quanto entries).filterKeys fun q => cutoff ≤ (q : ℕ) }
  else
    l

/-- The scores of a tally put into the registry; of two entries of a validator the later
counts. -/
def scoreRegistry (tally : ParticipationTally) (registry : ValidatorV7Registry) :
    ValidatorV7Registry :=
  ⟨registry.validators.map fun v =>
    match tally.reverse.find? fun e => e.1 = v.address with
    | some (_, credits, opportunities) =>
      { v with participationCredits := credits, participationOpportunities := opportunities }
    | none => v⟩

/-- `apply_participation_for_quanto`: the scores of the quanto before the one that closes. -/
def applyParticipationForQuanto (cur : U64) : LedgerM Unit := do
  if (cur : ℕ) < participationLagQuantos then
    pure ()
  else
    let l ← get
    let scored : U64 := Word.ofNat (cur - participationLagQuantos)
    match l.participationByQuanto.lookup scored, l.storedRegistry with
    | some tally, some registry =>
      if tally ≠ [] then
        writeStoredRegistry registry (scoreRegistry tally registry).jailInactive
    | _, _ => pure ()

/-- `distribute_fee_pool_for_quanto`. -/
def distributeFeePoolForQuanto (quanto : U64) : LedgerM Unit := do
  let l ← get
  let eligible := eligibleAddresses (l.storedRegistry.getD default) quanto
  if l.store.balanceOf validatorFeePoolId = 0 ∨ eligible = [] then
    pure ()
  else
    let accounts := copies l.store (validatorFeePoolId :: eligible)
    match ← runOn (distributeFeePool eligible) accounts with
    | .ok (reward, accounts) =>
      if 0 < (reward : ℕ) then
        writeBack accounts (validatorFeePoolId :: eligible)
    | .error _ => pure ()

/-- The addresses whose copies the close of quantos works on. -/
def quantoAccounts : List Pubkey :=
  [stakingGlobalId, stakingReserveId] ++ if cfg.hardCapSupply then [emissionReserveId] else []

/-- The loop of `close_due_quantos`: the copies, and whether a quanto was closed. -/
def closeQuantos (cfg : LedgerConfig) (targetQuanto : U64) :
    ℕ → Accounts → Bool → LedgerM (Accounts × Bool)
  | 0, accounts, settledAny => pure (accounts, settledAny)
  | guard + 1, accounts, settledAny => do
    match ← runOn currentQuanto accounts with
    | .error _ => pure (accounts, settledAny)
    | .ok (cur, _) =>
      if targetQuanto ≤ cur then
        pure (accounts, settledAny)
      else
        match ← runOn (settleQuantoEx cur cfg.hardCapSupply) accounts with
        | .error _ => pure (accounts, settledAny)
        | .ok (minted, accounts) => do
          modify fun l => { l with totalEmitted := Word.clamp (l.totalEmitted + minted) }
          activateDueValidators cur
          applyParticipationForQuanto cur
          distributeFeePoolForQuanto cur
          closeQuantos cfg targetQuanto guard accounts true

/-- `close_due_quantos`. -/
def closeDueQuantos (currentRound : U64) : LedgerM Unit := do
  if cfg.economicsV7 = false ∨ (cfg.roundsPerQuanto : ℕ) = 0 then
    pure ()
  else
    let targetQuanto : U64 := Word.ofNat (currentRound / cfg.roundsPerQuanto)
    let accounts := copies (← get).store (quantoAccounts cfg)
    let (accounts, settledAny) ←
      closeQuantos cfg targetQuanto maxQuantoCatchupPerTx accounts false
    if settledAny then
      writeBack accounts [stakingGlobalId, stakingReserveId, emissionReserveId]

/-! ### Where fees go -/

/-- `Ledger::credit`. -/
def credit (k : Pubkey) (amount : U64) : LedgerM Unit := do
  let account := (← get).store.getOrNew k systemProgramId
  let balance ← orThrow (Word.checked (account.balance + amount)) ()
  writeAccount k { account with balance := balance }

variable (working : Option Accounts)

/-- `credit_fee_target`: into the working copies if the account is one of them. -/
def creditFeeTarget (k : Pubkey) (amount : U64) :
    LedgerM (Option Accounts) :=
  if (amount : ℕ) = 0 then
    pure working
  else
    match working.bind fun w => (w.lookup k).map fun account => (w, account) with
    | some (w, account) => do
      let balance ← orThrow (Word.checked (account.balance + amount)) ()
      pure (some (w.insert k { account with balance := balance }))
    | none => do
      credit k amount
      pure working

/-- `read_fee_account`. -/
def readFeeAccount (k : Pubkey) (l : Ledger) : Option Account :=
  (working.bind fun w => w.lookup k).or (l.store.lookup k)

/-- `write_fee_account`. -/
def writeFeeAccount (k : Pubkey) (account : Account) :
    LedgerM (Option Accounts) :=
  match working.bind fun w => (w.lookup k).map fun _ => w with
  | some w => pure (some (w.insert k account))
  | none => do
    writeAccount k account
    pure working

/-- `note_validator_commission`. -/
def noteValidatorCommission (validator : Pubkey) (amount : U64) (l : Ledger) : Ledger :=
  let before := (l.validatorCommissions.lookup validator).getD 0
  { l with
    validatorCommissions := l.validatorCommissions.insert validator (Word.clamp (before + amount)) }

/-- A validator's income counted. -/
def noteEarned (validator : Pubkey) (amount : U64) (l : Ledger) : Ledger :=
  noteValidatorCommission validator amount
    { l with validatorEarned := Word.clamp (l.validatorEarned + amount) }

/-- Fee units that are not credited to anyone. -/
def noteFeeBurned (amount : ℕ) (l : Ledger) : Ledger :=
  { l with
    totalBurned := Word.clamp (l.totalBurned + amount)
    feeBurned := Word.clamp (l.feeBurned + amount) }

/-- The accounts `credit_validator_share` works on. -/
def feeAccounts (l : Ledger) : Accounts :=
  [stakingStatsId, stakingRewardsPoolId].foldl (fun accounts k =>
    match readFeeAccount working k l with
    | some account => accounts.insert k account
    | none => accounts) ∅

/-- The reward pool of these accounts, written where it was read. -/
def writeRewardPool (accounts : Accounts) :
    LedgerM (Option Accounts) :=
  match accounts.lookup stakingRewardsPoolId with
  | some pool => writeFeeAccount working stakingRewardsPoolId pool
  | none => pure working

/-- `credit_validator_share`: commission to the validator, the rest to the reward pool; all of
it to the validator while nobody stakes. -/
def creditValidatorShare (feeCollector : Pubkey)
    (validatorShare : U64) (params : EconomicParams) :
    LedgerM (Except ExecError (Option Accounts)) := do
  if (validatorShare : ℕ) = 0 then
    pure (.ok working)
  else
    let commission : U64 :=
      Word.ofNat (validatorShare * params.stakingCommissionBps.toNat / 10000)
    let poolShare : U64 := Word.ofNat (validatorShare - commission)
    let accounts := feeAccounts working (← get)
    match ← runOn (accrueRewardPool stakingRewardsPoolId stakingStatsId poolShare) accounts with
    | .error e => pure (.error e)
    | .ok (true, accounts) => do
      let working ← writeRewardPool working accounts
      let working ← creditFeeTarget working feeCollector commission
      modify fun l => { l with poolEarned := Word.clamp (l.poolEarned + poolShare) }
      modify (noteEarned feeCollector commission)
      pure (.ok working)
    | .ok (false, _) => do
      let working ← creditFeeTarget working feeCollector validatorShare
      modify (noteEarned feeCollector validatorShare)
      pure (.ok working)

/-- `route_fee_v7`: under the hard cap the burned part returns to the emission reserve. -/
def routeFeeV7 (cfg : LedgerConfig) (working : Option Accounts) (fee : U64) :
    LedgerM (Option Accounts) := do
  let split := feeSplit fee
  let working ←
    if cfg.hardCapSupply then
      creditFeeTarget working emissionReserveId split.burn
    else do
      modify (noteFeeBurned split.burn)
      pure working
  let working ← creditFeeTarget working validatorFeePoolId split.validator
  modify fun l => { l with poolEarned := Word.clamp (l.poolEarned + split.validator) }
  creditFeeTarget working cfg.adminFeeWallet split.admin

/-- The distribution of a fee under either economy. -/
def distributeFee (cfg : LedgerConfig) (working : Option Accounts) (feeCollector : Pubkey)
    (fee : U64) (params : EconomicParams) : LedgerM (Except ExecError (Option Accounts)) := do
  if cfg.economicsV7 then
    pure (.ok (← routeFeeV7 cfg working fee))
  else
    let burnShare := (fee : ℕ) / 2
    modify (noteFeeBurned burnShare)
    creditValidatorShare working feeCollector (Word.ofNat (fee - burnShare)) params

/-! ### Parameters and the dynamic fee -/

/-- `current_params`: parameters that do not decode stop the node. -/
def currentParams : LedgerM EconomicParams := do
  match (← get).store.lookup paramsAccountId with
  | none => pure EconomicParams.default
  | some account => orThrow (EconomicParams.readOrLegacy account.data) ()

/-- The parameters of the accounts; `none` if they do not decode. -/
def storedParams (accounts : Accounts) : Option EconomicParams :=
  match accounts.lookup paramsAccountId with
  | none => some EconomicParams.default
  | some account => EconomicParams.readOrLegacy account.data

@[simp] theorem wp_currentParams {l : Ledger} {Q : EconomicParams → Ledger → Prop} :
    Wp currentParams l Q ↔ ∀ params, storedParams l.store = some params → Q params l := by
  unfold currentParams storedParams
  rw [wp_bind, wp_get]
  cases l.store.lookup paramsAccountId <;> simp

/-- `effective_base_fee_at`. -/
def effectiveBaseFeeAt (currentRound : U64) : LedgerM U64 := do
  let base := (← currentParams).baseFeePerByte
  match (← get).store.lookup feeStateAccountId with
  | none => pure base
  | some account => do
    let fs ← orThrow (FeeState.readOrLegacy account.data) ()
    pure (rolledBaseFee base fs.epochRound fs.epochBytes currentRound feeTargetBytesPerRound)

/-- The base fee at a later round, written into the parameters. -/
def rollBaseFee (fs : FeeState) (currentRound : U64) : LedgerM EconomicParams := do
  let params ← currentParams
  let newBase := rolledBaseFee params.baseFeePerByte fs.epochRound fs.epochBytes currentRound
    feeTargetBytesPerRound
  if newBase ≠ params.baseFeePerByte then
    let params := { params with baseFeePerByte := newBase }
    let account := (← get).store.getOrNew paramsAccountId governanceProgramId
    let data ← orThrow (Borsh.toVec params) ()
    writeAccount paramsAccountId { account with data := data }
    pure params
  else
    pure params

/-- The total stake of the v6 economy, zero if there is none. -/
def totalStaked (l : Ledger) : U64 :=
  ((l.store.lookup stakingStatsId).bind fun account => Borsh.fromSlice account.data).getD 0

/-- The v6 emission for the rounds since the last one: the new carry. -/
def emitForRounds (fs : FeeState) (params : EconomicParams) (currentRound : U64) :
    LedgerM FeeState := do
  let l ← get
  if 0 < (l.totalStaked : ℕ) ∧ 0 < params.emissionAprBps.toNat then
    let rounds : U64 := Word.ofNat (min (currentRound - fs.epochRound : ℕ) roundsPerYear)
    let (whole, newCarry) :=
      emissionForRounds l.totalStaked params.emissionAprBps rounds fs.emissionCarry
    if 0 < (whole : ℕ) then
      let accounts := copies l.store [stakingStatsId, stakingRewardsPoolId]
      match ← runOn (accrueRewardPool stakingRewardsPoolId stakingStatsId whole) accounts with
      | .ok (true, accounts) => do
        writeBack accounts [stakingRewardsPoolId]
        modify fun l => { l with totalEmitted := Word.clamp (l.totalEmitted + whole) }
        pure { fs with emissionCarry := newCarry }
      | _ =>
        -- nothing is lost: what was not paid stays in the carry
        let unpaid : U128 := Word.clamp (whole * emissionPrecision)
        pure { fs with emissionCarry := Word.clamp (newCarry + unpaid) }
    else
      pure { fs with emissionCarry := newCarry }
  else
    pure fs

/-- The fee state in an account, or a new one. -/
def feeStateOf (existing : Option Account) (currentRound : U64) : LedgerM FeeState :=
  match existing with
  | none => pure ⟨currentRound, 0, 0⟩
  | some account => orThrow (FeeState.readOrLegacy account.data) ()

/-- The part of `advance_dynamic_fee` for a round later than the last one. -/
def rollFeeState (fs : FeeState) (currentRound : U64) : LedgerM FeeState := do
  if fs.epochRound < currentRound then
    let params ← rollBaseFee fs currentRound
    let fs ← emitForRounds fs params currentRound
    pure { fs with epochRound := currentRound, epochBytes := 0 }
  else
    pure fs

/-- `advance_dynamic_fee`. -/
def advanceDynamicFee (currentRound : U64) (txBytes : U64) : LedgerM Unit := do
  let existing := (← get).store.lookup feeStateAccountId
  let fs ← rollFeeState (← feeStateOf existing currentRound) currentRound
  let fs := { fs with epochBytes := Word.clamp (fs.epochBytes + txBytes) }
  let account := existing.getD (Account.newWallet feeStateAccountId)
  let data ← orThrow (Borsh.toVec fs) ()
  writeAccount feeStateAccountId { account with data := data }

/-! ### Transactions -/

/-- `current_registry`: a registry that does not decode stops the node. -/
def currentRegistry : LedgerM (List RegistryEntry) := do
  match (← get).store.lookup registryAccountId with
  | none => pure genesisRegistry
  | some account => orThrow (Borsh.fromSlice account.data) ()

/-- The reason a scheme is not acceptable. -/
def schemeError (registry : List RegistryEntry) (isNewAccount : Bool) (currentRound : U64)
    (scheme : AlgorithmId) : Option String :=
  match registry.find? fun e => e.id = scheme with
  | none => some s!"scheme AlgorithmId({scheme}) is not registered"
  | some entry =>
    let activationEpoch := entry.activationEpoch
    if entry.status = .retired then
      some s!"scheme AlgorithmId({scheme}) is retired"
    else if entry.status ≠ .active ∧ isNewAccount then
      some s!"scheme AlgorithmId({scheme}) is deprecated; no new accounts may adopt it"
    else if currentRound < activationEpoch then
      some <| s!"scheme AlgorithmId({scheme}) is not active until round {activationEpoch} " ++
        s!"(current round {currentRound})"
    else
      none

variable [Crypto] (tx : Transaction)

/-- `check_registry_status`: the error, if the payer's keys are not acceptable. -/
def checkRegistryStatus (isNewAccount : Bool) (currentRound : U64) :
    LedgerM (Option ExecError) := do
  match tx.resolvedCombo with
  | none =>
    pure (some (.algorithmNotAcceptable "payer key bundle does not resolve to any known combo"))
  | some combo =>
    match comboComponents combo with
    | none => pure (some (.algorithmNotAcceptable s!"unknown combo AlgorithmId({combo})"))
    | some schemes => do
      let registry ← currentRegistry
      pure ((schemes.findSome? (schemeError registry isNewAccount currentRound)).map
        .algorithmNotAcceptable)

/-- The payer's account, or the wallet its first transaction makes. -/
def payerAccountOf (l : Ledger) : Account :=
  (l.store.lookup tx.message.payer).getD
    { Account.newWallet systemProgramId with
      algorithmId := tx.resolvedCombo.getD comboHybridEd25519MlDsa65 }

/-- What a transaction that is admitted has to pay before it runs. -/
structure Admission where
  params : EconomicParams
  byteFee : U64
  upfrontFee : U64

/-- The checks of `apply_transaction_inner` before the fee is taken. The payer's account is
the one read before quantos were closed. A refusal other than by the nonce still advances the
dynamic fee. -/
def precheck (payerAccount : Account) (currentRound : U64) :
    LedgerM (Except ExecError Admission) := do
  let msg := tx.message
  let version := msg.version
  let (accountNonce, txNonce) := (payerAccount.nonce, msg.nonce)
  if (msg.validUntilRound : ℕ) ≠ 0 ∧ msg.validUntilRound < currentRound then do
    advanceDynamicFee currentRound 0
    pure (.error (.expired msg.validUntilRound currentRound))
  else if version ≠ currentTxVersion then do
    advanceDynamicFee currentRound 0
    pure (.error (.programError <| s!"unsupported transaction version {version} " ++
      s!"(this node accepts version {currentTxVersion})"))
  else
    let params ← currentParams
    let effectiveBase ← effectiveBaseFeeAt currentRound
    let byteFee : U64 := Word.clamp (effectiveBase * (Word.ofNat tx.byteSize : U64))
    let upfrontFee : U64 := Word.clamp (byteFee + msg.priorityFee)
    if payerAccount.balance < upfrontFee then do
      advanceDynamicFee currentRound 0
      pure (.error .insufficientFunds)
    else if msg.feeLimit < upfrontFee then do
      advanceDynamicFee currentRound 0
      pure (.error (.feeExceedsLimit upfrontFee msg.feeLimit))
    else if accountNonce < txNonce then
      pure (.error (.nonceTooHigh accountNonce txNonce))
    else if txNonce < accountNonce then
      pure (.error (.programError
        s!"nonce mismatch: account is at {accountNonce}, transaction has {txNonce}"))
    else
      pure (.ok ⟨params, byteFee, upfrontFee⟩)

/-- The upfront fee is taken and the nonce used up, whatever comes later. -/
def reserve (payerAccount : Account) (admission : Admission)
    (currentRound : U64) : LedgerM Unit := do
  let balance ← orThrow (checkedSub payerAccount.balance admission.upfrontFee) ()
  let nonce ← orThrow (Word.checked (payerAccount.nonce + 1)) ()
  writeAccount tx.message.payer { payerAccount with balance := balance, nonce := nonce }
  advanceDynamicFee currentRound (Word.ofNat tx.byteSize)

/-- The working copies: the payer, and every account that an instruction names and that is
there. -/
def workingSet (store : Accounts) : Accounts :=
  copies store (tx.message.payer :: tx.message.instructions.flatMap (·.accounts))

variable [WasmEngine]

/-- The check of bytecode that is to be deployed. -/
def validateDeploy (ix : Instruction) : Exec Unit :=
  match SystemInstruction.decode.all ix.data with
  | some (.deployProgram moduleBytes entryPoint _) => do
    if moduleBytes.length ≤ maxProgramBytecodeBytes then
      match WasmEngine.validateDeploy moduleBytes entryPoint with
      | some message =>
        throw (ExecError.programError s!"invalid contract at deploy: {message}" : Halt)
      | none => pure ()
  | _ => pure ()

/-- A call of a deployed program, found in the store as it was before the transaction's
instructions. -/
def callDeployed (store : Accounts) (tx : Transaction) (admission : Admission)
    (totalGasFee : U64) (ix : Instruction) (currentRound : U64) : Exec U64 := do
  let program ← okOr ((store.lookup ix.programId).filter fun a => a.owner = loaderProgramId)
    (.unknownProgram ix.programId)
  let data : WasmProgramData ← okOr (Borsh.fromSlice program.data)
    (.programError "corrupt deployed program data: ")
  check (Crypto.sha3 data.moduleBytes = program.codeHash) (.programError <|
    "deployed program bytecode does not match its advertised code_hash " ++
    "(corrupt program account)")
  let gasBudget : U64 := Word.ofNat (tx.message.feeLimit - admission.upfrontFee - totalGasFee)
  let gasPricePerFuel := admission.params.gasPricePerFuel
  runWasmInstruction data.moduleBytes data.entryPoint ix tx.message.payer gasPricePerFuel
    currentRound data.deployer (wasmFuelBudget gasBudget gasPricePerFuel)

variable (cfg : LedgerConfig)

/-- One instruction on the working copies: the fee for the gas it used. -/
def execInstruction (store : Accounts) (tx : Transaction)
    (admission : Admission) (currentRound totalGasFee : U64) (ix : Instruction) : Exec U64 := do
  if ix.programId = systemProgramId then
    validateDeploy ix
  match nativeProgram cfg.economicsV7 ix.programId with
  | some program => do
    program.process ix tx.message.payer currentRound
    pure 0
  | none => callDeployed store tx admission totalGasFee ix currentRound

variable (tx : Transaction) (feeCollector : Pubkey) (admission : Admission)

/-- `bill_trapped_wasm_fuel`: the fuel of a trapped call is paid for out of the store. -/
def billTrappedWasmFuel (err : ExecError) : LedgerM Unit := do
  match err with
  | .wasm _ fuelConsumed =>
    if 0 < (fuelConsumed : ℕ) then
      let params ← currentParams
      let trapFee := min (Word.clamp (fuelConsumed * params.gasPricePerFuel) : U64)
        (Word.ofNat (tx.message.feeLimit - admission.upfrontFee))
      match (← get).store.lookup tx.message.payer with
      | none => pure ()
      | some account => do
        let charge := min trapFee account.balance
        writeAccount tx.message.payer
          { account with balance := Word.ofNat (account.balance - charge) }
        let _ ← distributeFee cfg none feeCollector charge params
  | _ => pure ()

/-- The instructions of a transaction, one after the other, until one fails: the working
copies and the fee for all gas. -/
def execInstructions (cfg : LedgerConfig) (tx : Transaction) (feeCollector : Pubkey)
    (admission : Admission) (currentRound : U64) :
    List Instruction → Accounts → U64 → LedgerM (Except ExecError (Accounts × U64))
  | [], working, totalGasFee => pure (.ok (working, totalGasFee))
  | ix :: rest, working, totalGasFee => do
    let store := (← get).store
    match ← runOn (execInstruction cfg store tx admission currentRound totalGasFee ix) working with
    | .ok (fee, working) =>
      execInstructions cfg tx feeCollector admission currentRound rest working
        (Word.clamp (totalGasFee + fee))
    | .error e => do
      if nativeProgram cfg.economicsV7 ix.programId = none then
        billTrappedWasmFuel cfg tx feeCollector admission e
      pure (.error e)

/-- The distribution of the upfront fee: byte fee and tip. -/
def distributeUpfrontFee (working : Option Accounts) :
    LedgerM (Except ExecError (Option Accounts)) := do
  match ← distributeFee cfg working feeCollector admission.byteFee admission.params with
  | .error e => pure (.error e)
  | .ok working =>
    let tip := tx.message.priorityFee
    if 0 < (tip : ℕ) then
      let working ← creditFeeTarget working feeCollector tip
      modify (noteEarned feeCollector tip)
      pure (.ok working)
    else
      pure (.ok working)

/-- The distribution of the fee for gas, to the working copies. -/
def distributeGas (working : Accounts) (totalGasFee : U64) :
    LedgerM (Except ExecError Accounts) := do
  if cfg.economicsV7 then
    pure (.ok ((← routeFeeV7 cfg (some working) totalGasFee).getD working))
  else do
    let burnShare := (totalGasFee : ℕ) / 2
    modify (noteFeeBurned burnShare)
    let collector := (working.lookup feeCollector).getD
      ((← get).store.getOrNew feeCollector systemProgramId)
    match (Word.checked (collector.balance + (totalGasFee - burnShare)) : Option U64) with
    | none => pure (.error .arithmeticOverflow)
    | some balance =>
      pure (.ok (working.insert feeCollector { collector with balance := balance }))

/-- The charge for gas, out of the payer's working copy. -/
def chargeGas
    (working : Accounts) (totalGasFee : U64) : LedgerM (Except ExecError Accounts) := do
  if (totalGasFee : ℕ) = 0 then
    pure (.ok working)
  else
    match working.lookup tx.message.payer with
    | none => pure (.error (.accountNotFound tx.message.payer))
    | some account =>
      if account.balance < totalGasFee then
        pure (.error .insufficientFunds)
      else
        distributeGas cfg feeCollector (working.insert tx.message.payer
          { account with balance := Word.ofNat (account.balance - totalGasFee) }) totalGasFee

/-- The accounts that keep small balances: those fees are credited to. -/
def feeTargets : List Pubkey :=
  [feeCollector, validatorFeePoolId, cfg.adminFeeWallet, stakingRewardsPoolId, emissionReserveId]

/-- Whether an account is dust: a wallet with a balance under the threshold. -/
def isDust (dustThreshold : U64) (k : Pubkey)
    (account : Account) : Bool :=
  k ∉ feeTargets cfg feeCollector ∧ account.owner = systemProgramId ∧
    0 < (account.balance : ℕ) ∧ account.balance < dustThreshold

/-- The balance of an account without dust. -/
def sweep (dustThreshold : U64) (k : Pubkey)
    (account : Account) : Account :=
  if isDust cfg feeCollector dustThreshold k account then { account with balance := 0 }
  else account

/-- The working copies are written back, and dust is burned. -/
def commit (params : EconomicParams)
    (working : Accounts) : LedgerM Unit :=
  modify fun l =>
    let swept : Accounts := working.mapValues (sweep cfg feeCollector params.dustThreshold)
    let dust := working.supply - Accounts.supply swept
    { l with
      store := swept ∪ l.store
      totalBurned := Word.clamp (l.totalBurned + dust)
      dustBurned := Word.clamp (l.dustBurned + dust) }

/-- What follows the instructions: fees are distributed, and if all went well gas is charged
and the working copies are written back. -/
def settle (result : Except ExecError (Accounts × U64)) :
    LedgerM (Except ExecError U64) := do
  match result with
  | .error e => do
    match ← distributeUpfrontFee cfg tx feeCollector admission none with
    | .error e' => pure (.error e')
    | .ok _ => pure (.error e)
  | .ok (working, totalGasFee) => do
    match ← distributeUpfrontFee cfg tx feeCollector admission (some working) with
    | .error e => pure (.error e)
    | .ok distributed =>
      let working := distributed.getD working
      let combinedFee : U64 := Word.clamp (admission.upfrontFee + totalGasFee)
      if tx.message.feeLimit < combinedFee then
        pure (.error (.feeExceedsLimit combinedFee tx.message.feeLimit))
      else
        match ← chargeGas cfg tx feeCollector working totalGasFee with
        | .error e => pure (.error e)
        | .ok working => do
          commit cfg feeCollector admission.params working
          pure (.ok combinedFee)

/-- `apply_transaction_inner` up to the point where the fee is taken: the signature and the
payer's keys are checked, due quantos closed, and the upfront fee reserved. -/
def start (currentRound : U64) :
    LedgerM (Except ExecError Admission) := do
  if tx.verifySignature = false then
    pure (.error .invalidSignature)
  else
    let payerAccount := payerAccountOf tx (← get)
    match ← checkRegistryStatus tx ((payerAccount.nonce : ℕ) = 0) currentRound with
    | some e => pure (.error e)
    | none => do
      closeDueQuantos cfg currentRound
      match ← precheck tx payerAccount currentRound with
      | .error e => pure (.error e)
      | .ok admission => do
        reserve tx payerAccount admission currentRound
        pure (.ok admission)

/-- `apply_transaction`: the fee paid, or the error. -/
def applyTransaction
    (currentRound : U64) : LedgerM (Except ExecError U64) := do
  match ← start cfg tx currentRound with
  | .error e => pure (.error e)
  | .ok admission => do
    let working := workingSet tx (← get).store
    let result ← execInstructions cfg tx feeCollector admission currentRound
      tx.message.instructions working 0
    settle cfg tx feeCollector admission result

end Ledger

end QChain
