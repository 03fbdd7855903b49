import QChain.Execution.Account

/-!
# The v7 staking program

Staking by shares of a growing index (`qchain-execution/src/economics_v7.rs`,
`staking_v7.rs`). A position's value is its shares times the index; its funds lie in the
staking reserve and, while they are being withdrawn, in the unbonding pool. Each quanto that
closes raises the index and pays the emission into the reserve, under the hard cap out of the
emission reserve.
-/

namespace QChain

open Transact Exec

/-! ### Fixed-point arithmetic -/

/-- `UNITS_PER_QCH`. -/
def unitsPerQch : ℕ := 1000000000

/-- `INDEX_SCALE`. -/
def indexScale : ℕ := 1000000000000

/-- `INITIAL_STAKING_INDEX`. -/
def initialStakingIndex : U128 := Word.ofNat indexScale

/-- `QUANTO_RATE_SCALE`. -/
def quantoRateScale : ℕ := 1000000000000000000

/-- `STAKING_UNBONDING_QUANTOS`. -/
def stakingUnbondingQuantos : ℕ := 1

/-- `advance_staking_index`. -/
def advanceStakingIndex (index rateFp : U128) : U128 :=
  Word.clamp (index + (Word.clamp (index * rateFp) : U128).toNat / quantoRateScale)

/-- `position_value`. -/
def positionValue (shares index : U128) : U128 :=
  Word.ofNat ((Word.clamp (shares * index) : U128).toNat / indexScale)

/-- `shares_for_deposit`. -/
def sharesForDeposit (amount : U64) (index : U128) : U128 :=
  Word.ofNat ((Word.clamp (amount * indexScale) : U128).toNat / index)

/-- `emission_for_quanto`. -/
def emissionForQuanto (totalShares oldIndex newIndex : U128) : U128 :=
  Word.ofNat (positionValue totalShares newIndex - positionValue totalShares oldIndex)

/-- `index_for_backed_emission`: the largest growth of the index that the budget pays for. -/
def indexForBackedEmission (totalShares oldIndex targetNewIndex : U128) (budget : U128) :
    U128 × U128 :=
  if (totalShares : ℕ) = 0 then
    (targetNewIndex, 0)
  else
    let desired := emissionForQuanto totalShares oldIndex targetNewIndex
    if desired ≤ budget then
      (targetNewIndex, desired)
    else
      let delta := (Word.clamp (budget * indexScale) : U128).toNat / totalShares
      let newIndex : U128 := Word.clamp (oldIndex + delta)
      (newIndex, emissionForQuanto totalShares oldIndex newIndex)

/-! ### Data -/

/-- `GlobalStakingState`. -/
structure GlobalStakingState where
  index : U128
  totalShares : U128
  currentQuanto : U64
  lastSettledQuanto : U64
  rateFp : U128
  pendingShares : U128
  deriving DecidableEq

namespace GlobalStakingState

instance : Borsh GlobalStakingState :=
  Borsh.iso
    (fun g => (g.index, g.totalShares, g.currentQuanto, g.lastSettledQuanto, g.rateFp,
      g.pendingShares))
    fun (index, totalShares, currentQuanto, lastSettledQuanto, rateFp, pendingShares) =>
      ⟨index, totalShares, currentQuanto, lastSettledQuanto, rateFp, pendingShares⟩

instance : LawfulBorsh GlobalStakingState := Borsh.lawful_iso

/-- `GlobalStakingState::genesis_with_rate`. -/
def genesisWithRate (rateFp : U128) : GlobalStakingState :=
  ⟨initialStakingIndex, 0, 0, 0, rateFp, 0⟩

/-- `GlobalStakingState::genesis`. -/
def genesis : GlobalStakingState := genesisWithRate 0

end GlobalStakingState

/-- `PositionState`. -/
inductive PositionState
  | active
  | unbonding
  | withdrawable
  | closed
  deriving DecidableEq

namespace PositionState

/-- The states in the order of their tags. -/
def all : List PositionState := [active, unbonding, withdrawable, closed]

/-- The tag of a state. -/
def tag : PositionState → UInt8
  | active => 0
  | unbonding => 1
  | withdrawable => 2
  | closed => 3

instance : Borsh PositionState := Borsh.ofTags tag all

instance : LawfulBorsh PositionState :=
  Borsh.lawful_ofTags (fun a => by cases a <;> rfl) rfl

end PositionState

/-- `StakePositionV7`. -/
structure StakePositionV7 where
  owner : Pubkey
  activeShares : U128
  createdQuanto : U64
  lastModifiedQuanto : U64
  netDeposited : U64
  unbondingAmount : U64
  unbondingReadyQuanto : U64
  state : PositionState
  pendingShares : U128
  pendingAmount : U64
  pendingActivationQuanto : U64
  deriving DecidableEq

namespace StakePositionV7

instance : Borsh StakePositionV7 :=
  Borsh.iso
    (fun p => (p.owner, p.activeShares, p.createdQuanto, p.lastModifiedQuanto, p.netDeposited,
      p.unbondingAmount, p.unbondingReadyQuanto, p.state, p.pendingShares, p.pendingAmount,
      p.pendingActivationQuanto))
    fun (owner, activeShares, createdQuanto, lastModifiedQuanto, netDeposited, unbondingAmount,
      unbondingReadyQuanto, state, pendingShares, pendingAmount, pendingActivationQuanto) =>
      ⟨owner, activeShares, createdQuanto, lastModifiedQuanto, netDeposited, unbondingAmount,
        unbondingReadyQuanto, state, pendingShares, pendingAmount, pendingActivationQuanto⟩

instance : LawfulBorsh StakePositionV7 := Borsh.lawful_iso

variable (pos : StakePositionV7)

/-- `settle_position`: shares whose joining quanto has closed become active. -/
def settle (g : GlobalStakingState) : StakePositionV7 :=
  if 0 < (pos.pendingShares : ℕ) ∧ pos.pendingActivationQuanto ≤ g.currentQuanto then
    { pos with
      activeShares := Word.clamp (pos.activeShares + pos.pendingShares)
      pendingShares := 0
      pendingAmount := 0
      pendingActivationQuanto := 0 }
  else
    pos

/-- `position_current_value`: a deposit that is still joining counts at its face. -/
def currentValue (g : GlobalStakingState) : U128 :=
  let pending : ℕ :=
    if 0 < (pos.pendingShares : ℕ) then
      if pos.pendingActivationQuanto ≤ g.currentQuanto then positionValue pos.pendingShares g.index
      else pos.pendingAmount
    else 0
  Word.clamp (positionValue pos.activeShares g.index + pending)

/-- The state of a position by what it still holds. -/
def stateOr (empty : PositionState) : PositionState :=
  if 0 < (pos.activeShares : ℕ) ∨ 0 < (pos.pendingShares : ℕ) then .active else empty

end StakePositionV7

/-- `StakingV7Instruction`. -/
inductive StakingV7Instruction
  | stake (amount : U64)
  | increaseStake (amount : U64)
  | beginUnstake (amount : U64)
  | withdrawUnbonded
  deriving DecidableEq

/-- The decoder of the instruction data. -/
def StakingV7Instruction.decode : Decoder StakingV7Instruction :=
  Decoder.variants
    [ (Borsh.decode : Decoder U64).map stake,
      (Borsh.decode : Decoder U64).map increaseStake,
      (Borsh.decode : Decoder U64).map beginUnstake,
      (Borsh.decode : Decoder Unit).map fun _ => withdrawUnbonded ]

/-! ### Reading and writing -/

/-- `read_global`: a global account that does not decode stops the node. -/
def readGlobal : Exec GlobalStakingState := do
  match ← find stakingGlobalId with
  | none => pure GlobalStakingState.genesis
  | some account => expect (Borsh.fromSlice account.data)

/-- `write_global`. -/
def writeGlobal (g : GlobalStakingState) : Exec Unit := do
  let account := (← get).getOrNew stakingGlobalId stakingProgramId
  put stakingGlobalId { account with data := ← toData g }

variable (k : Pubkey)

/-- `read_position`: whatever decodes as a position. -/
def readPosition : Exec (Option StakePositionV7) := do
  pure ((← find k).bind fun account => Borsh.fromSlice account.data)

/-- `write_position`: whatever account is there becomes the position, without balance. -/
def writePosition (pos : StakePositionV7) : Exec Unit := do
  let account := (← get).getOrNew k stakingProgramId
  put k { account with owner := stakingProgramId, balance := 0, data := ← toData pos }

/-- `credit`: an overflow stops the node. -/
def creditOrPanic (k ownerIfNew : Pubkey) (amount : U64) : Exec Unit := do
  let account := (← get).getOrNew k ownerIfNew
  put k { account with balance := ← expect (Word.checked (account.balance + amount)) }

/-- Takes an amount out of an account that was checked to hold it. -/
def debitExisting (amount : U64) : Exec Unit := do
  let account ← expect (← find k)
  put k { account with balance := ← subU64 account.balance amount }

/-- The balance of an account, zero if there is none. -/
def balanceOrZero : Exec U64 := do
  pure (((← find k).map (·.balance)).getD 0)

/-- The staking totals as an instruction reads them; `none` if they do not decode. -/
def storedGlobal (accounts : Accounts) : Option GlobalStakingState :=
  match accounts.lookup stakingGlobalId with
  | none => some GlobalStakingState.genesis
  | some account => Borsh.fromSlice account.data

theorem storedGlobal_congr {v v' : Accounts}
    (h : v.lookup stakingGlobalId = v'.lookup stakingGlobalId) :
    storedGlobal v = storedGlobal v' := by
  rw [storedGlobal, storedGlobal, h]

/-- The position in an account. -/
def storedPosition (accounts : Accounts) (k : Pubkey) : Option StakePositionV7 :=
  (accounts.lookup k).bind fun account => Borsh.fromSlice account.data

section Rules

variable {accounts : Accounts} {k owner : Pubkey} {amount : U64}

@[simp] theorem wp_readGlobal {Q : GlobalStakingState → Accounts → Prop} :
    Wp readGlobal accounts Q ↔ ∀ g, storedGlobal accounts = some g → Q g accounts := by
  unfold readGlobal storedGlobal
  rw [wp_bind, wp_find]
  cases accounts.lookup stakingGlobalId <;> simp

variable {Q : Unit → Accounts → Prop}

@[simp] theorem wp_writeGlobal {g : GlobalStakingState} :
    Wp (writeGlobal g) accounts Q ↔ ∀ bytes, Borsh.toVec g = some bytes →
      Q () (accounts.insert stakingGlobalId
        { accounts.getOrNew stakingGlobalId stakingProgramId with data := bytes }) := by
  simp [writeGlobal]

@[simp] theorem wp_readPosition {Q : Option StakePositionV7 → Accounts → Prop} :
    Wp (readPosition k) accounts Q ↔ Q (storedPosition accounts k) accounts := by
  simp [readPosition, storedPosition]

@[simp] theorem wp_writePosition {pos : StakePositionV7} :
    Wp (writePosition k pos) accounts Q ↔ ∀ bytes, Borsh.toVec pos = some bytes →
      Q () (accounts.insert k { accounts.getOrNew k stakingProgramId with
        owner := stakingProgramId, balance := 0, data := bytes }) := by
  simp [writePosition]

@[simp] theorem wp_creditOrPanic : Wp (creditOrPanic k owner amount) accounts Q ↔
      ∀ balance : U64, (balance : ℕ) = accounts.balanceOf k + amount →
        Q () (accounts.insert k { accounts.getOrNew k owner with balance := balance }) := by
  simp [creditOrPanic]

@[simp] theorem wp_debitExisting : Wp (debitExisting k amount) accounts Q ↔
      ∀ account, accounts.lookup k = some account →
        ∀ balance : U64, (balance : ℕ) + amount = account.balance →
          Q () (accounts.insert k { account with balance := balance }) := by
  simp [debitExisting]

@[simp] theorem wp_balanceOrZero {Q : U64 → Accounts → Prop} :
    Wp (balanceOrZero k) accounts Q ↔
      Q (((accounts.lookup k).map (·.balance)).getD 0) accounts := by
  simp [balanceOrZero]

@[simp] theorem succeeds_balanceOrZero {Q : U64 → Accounts → Prop} :
    Succeeds (balanceOrZero k) accounts Q ↔
      Q (((accounts.lookup k).map (·.balance)).getD 0) accounts := by
  rw [balanceOrZero, succeeds_bind, succeeds_find, succeeds_pure]

@[simp] theorem succeeds_debitExisting {amount : U64} :
    Succeeds (debitExisting k amount) accounts Q ↔
      ∃ account, accounts.lookup k = some account ∧ ∃ balance : U64,
        (balance : ℕ) + amount = account.balance ∧
          Q () (accounts.insert k { account with balance := balance }) := by
  simp only [debitExisting, succeeds_bind, succeeds_find, succeeds_orThrow, succeeds_put,
    checkedSub_eq_some]

end Rules

/-! ### Instructions -/

namespace StakingV7Program

/-- `add_pending_deposit`: the position after the deposit, and the shares it added. -/
def addPendingDeposit (pos : StakePositionV7) (g : GlobalStakingState) (amount : U64) :
    StakePositionV7 × U128 :=
  let shares := sharesForDeposit amount (advanceStakingIndex g.index g.rateFp)
  ({ pos with
     pendingShares := Word.clamp (pos.pendingShares + shares)
     pendingAmount := Word.clamp (pos.pendingAmount + amount)
     pendingActivationQuanto := Word.clamp (g.currentQuanto + 1)
     netDeposited := Word.clamp (pos.netDeposited + amount) }, shares)

/-- The addresses no position may be opened at. -/
def reserved : List Pubkey :=
  [stakingGlobalId, stakingReserveId, stakingUnbondingPoolId, validatorBondEscrowId,
    validatorUnbondingPoolId, validatorFeePoolId, validatorRegistryAccountId, stakingStatsId,
    stakingProgramId, governanceProgramId, registryAccountId, paramsAccountId,
    stakingRewardsPoolId, loaderProgramId, feeStateAccountId, validatorV7ProgramId,
    treasuryV7ProgramId, treasuryAccountId, adminFeeWallet]

/-- The deposit itself: out of the staker's account, into the reserve and the position. -/
def deposit (staker positionPk : Pubkey) (g : GlobalStakingState) (pos : StakePositionV7)
    (amount : U64) : Exec Unit := do
  debitExisting staker amount
  let (pos, added) := addPendingDeposit pos g amount
  let g := { g with pendingShares := Word.clamp (g.pendingShares + added) }
  creditOrPanic stakingReserveId stakingProgramId amount
  writeGlobal g
  writePosition positionPk pos

/-- The staker has an account with the amount. -/
def checkFunds (staker : Pubkey) (amount : U64) : Exec Unit := do
  let account ← load staker (.accountNotFound staker)
  check (amount ≤ account.balance) .insufficientFunds

/-- The branch of `stake` that adds to a position. -/
def increaseStake (payer staker positionPk : Pubkey) (g : GlobalStakingState)
    (existing : Option StakePositionV7) (amount : U64) : Exec Unit := do
  let pos ← okOr existing (.programError "IncreaseStake requires an existing position")
  check (pos.owner = payer) (.unauthorized "only the position owner can increase it")
  check (pos.state ≠ .closed) (.programError "cannot increase a closed position")
  checkFunds staker amount
  let pos := pos.settle g
  deposit staker positionPk g
    { pos with lastModifiedQuanto := g.currentQuanto, state := .active } amount

/-- The branch of `stake` that opens a position. -/
def openStake (payer staker positionPk : Pubkey) (g : GlobalStakingState)
    (existing : Option StakePositionV7) (amount : U64) : Exec Unit := do
  check (existing = none)
    (.programError "position account already exists - Stake opens a fresh one")
  check (positionPk ≠ payer)
    (.unauthorized "the staking position must be a fresh account, not the payer's wallet")
  check (positionPk ∉ reserved)
    (.unauthorized "the staking position must not be a protocol singleton account")
  let occupied := (← get).getOrNew positionPk systemProgramId
  check ((occupied.balance : ℕ) = 0 ∧ occupied.data = [] ∧ occupied.owner = systemProgramId)
    (.unauthorized "Stake opens a FRESH position — the named account is already in use")
  checkFunds staker amount
  deposit staker positionPk g
    { owner := staker, activeShares := 0, createdQuanto := g.currentQuanto,
      lastModifiedQuanto := g.currentQuanto, netDeposited := 0, unbondingAmount := 0,
      unbondingReadyQuanto := 0, state := .active, pendingShares := 0, pendingAmount := 0,
      pendingActivationQuanto := 0 } amount

/-- `StakingV7Program::stake`. -/
def stake (ix : Instruction) (payer : Pubkey) (amount : U64) (increase : Bool) : Exec Unit := do
  let staker ← named ix 0 "Stake"
  let positionPk ← named ix 1 "Stake"
  let globalPk ← named ix 2 "Stake"
  let reservePk ← named ix 3 "Stake"
  check (globalPk = stakingGlobalId)
    (.unauthorized "Stake must name the canonical global staking account")
  check (reservePk = stakingReserveId)
    (.unauthorized "Stake must name the canonical staking reserve")
  check (staker = payer)
    (.unauthorized "the staking funding account must be the transaction payer")
  check (0 < (amount : ℕ)) (.programError "cannot stake zero")
  let g ← readGlobal
  let existing ← readPosition positionPk
  if increase then
    increaseStake payer staker positionPk g existing amount
  else
    openStake payer staker positionPk g existing amount

/-- What an unstake takes out: the position and the totals after it, and the value taken. -/
def unstakeValue (g : GlobalStakingState) (pos : StakePositionV7) (amount : U64) :
    GlobalStakingState × StakePositionV7 × U64 :=
  let activeValue := positionValue pos.activeShares g.index
  let takeActive := min (amount : ℕ) activeValue
  let sharesToRemove : U128 :=
    if takeActive = activeValue then pos.activeShares
    else min (sharesForDeposit (Word.ofNat takeActive) g.index) pos.activeShares
  let activeRemoved : U64 := Word.ofNat (min (positionValue sharesToRemove g.index : ℕ) takeActive)
  let remaining := (amount : ℕ) - activeRemoved
  -- what the active shares do not cover comes out of the deposits still joining
  let take := min remaining pos.pendingAmount
  let pendingSharesToRemove : U128 :=
    if take = pos.pendingAmount then pos.pendingShares
    else Word.ofNat ((Word.clamp (pos.pendingShares * take) : U128).toNat / pos.pendingAmount)
  let pos := { pos with activeShares := Word.ofNat (pos.activeShares - sharesToRemove) }
  let g := { g with totalShares := Word.ofNat (g.totalShares - sharesToRemove) }
  let (g, pos, pendingRemoved) :=
    if 0 < remaining ∧ 0 < (pos.pendingAmount : ℕ) then
      let pendingAmount : U64 := Word.ofNat (pos.pendingAmount - take)
      ({ g with pendingShares := Word.ofNat (g.pendingShares - pendingSharesToRemove) },
       { pos with
         pendingShares := Word.ofNat (pos.pendingShares - pendingSharesToRemove)
         pendingAmount := pendingAmount
         pendingActivationQuanto :=
           if (pendingAmount : ℕ) = 0 then 0 else pos.pendingActivationQuanto },
       take)
    else
      (g, pos, 0)
  let valueRemoved : U64 := Word.clamp (activeRemoved + pendingRemoved)
  let pos := { pos with
    unbondingAmount := valueRemoved
    unbondingReadyQuanto := Word.clamp (g.currentQuanto + stakingUnbondingQuantos)
    lastModifiedQuanto := g.currentQuanto
    state := pos.stateOr .unbonding }
  (g, pos, valueRemoved)

variable (ix : Instruction)

/-- `StakingV7Program::begin_unstake`. -/
def beginUnstake (payer : Pubkey) (amount : U64) : Exec Unit := do
  let _staker ← named ix 0 "BeginUnstake"
  let positionPk ← named ix 1 "BeginUnstake"
  let globalPk ← named ix 2 "BeginUnstake"
  let reservePk ← named ix 3 "BeginUnstake"
  let unbondingPk ← named ix 4 "BeginUnstake"
  check (globalPk = stakingGlobalId ∧ reservePk = stakingReserveId ∧
      unbondingPk = stakingUnbondingPoolId)
    (.unauthorized "BeginUnstake must name the canonical global/reserve/unbonding accounts")
  let g ← readGlobal
  let pos ← okOr (← readPosition positionPk) (.programError "no such position")
  check (pos.owner = payer) (.unauthorized "only the position owner can unstake")
  check ((pos.unbondingAmount : ℕ) = 0) (.programError
    "this position already has a pending unbonding chunk - withdraw it first")
  check (0 < (amount : ℕ)) (.programError "cannot unstake zero")
  let pos := pos.settle g
  let available : U128 :=
    Word.clamp (positionValue pos.activeShares g.index + pos.pendingAmount)
  check ((amount : ℕ) ≤ available)
    (.programError "cannot unstake more than the position's current value")
  let (g, pos, valueRemoved) := unstakeValue g pos amount
  check (valueRemoved ≤ (← balanceOrZero reservePk))
    (.programError "staking reserve underfunded (invariant violation)")
  debitExisting reservePk valueRemoved
  creditOrPanic unbondingPk stakingProgramId valueRemoved
  writeGlobal g
  writePosition positionPk pos

/-- `StakingV7Program::withdraw_unbonded`. -/
def withdrawUnbonded (payer : Pubkey) : Exec Unit := do
  let staker ← named ix 0 "WithdrawUnbonded"
  let positionPk ← named ix 1 "WithdrawUnbonded"
  let unbondingPk ← named ix 2 "WithdrawUnbonded"
  let globalPk ← okOr ix.accounts[3]?
    (.programError "WithdrawUnbonded requires accounts[3] (the global staking account)")
  check (unbondingPk = stakingUnbondingPoolId)
    (.unauthorized "WithdrawUnbonded must name the canonical unbonding pool")
  check (globalPk = stakingGlobalId)
    (.unauthorized "WithdrawUnbonded must name the canonical global staking account")
  let g ← readGlobal
  let pos ← okOr (← readPosition positionPk) (.programError "no such position")
  check (pos.owner = payer ∧ staker = payer)
    (.unauthorized "only the position owner can withdraw")
  let pos := pos.settle g
  check (0 < (pos.unbondingAmount : ℕ)) (.programError "nothing is unbonding on this position")
  let ready := pos.unbondingReadyQuanto
  let now := g.currentQuanto
  check (ready ≤ now) (.programError s!"still unbonding until quanto {ready} (now {now})")
  let amount := pos.unbondingAmount
  check (amount ≤ (← balanceOrZero unbondingPk))
    (.programError "unbonding pool underfunded (invariant violation)")
  debitExisting unbondingPk amount
  creditOrPanic staker systemProgramId amount
  writePosition positionPk { pos with
    unbondingAmount := 0, unbondingReadyQuanto := 0, lastModifiedQuanto := now,
    state := pos.stateOr .closed }

/-- `StakingV7Program::process`. -/
def process (payer : Pubkey) : Exec Unit := do
  let instr ← okOr (StakingV7Instruction.decode.all ix.data)
    (.programError "bad v7 staking instruction: ")
  match instr with
  | .stake amount => stake ix payer amount false
  | .increaseStake amount => stake ix payer amount true
  | .beginUnstake amount => beginUnstake ix payer amount
  | .withdrawUnbonded => withdrawUnbonded ix payer

end StakingV7Program

/-! ### The close of a quanto -/

/-- `settle_quanto_ex`: raises the index and pays the emission into the reserve; under the
hard cap out of the emission reserve, as far as that goes. -/
def settleQuantoEx (closingQuanto : U64) (hardCap : Bool) : Exec U64 := do
  let g ← readGlobal
  if closingQuanto ≠ g.currentQuanto then
    pure 0
  else
    let targetIndex := advanceStakingIndex g.index g.rateFp
    let budget ← balanceOrZero emissionReserveId
    let (newIndex, emission) :=
      if hardCap then
        indexForBackedEmission g.totalShares g.index targetIndex (Word.ofNat budget)
      else
        (targetIndex, emissionForQuanto g.totalShares g.index targetIndex)
    let g := { g with
      index := newIndex
      lastSettledQuanto := closingQuanto
      currentQuanto := Word.clamp (closingQuanto + 1)
      totalShares := Word.clamp (g.totalShares + g.pendingShares)
      pendingShares := 0 }
    let emission : U64 := Word.clamp emission
    if 0 < (emission : ℕ) then
      if hardCap then
        let account := (← get).getOrNew emissionReserveId stakingProgramId
        put emissionReserveId
          { account with balance := ← expect (checkedSub account.balance emission) }
      creditOrPanic stakingReserveId stakingProgramId emission
    writeGlobal g
    pure emission

end QChain
