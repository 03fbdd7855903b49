import QChain.Execution.Account

/-!
# The staking program

Delegations of the v6 economy (`qchain-execution/src/staking.rs`) and its registry of
validators (`validator_registry.rs`). A stake account holds its principal as balance and, in
its data, who may withdraw it and how much; the reward pool pays by an accumulator of rewards
per unit staked, and the stats account holds the total staked.
-/

namespace QChain

open Account Exec Transact

/-! ### Data -/

/-- `PRECISION`, the fixed-point unit of the reward accumulator. -/
def precision : ℕ := 1000000000000

/-- `RewardPoolData`. -/
structure RewardPoolData where
  accRewardPerShare : U128
  deriving DecidableEq

instance : Borsh RewardPoolData := Borsh.iso RewardPoolData.accRewardPerShare RewardPoolData.mk

instance : LawfulBorsh RewardPoolData := Borsh.lawful_iso

instance : Borsh.FixedSize RewardPoolData 16 := Borsh.fixedSize_iso (β := U128) _ _

/-- `StakeAccountData`: one delegation. -/
structure StakeAccountData where
  owner : Pubkey
  validator : Pubkey
  amount : U64
  rewardDebt : U128
  lockedUntilRound : U64
  bondingUntilRound : U64
  unbondingRequestedAtRound : Option U64
  createdRound : U64
  deriving DecidableEq

namespace StakeAccountData

instance : Borsh StakeAccountData :=
  Borsh.iso
    (fun d => (d.owner, d.validator, d.amount, d.rewardDebt, d.lockedUntilRound,
      d.bondingUntilRound, d.unbondingRequestedAtRound, d.createdRound))
    fun (owner, validator, amount, rewardDebt, lockedUntilRound, bondingUntilRound,
      unbondingRequestedAtRound, createdRound) =>
      ⟨owner, validator, amount, rewardDebt, lockedUntilRound, bondingUntilRound,
        unbondingRequestedAtRound, createdRound⟩

instance : LawfulBorsh StakeAccountData := Borsh.lawful_iso

/-- `StakeAccountDataLegacy`: the format without the round of creation, read as round 0. -/
def decodeLegacy : Decoder StakeAccountData :=
  (Borsh.decode : Decoder (Pubkey × Pubkey × U64 × U128 × U64 × U64 × Option U64)).map
    fun (owner, validator, amount, rewardDebt, lockedUntilRound, bondingUntilRound,
      unbondingRequestedAtRound) =>
      ⟨owner, validator, amount, rewardDebt, lockedUntilRound, bondingUntilRound,
        unbondingRequestedAtRound, 0⟩

/-- `StakeAccountData::read_or_legacy`. -/
def readOrLegacy (data : List UInt8) : Option StakeAccountData :=
  (Borsh.fromSlice data).or (decodeLegacy.all data)

end StakeAccountData

instance : Borsh.MinSize StakeAccountData 113 :=
  Borsh.minSize_iso (β := Pubkey × Pubkey × U64 × U128 × U64 × U64 × Option U64 × U64) _ _

/-- Short data are no delegation. -/
theorem readOrLegacy_eq_none {data : List UInt8} (h : data.length < 105) :
    StakeAccountData.readOrLegacy data = none := by
  rw [StakeAccountData.readOrLegacy, Option.or_eq_none_iff]
  constructor
  · cases hread : (Borsh.fromSlice data : Option StakeAccountData) with
    | none => rfl
    | some stake =>
      have hle : 113 ≤ data.length := Borsh.MinSize.le_length (Borsh.fromSlice_eq_some_iff.1 hread)
      omega
  · cases hread : StakeAccountData.decodeLegacy.all data with
    | none => rfl
    | some stake =>
      have hle : 105 ≤ data.length := Borsh.le_length_of_map_all hread
      omega

/-- `MIN_VALIDATOR_STAKE`. -/
def minValidatorStake : U64 := 10000000

/-- `MAX_REGISTERED_VALIDATORS`. -/
def maxRegisteredValidators : ℕ := 1000

/-- `MAX_VALIDATOR_ADDRESS_LEN`. -/
def maxValidatorAddressLen : ℕ := 128

/-- `RegisteredValidator`, an entry of the v6 registry. -/
structure RegisteredValidator where
  validator : Pubkey
  pubkeyBundle : PublicKeyBundle
  address : Utf8
  stake : U64
  selfStakeAccount : Option Pubkey
  deriving DecidableEq

instance : Borsh RegisteredValidator :=
  Borsh.iso (fun v => (v.validator, v.pubkeyBundle, v.address, v.stake, v.selfStakeAccount))
    fun (validator, pubkeyBundle, address, stake, selfStakeAccount) =>
      ⟨validator, pubkeyBundle, address, stake, selfStakeAccount⟩

/-- `ValidatorRegistryData`. -/
structure ValidatorRegistryData where
  validators : List RegisteredValidator
  deriving DecidableEq

namespace ValidatorRegistryData

instance : Borsh ValidatorRegistryData := Borsh.iso ValidatorRegistryData.validators mk

/-- `ValidatorRegistryData::position_of`. -/
def positionOf (registry : ValidatorRegistryData) (validator : Pubkey) : Option ℕ :=
  registry.validators.findIdx? fun v => v.validator = validator

end ValidatorRegistryData

/-! ### Evidence of equivocation -/

/-- The decoder of a vertex, whose round is a `u64`. -/
def decodeVertex : Decoder Vertex :=
  (Borsh.decode : Decoder (U64 × Pubkey × List (UInt8 × Digest) × List Digest)).map
    fun (round, author, batchDigests, parents) => ⟨round, author, batchDigests, parents⟩

/-- The decoder of evidence. -/
def EquivocationEvidence.decode : Decoder EquivocationEvidence :=
  (decodeVertex.pair <| (Borsh.decode : Decoder MultiSignature).pair <|
    decodeVertex.pair (Borsh.decode : Decoder (MultiSignature × PublicKeyBundle))).map
    fun (vertexA, signatureA, vertexB, signatureB, authorBundle) =>
      ⟨vertexA, signatureA, vertexB, signatureB, authorBundle⟩

/-- `read_chain_id`. -/
def readChainId : Exec Bytes32 := do
  let account ← load chainIdAccountId
    (.programError "the chain-id singleton is not in this instruction's accounts (#187)")
  check (account.data.length = 32)
    (.programError "the chain-id singleton must hold exactly 32 bytes")
  pure (Bytes32.ofBytes account.data)

/-! ### Instructions -/

/-- `SELF_STAKE_UNBONDING_ROUNDS`. -/
def selfStakeUnbondingRounds : ℕ := 100

/-- `MINIMUM_BONDING_ROUNDS`. -/
def minimumBondingRounds : ℕ := 100

/-- `StakingInstruction`. -/
inductive StakingInstruction
  | delegate (validator : Pubkey) (amount : U64)
  | undelegate
  | claimReward
  | reportEquivocation (evidence : EquivocationEvidence)
  | registerValidator (pubkeyBundle : PublicKeyBundle) (address : Utf8)
  | unregisterValidator
  deriving DecidableEq

/-- The decoder of the instruction data. -/
def StakingInstruction.decode : Decoder StakingInstruction :=
  Decoder.variants
    [ (Borsh.decode : Decoder (Pubkey × U64)).map fun (validator, amount) =>
        delegate validator amount,
      (Borsh.decode : Decoder Unit).map fun _ => undelegate,
      (Borsh.decode : Decoder Unit).map fun _ => claimReward,
      EquivocationEvidence.decode.map reportEquivocation,
      (Borsh.decode : Decoder (PublicKeyBundle × Utf8)).map fun (pubkeyBundle, address) =>
        registerValidator pubkeyBundle address,
      (Borsh.decode : Decoder Unit).map fun _ => unregisterValidator ]

/-- `pending_reward`. -/
def pendingReward (amount : U64) (rewardDebt accRewardPerShare : U128) : U64 :=
  let accrued := (Word.clamp (amount * accRewardPerShare) : U128).toNat / precision
  Word.clamp (accrued - rewardDebt)

/-- `settled_reward_debt`. -/
def settledRewardDebt (amount : U64) (accRewardPerShare : U128) : U128 :=
  Word.ofNat ((Word.clamp (amount * accRewardPerShare) : U128).toNat / precision)

variable (account : Account)

/-- `read_stats`. -/
def readStats : Exec U64 :=
  okOr (Borsh.fromSlice account.data) (.programError "corrupt staking stats: ")

/-- `read_pool`. -/
def readPool : Exec RewardPoolData :=
  okOr (Borsh.fromSlice account.data) (.programError "corrupt reward pool: ")

/-- The accumulator of the reward pool, zero where there is no pool. -/
def poolAccumulator (poolPk : Pubkey) : Exec U128 := do
  match ← find poolPk with
  | some pool => pure (← readPool pool).accRewardPerShare
  | none => pure 0

/-- `StakeAccountData::read_or_legacy` on an account. -/
def readStake : Exec StakeAccountData :=
  okOr (StakeAccountData.readOrLegacy account.data) (.programError "corrupt stake account: ")

/-- The part of `accrue_reward_pool` after the total of stakes has been read. -/
def accrueShare (poolPk : Pubkey) (totalStaked poolShare : U64) : Exec Bool := do
  if (totalStaked : ℕ) = 0 then
    pure false
  else
    let poolAccount := ((← get).lookup poolPk).getD
      { newWallet stakingProgramId with
        data := (Borsh.toVec (RewardPoolData.mk 0)).getD [] }
    let pool ← readPool poolAccount
    let perShare : U128 ← checkedWord (poolShare * precision)
    let acc : U128 ← checkedWord (pool.accRewardPerShare + perShare / totalStaked)
    let data ← toData (RewardPoolData.mk acc)
    let balance ← addU64 poolAccount.balance poolShare
    put poolPk { poolAccount with data := data, balance := balance }
    pure true

/-- `accrue_reward_pool`: a share of the fees for those who stake; `false` if nobody does. -/
def accrueRewardPool (poolPk statsPk : Pubkey) (poolShare : U64) : Exec Bool := do
  if (poolShare : ℕ) = 0 then
    pure true
  else
    let totalStaked ← match ← find statsPk with
      | some stats => readStats stats
      | none => pure 0
    accrueShare poolPk totalStaked poolShare

/-- The stake in an account. -/
def storedStake (accounts : Accounts) (k : Pubkey) : Option StakeAccountData :=
  (accounts.lookup k).bind fun account => StakeAccountData.readOrLegacy account.data

section Rules

variable {accounts : Accounts} {k : Pubkey} {account : Account}

theorem storedStake_of_lookup {stake : StakeAccountData}
    (hlookup : accounts.lookup k = some account)
    (hread : StakeAccountData.readOrLegacy account.data = some stake) :
    storedStake accounts k = some stake := by
  rw [storedStake, hlookup]
  exact hread

@[simp] theorem wp_readStats {Q : U64 → Accounts → Prop} :
    Wp (readStats account) accounts Q ↔
      ∀ total, Borsh.fromSlice account.data = some total → Q total accounts := by
  simp [readStats]

@[simp] theorem wp_readPool {Q : RewardPoolData → Accounts → Prop} :
    Wp (readPool account) accounts Q ↔
      ∀ pool, Borsh.fromSlice account.data = some pool → Q pool accounts := by
  simp [readPool]

@[simp] theorem wp_readStake {Q : StakeAccountData → Accounts → Prop} :
    Wp (readStake account) accounts Q ↔
      ∀ stake, StakeAccountData.readOrLegacy account.data = some stake → Q stake accounts := by
  simp [readStake]

/-- Only the balance and the data of the pool change, and only if anyone stakes. -/
theorem wp_accrueShare {poolPk : Pubkey} {totalStaked poolShare : U64} :
    Wp (accrueShare poolPk totalStaked poolShare) accounts fun paid accounts' =>
      paid = true → 0 < (totalStaked : ℕ) ∧ ∃ (balance : U64) (bytes : List UInt8),
        accounts.balanceOf poolPk ≤ balance ∧
        accounts' = accounts.insert poolPk { accounts.getOrNew poolPk stakingProgramId with
          balance := balance, data := bytes } := by
  unfold accrueShare
  rw [wp_ite, wp_pure]
  refine ⟨fun _ hfalse => absurd hfalse (by decide), fun hpos => ?_⟩
  rw [wp_bind, wp_get]
  have hpool : ∀ (balance : U64) (bytes : List UInt8),
      { (accounts.lookup poolPk).getD { newWallet stakingProgramId with
          data := (Borsh.toVec (RewardPoolData.mk 0)).getD [] } with
        data := bytes, balance := balance } =
      { accounts.getOrNew poolPk stakingProgramId with balance := balance, data := bytes } := by
    intro balance bytes
    rw [Accounts.getOrNew]
    cases accounts.lookup poolPk <;> rfl
  simp only [wp_steps, wp_readPool, wp_put]
  intro _ _ _ _ _ _ bytes _ balance hbalance _
  refine ⟨Nat.pos_of_ne_zero hpos, balance, bytes, ?_, by rw [hpool]⟩
  rw [Word.checked_eq_some.1 hbalance, ← Accounts.toNat_balance]
  cases accounts.lookup poolPk <;> exact Nat.le_add_right _ _

/-- A share of the fees changes nothing but the balance and the data of the pool, and those only
if anyone stakes. -/
theorem wp_accrueRewardPool {poolPk statsPk : Pubkey} {poolShare : U64} :
    Wp (accrueRewardPool poolPk statsPk poolShare) accounts fun paid accounts' =>
      paid = true → accounts' = accounts ∨ ∃ (balance : U64) (bytes : List UInt8),
        accounts.balanceOf poolPk ≤ balance ∧
        accounts' = accounts.insert poolPk { accounts.getOrNew poolPk stakingProgramId with
          balance := balance, data := bytes } := by
  unfold accrueRewardPool
  rw [wp_ite, wp_pure]
  refine ⟨fun _ _ => .inl rfl, fun _ => ?_⟩
  rw [wp_bind, wp_find]
  split
  · rw [wp_bind, wp_readStats]
    intro total _
    exact wp_accrueShare.mono fun _ _ h hpaid => .inr (h hpaid).2
  · rw [wp_bind, wp_pure]
    exact wp_accrueShare.mono fun _ _ h hpaid => .inr (h hpaid).2

theorem wp_poolAccumulator {Q : U128 → Accounts → Prop} (h : ∀ acc, Q acc accounts) :
    Wp (poolAccumulator k) accounts Q := by
  rw [poolAccumulator, wp_bind, wp_find]
  cases accounts.lookup k with
  | none => exact (wp_pure _).2 (h 0)
  | some account =>
    simp only [wp_rules, wp_readPool]
    exact fun pool _ => h _

end Rules

namespace StakingProgram

/-- Adds to or subtracts from the total of the stats account. -/
def updateStats (statsPk : Pubkey) (stats : Account) (total : Exec U64) : Exec Unit := do
  let data ← toData (← total)
  put statsPk { stats with data := data }

/-- `StakingInstruction::Delegate`: opens a stake account at an address without account. -/
def delegate (ix : Instruction) (payer : Pubkey) (round : U64) (validator : Pubkey)
    (amount : U64) : Exec Unit := do
  let staker ← named ix 0 "Delegate"
  let stakePk ← named ix 1 "Delegate"
  let statsPk ← named ix 2 "Delegate"
  let poolPk ← named ix 3 "Delegate"
  check (statsPk = stakingStatsId)
    (.unauthorized "Delegate must name the canonical staking-stats account")
  check (poolPk = stakingRewardsPoolId)
    (.unauthorized "Delegate must name the canonical reward pool")
  check (staker = payer)
    (.unauthorized "Delegate's funding account must be the transaction payer")
  check ((← find stakePk) = none)
    (.programError "stake account already exists - Delegate always opens a fresh position")
  let stakerAccount ← load staker (.accountNotFound staker)
  check (amount ≤ stakerAccount.balance) .insufficientFunds
  put staker { stakerAccount with balance := ← subU64 stakerAccount.balance amount }
  let poolAcc ← poolAccumulator poolPk
  let bondingUntilRound ← expect (Word.checked (round + minimumBondingRounds))
  let data ← toData
    ({ owner := staker, validator := validator, amount := amount,
       rewardDebt := settledRewardDebt amount poolAcc, lockedUntilRound := 0,
       bondingUntilRound := bondingUntilRound, unbondingRequestedAtRound := none,
       createdRound := round } : StakeAccountData)
  put stakePk { newWallet stakingProgramId with balance := amount, data := data }
  let stats := ((← get).lookup statsPk).getD
    { newWallet stakingProgramId with data := (Borsh.toVec (0 : U64)).getD [] }
  updateStats statsPk stats do
    addU64 (← readStats stats) amount

/-- A validator's own stake is paid out only after the unbonding rounds. -/
def checkUnbonded (data : StakeAccountData) (round : U64) : Exec Unit := do
  match data.unbondingRequestedAtRound with
  | some requestedRound =>
    if data.owner = data.validator then
      let unbondedAt : U64 ← expect (Word.checked (requestedRound + selfStakeUnbondingRounds))
      check (unbondedAt ≤ round) (.programError <|
        s!"this self-stake position is still unbonding until round {unbondedAt} - " ++
        "cannot withdraw until then")
  | none => pure ()

/-- A reward is taken out of the pool. -/
def takeReward (poolPk : Pubkey) (reward : U64) : Exec Unit := do
  if 0 < (reward : ℕ) then
    let poolAccount ← load poolPk (.accountNotFound poolPk)
    put poolPk { poolAccount with balance := ← subU64 poolAccount.balance reward }

/-- The payout of principal and pending reward. -/
def payOut (payer stakePk statsPk poolPk : Pubkey) (stakeAccount : Account)
    (data : StakeAccountData) : Exec Unit := do
  let amount := data.amount
  let reward := pendingReward amount data.rewardDebt (← poolAccumulator poolPk)
  let bytes ← toData { data with amount := 0, rewardDebt := 0 }
  put stakePk { stakeAccount with balance := 0, data := bytes }
  takeReward poolPk reward
  credit payer systemProgramId (← addU64 amount reward)
  let stats ← load statsPk (.accountNotFound statsPk)
  updateStats statsPk stats do
    subU64 (← readStats stats) amount

/-- `StakingInstruction::Undelegate`: pays out principal and pending reward. A validator's own
stake is first announced, and paid out after the unbonding rounds. -/
def undelegate (ix : Instruction) (payer : Pubkey) (round : U64) : Exec Unit := do
  let stakePk ← named ix 0 "Undelegate"
  let statsPk ← named ix 1 "Undelegate"
  let poolPk ← named ix 2 "Undelegate"
  check (statsPk = stakingStatsId)
    (.unauthorized "Undelegate must name the canonical staking-stats account")
  check (poolPk = stakingRewardsPoolId)
    (.unauthorized "Undelegate must name the canonical reward pool")
  let stakeAccount ← load stakePk (.accountNotFound stakePk)
  let data ← readStake stakeAccount
  check (data.owner = payer)
    (.unauthorized "Undelegate must be signed by the stake account's owner")
  let lockedUntil := data.lockedUntilRound
  check (lockedUntil ≤ round) (.programError <|
    s!"this position voted on a proposal still deciding until round {lockedUntil} - " ++
      "cannot undelegate until then")
  let bondingUntil := data.bondingUntilRound
  check (bondingUntil ≤ round) (.programError <|
    s!"this position is still in its minimum bonding period until round {bondingUntil} - " ++
      "cannot undelegate until then")
  if data.owner = data.validator ∧ data.unbondingRequestedAtRound = none then
    let bytes ← toData { data with unbondingRequestedAtRound := some round }
    put stakePk { stakeAccount with data := bytes }
  else
    checkUnbonded data round
    payOut payer stakePk statsPk poolPk stakeAccount data

/-- `StakingInstruction::ClaimReward`. -/
def claimReward (ix : Instruction) (payer : Pubkey) : Exec Unit := do
  let stakePk ← named ix 0 "ClaimReward"
  let poolPk ← named ix 1 "ClaimReward"
  check (poolPk = stakingRewardsPoolId)
    (.unauthorized "ClaimReward must name the canonical reward pool")
  let stakeAccount ← load stakePk (.accountNotFound stakePk)
  let data ← readStake stakeAccount
  check (data.owner = payer)
    (.unauthorized "ClaimReward must be signed by the stake account's owner")
  let pool ← readPool (← load poolPk (.accountNotFound poolPk))
  let reward := pendingReward data.amount data.rewardDebt pool.accRewardPerShare
  let bytes ← toData
    { data with rewardDebt := settledRewardDebt data.amount pool.accRewardPerShare }
  put stakePk { stakeAccount with data := bytes }
  if 0 < (reward : ℕ) then
    let poolAccount ← expect (← find poolPk)
    put poolPk { poolAccount with balance := ← subU64 poolAccount.balance reward }
    credit payer systemProgramId reward

variable [Crypto]

/-- The checks on evidence shared by both staking economies: two different vertices of one
round and author, both signed by the author. -/
def checkEvidence (chainId : Bytes32) (evidence : EquivocationEvidence) : Exec Unit := do
  check (evidence.authorBundle.toAddress = evidence.vertexA.author)
    (.programError "author_bundle does not match the accused validator's address")
  check (verifyVertexVote evidence.authorBundle chainId evidence.vertexA.digest
      evidence.signatureA = true)
    (.programError "evidence signature_a does not verify")
  check (verifyVertexVote evidence.authorBundle chainId evidence.vertexB.digest
      evidence.signatureB = true)
    (.programError "evidence signature_b does not verify")

variable (ix : Instruction)

/-- `StakingInstruction::ReportEquivocation`: burns the whole self-stake of the author. -/
def reportEquivocation (evidence : EquivocationEvidence) : Exec Unit := do
  let stakePk ← named ix 0 "ReportEquivocation"
  check (chainIdAccountId ∈ ix.accounts)
    (.programError "ReportEquivocation must name the chain-id singleton (#187)")
  let chainId ← readChainId
  check (evidence.vertexA.round = evidence.vertexB.round ∧
      evidence.vertexA.author = evidence.vertexB.author)
    (.programError "evidence must reference the same (round, author)")
  let author := evidence.vertexA.author
  check (evidence.vertexA.digest ≠ evidence.vertexB.digest)
    (.programError "evidence vertices are identical - not a conflict")
  checkEvidence chainId evidence
  let stakeAccount ← load stakePk (.accountNotFound stakePk)
  let data ← readStake stakeAccount
  check (data.owner = author ∧ data.validator = author)
    (.unauthorized <| "the named stake account is not the accused validator's own self-stake - " ++
      "delegators can't be slashed for a validator's misbehavior")
  check (0 < (data.amount : ℕ))
    (.programError "nothing to slash - this self-stake position is already empty")
  let bytes ← toData { data with amount := 0, rewardDebt := 0 }
  put stakePk { stakeAccount with balance := 0, data := bytes }
  -- the stats account is only brought up to date if the instruction names it
  if stakingStatsId ∈ ix.accounts then
    let stats ← load stakingStatsId (.accountNotFound stakingStatsId)
    updateStats stakingStatsId stats do
      subU64 (← readStats stats) data.amount

/-- `ValidatorRegistryData::try_read`. -/
def readRegistry (account : Account) : Exec ValidatorRegistryData :=
  okOr (Borsh.fromSlice account.data) (.programError "corrupt validator registry: ")

/-- `StakingInstruction::RegisterValidator`. -/
def registerValidator (payer : Pubkey) (pubkeyBundle : PublicKeyBundle)
    (address : Utf8) : Exec Unit := do
  let validator ← named ix 0 "RegisterValidator"
  let registryPk ← named ix 1 "RegisterValidator"
  let stakePk ← named ix 2 "RegisterValidator"
  check (validator = payer)
    (.unauthorized "RegisterValidator's validator account must be the transaction payer")
  check (pubkeyBundle.toAddress = validator)
    (.programError "pubkey_bundle does not match the validator's address")
  check (address.bytes ≠ [] ∧ address.bytes.length ≤ maxValidatorAddressLen)
    (.programError s!"validator address must be 1..={maxValidatorAddressLen} bytes")
  check (registryPk = validatorRegistryAccountId)
    (.unauthorized "RegisterValidator's accounts[1] must be the canonical validator registry")
  let stakeAccount ← load stakePk (.accountNotFound stakePk)
  check (stakeAccount.owner = stakingProgramId)
    (.unauthorized "RegisterValidator's accounts[2] must be a staking-program-owned self-stake")
  let stakeData ← readStake stakeAccount
  check (stakeData.owner = validator ∧ stakeData.validator = validator)
    (.unauthorized <| "RegisterValidator's accounts[2] must be the validator's own self-stake " ++
      "(owner == validator == payer)")
  let amount := stakeData.amount
  check (minValidatorStake ≤ amount)
    (.programError s!"self-stake {amount} is below the minimum validator stake {minValidatorStake}")
  let registryAccount ← load registryPk (.accountNotFound registryPk)
  let registry ← readRegistry registryAccount
  let entry : RegisteredValidator := ⟨validator, pubkeyBundle, address, amount, some stakePk⟩
  let validators ← match registry.positionOf validator with
    | some idx => pure (registry.validators.set idx entry)
    | none => do
      check (registry.validators.length < maxRegisteredValidators)
        (.programError "validator registry is full")
      pure (registry.validators ++ [entry])
  let bytes ← toData (ValidatorRegistryData.mk validators)
  put registryPk { registryAccount with data := bytes }

/-- `StakingInstruction::UnregisterValidator`. -/
def unregisterValidator (payer : Pubkey) : Exec Unit := do
  let validator ← named ix 0 "UnregisterValidator"
  let registryPk ← named ix 1 "UnregisterValidator"
  check (validator = payer)
    (.unauthorized "UnregisterValidator's validator account must be the transaction payer")
  check (registryPk = validatorRegistryAccountId)
    (.unauthorized "UnregisterValidator's accounts[1] must be the canonical validator registry")
  let registryAccount ← load registryPk (.accountNotFound registryPk)
  let registry ← readRegistry registryAccount
  let idx ← okOr (registry.positionOf validator)
    (.programError "caller is not registered as a validator")
  let bytes ← toData (ValidatorRegistryData.mk (registry.validators.eraseIdx idx))
  put registryPk { registryAccount with data := bytes }

/-- `StakingProgram::process`. -/
def process (payer : Pubkey) (round : U64) : Exec Unit := do
  let instr ← okOr (StakingInstruction.decode.all ix.data) (.programError "bad instruction data: ")
  match instr with
  | .delegate validator amount => delegate ix payer round validator amount
  | .undelegate => undelegate ix payer round
  | .claimReward => claimReward ix payer
  | .reportEquivocation evidence => reportEquivocation ix evidence
  | .registerValidator pubkeyBundle address => registerValidator ix payer pubkeyBundle address
  | .unregisterValidator => unregisterValidator ix payer

end StakingProgram

end QChain
