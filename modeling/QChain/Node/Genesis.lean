import QChain.Core.Base58
import QChain.Execution.Ledger

/-!
# Genesis

The accounts a network starts from (`seed_genesis`, `qchain-node/src/genesis.rs`) and the
identifier of the network that is to stand for them (`NodeConfig::chain_id`, `config.rs`).
The JSON text of validators and allocations, and the default rate that is computed in
floating point, are parameters.
-/

namespace QChain

open Transact Exec

/-- A validator of the configuration; its socket address is given by its text. -/
structure ValidatorConfig where
  pubkeyBundle : PublicKeyBundle
  addr : Utf8
  stake : U64
  name : Option Utf8
  withdrawalAddress : Option Pubkey
  deriving DecidableEq

/-- `GenesisAllocation`. -/
structure GenesisAllocation where
  address : Pubkey
  balance : U64
  deriving DecidableEq

/-- The settings of `NodeConfig` that genesis or the chain identifier read. -/
structure NodeConfig where
  validators : List ValidatorConfig
  genesis : List GenesisAllocation
  validatorRotation : Bool
  compressedStateTree : Bool
  economicsV7 : Bool
  quantoRateFp : Option U128
  roundsPerQuanto : Option U64
  treasuryAuthority : Option Utf8
  treasuryAmount : Option U64
  treasurySigners : List Utf8
  treasuryThreshold : UInt8
  treasuryTimelockRounds : U64
  treasuryMaxPerReleaseQch : U64
  treasuryMaxPerWindowQch : U64
  treasuryWindowRounds : U64
  treasuryPolicyThreshold : UInt8
  treasurySignersThreshold : UInt8
  treasuryOpExpiryRounds : U64
  adminFeeWallet : Option Utf8
  hardCapSupply : Bool
  supplyCapQch : Option U64
  emissionReserveQch : Option U64
  explicitSchemaVersions : Bool
  governanceGuardians : List Utf8
  governanceGuardianThreshold : UInt8
  deriving DecidableEq

/-- What genesis takes from outside: JSON, and a default computed in floating point. -/
class GenesisFormat where
  /-- `serde_json::to_vec` of validators and allocations. -/
  json : List ValidatorConfig → List GenesisAllocation → List UInt8
  /-- `derive_quanto_rate_fp` at the default target and length of a year. -/
  defaultQuantoRateFp : U128

/-- `DEFAULT_ROUNDS_PER_QUANTO`. -/
def defaultRoundsPerQuanto : U64 := 172800

/-- `MAX_SUPPLY_ATOMS`. -/
def maxSupplyAtoms : U128 := Word.ofNat (100000000 * unitsPerQch)

namespace NodeConfig

variable (c : NodeConfig)

/-- `NodeConfig::rounds_per_quanto`. -/
def roundsPerQuantoOr : U64 := c.roundsPerQuanto.getD defaultRoundsPerQuanto

/-- `NodeConfig::supply_cap_atoms`. -/
def supplyCapAtoms : U128 :=
  match c.supplyCapQch with
  | some qch => Word.ofNat (qch * unitsPerQch)
  | none => maxSupplyAtoms

/-- `NodeConfig::emission_reserve_atoms`. -/
def emissionReserveAtoms : U64 :=
  Word.clamp (c.emissionReserveQch.getD 0 * unitsPerQch)

/-- A text that parses as an address. -/
def parseText (text : Utf8) : Option Pubkey := parseAddress (trim text.bytes)

/-- `NodeConfig::guardian_pubkeys`. -/
def guardianPubkeys : Option (List Pubkey) :=
  c.governanceGuardians.mapM parseText

/-- The treasury of the settings, before its thresholds are checked. -/
def treasuryState (signers : List Pubkey) : TreasuryState :=
  let threshold :=
    if c.treasuryThreshold = 0 then UInt8.ofNat (signers.length / 2 + 1) else c.treasuryThreshold
  { signers := signers
    threshold := threshold
    timelockRounds := c.treasuryTimelockRounds
    maxPerRelease := Word.clamp (c.treasuryMaxPerReleaseQch * unitsPerQch)
    maxPerWindow := Word.clamp (c.treasuryMaxPerWindowQch * unitsPerQch)
    windowRounds := c.treasuryWindowRounds
    windowStartRound := 0
    releasedInWindow := 0
    nextOpId := 0
    pending := []
    policyThreshold :=
      if c.treasuryPolicyThreshold = 0 then threshold else c.treasuryPolicyThreshold
    signersThreshold :=
      if c.treasurySignersThreshold = 0 then threshold else c.treasurySignersThreshold
    opExpiryRounds := c.treasuryOpExpiryRounds }

/-- The checks of `treasury_multisig_state`. -/
def checkTreasury (state : TreasuryState) : Exec Unit := do
  validateSignerSet state.signers state.threshold
  check (¬(0 < (c.treasuryOpExpiryRounds : ℕ) ∧
      c.treasuryOpExpiryRounds ≤ c.treasuryTimelockRounds))
    (.programError <| "treasury_op_expiry_rounds must exceed treasury_timelock_rounds " ++
      "(else an op expires before it can execute)")
  validateThresholds state

/-- `NodeConfig::treasury_multisig_state`: no result is an error, and the inner option says
whether there is a committee. -/
def treasuryMultisigState : Option (Option TreasuryState) :=
  if c.treasurySigners = [] then
    some none
  else do
    let signers ← c.treasurySigners.mapM parseText
    let state := c.treasuryState signers
    match (c.checkTreasury state).run ∅ with
    | .ok _ => some (some state)
    | .error _ => none

variable [GenesisFormat] (c : NodeConfig)

/-- `NodeConfig::quanto_rate_fp`. -/
def quantoRateFpOr : U128 :=
  c.quantoRateFp.getD GenesisFormat.defaultQuantoRateFp

/-! ### The chain identifier -/

/-- The part of the hashed bytes on the treasury. -/
def treasuryBytes : List UInt8 :=
  (match c.treasuryAuthority, c.treasuryAmount with
    | some auth, some amt => asciiBytes "treasury-v7" ++ auth.bytes ++ toLeBytes 8 amt
    | _, _ => []) ++
  (if c.treasurySigners = [] then []
    else asciiBytes "treasury-multisig-v1" ++
      c.treasurySigners.flatMap (fun s => trim s.bytes ++ [0]) ++
      [c.treasuryThreshold] ++ toLeBytes 8 c.treasuryTimelockRounds ++
      toLeBytes 8 c.treasuryMaxPerReleaseQch ++ toLeBytes 8 c.treasuryMaxPerWindowQch ++
      toLeBytes 8 c.treasuryWindowRounds ++
      (if c.treasuryPolicyThreshold ≠ 0 ∨ c.treasurySignersThreshold ≠ 0 ∨
          (c.treasuryOpExpiryRounds : ℕ) ≠ 0 then
        asciiBytes "treasury-tiers-v1" ++ [c.treasuryPolicyThreshold] ++
          [c.treasurySignersThreshold] ++ toLeBytes 8 c.treasuryOpExpiryRounds
        else []))

/-- The part of the hashed bytes on the fee wallet and the hard cap. -/
def capBytes : List UInt8 :=
  (match c.adminFeeWallet with
    | some admin => asciiBytes "admin-fee-wallet-v1" ++ trim admin.bytes
    | none => []) ++
  (if c.hardCapSupply then
    asciiBytes "hard-cap-supply-v1" ++ toLeBytes 16 c.supplyCapAtoms ++
      toLeBytes 8 c.emissionReserveAtoms
    else [])

/-- The part of the hashed bytes that holds in both economies. -/
def commonBytes : List UInt8 :=
  (if c.explicitSchemaVersions then asciiBytes "explicit-schema-versions-v1" else []) ++
  (if c.governanceGuardians = [] then []
    else asciiBytes "governance-guardians-v1" ++
      c.governanceGuardians.flatMap (fun g => trim g.bytes ++ [0]) ++
      [c.governanceGuardianThreshold])

/-- The byte string the chain identifier is the hash of. -/
def chainIdBytes : List UInt8 :=
  GenesisFormat.json c.validators c.genesis ++
  (if c.compressedStateTree then asciiBytes "compressed-state-tree-v1" else []) ++
  (if c.economicsV7 then
    asciiBytes "economics-v7-45-45-10" ++ toLeBytes 16 c.quantoRateFpOr ++
      toLeBytes 8 c.roundsPerQuantoOr ++ c.treasuryBytes ++ c.capBytes
    else []) ++
  c.commonBytes

/-- `NodeConfig::chain_id`. -/
def chainId [Crypto] (c : NodeConfig) : Bytes32 := Crypto.sha3 c.chainIdBytes

/-! ### The seeded accounts -/

/-- `Ledger::credit` of an allocation; an overflow stops the node. -/
def allocate (accounts : Accounts) (alloc : GenesisAllocation) : Option Accounts := do
  let account := accounts.getOrNew alloc.address systemProgramId
  let balance ← Word.checked (account.balance + alloc.balance)
  pure (accounts.insert alloc.address { account with balance := balance })

/-- A wallet of a program with data. -/
def withData (owner : Pubkey) (data : List UInt8) : Account :=
  { Account.newWallet owner with data := data }

variable [Crypto] (c : NodeConfig)

/-- The accounts every network starts with, after the allocations. -/
def seedCommon (accounts : Accounts) : Option Accounts := do
  let stats ← Borsh.toVec (0 : U64)
  let registry ← Borsh.toVec genesisRegistry
  let params ← Borsh.toVec EconomicParams.default
  let emergency ← Borsh.toVec (genesisEmergency (← c.guardianPubkeys) c.governanceGuardianThreshold)
  let pool ← Borsh.toVec (RewardPoolData.mk 0)
  let validators ← Borsh.toVec (ValidatorRegistryData.mk
    (if c.validatorRotation then
      c.validators.map fun v => ⟨v.pubkeyBundle.toAddress, v.pubkeyBundle, v.addr, v.stake, none⟩
      else []))
  pure <| ((((((accounts.insert chainIdAccountId (withData stakingProgramId c.chainId.toBytes)).insert
    stakingStatsId (withData stakingProgramId stats)).insert
    registryAccountId (withData governanceProgramId registry)).insert
    paramsAccountId (withData governanceProgramId params)).insert
    emergencyAccountId (withData governanceProgramId emergency)).insert
    stakingRewardsPoolId (withData stakingProgramId pool)).insert
    validatorRegistryAccountId (withData stakingProgramId validators)

/-- The moniker of the `i`-th founder: its name if that is valid and not taken, and otherwise
the first of the numbered ones that is not taken. -/
def founderMoniker (used : List (List UInt8)) (i : ℕ) (name : Option Utf8) :
    Option (List UInt8) :=
  let named := (name.map fun n => normalizeMoniker n.bytes).filter fun m =>
    monikerIsValid m && !used.contains m
  let chosen := named.getD (asciiBytes s!"founder-{i}")
  let numbered := (List.range used.length).map fun k => asciiBytes s!"founder-{i}-{k + 1}"
  (chosen :: numbered).find? fun m => !used.contains m

/-- The founders of a v7 network as active, bonded validators. -/
def founders : ℕ → List (List UInt8) → List ValidatorConfig → Option (List ValidatorV7Entry)
  | _, _, [] => some []
  | i, used, v :: rest => do
    let moniker ← founderMoniker used i v.name
    let consensusAddr := v.pubkeyBundle.toAddress
    let entry : ValidatorV7Entry :=
      { address := consensusAddr, operatorAddress := consensusAddr,
        withdrawalAddress := v.withdrawalAddress.getD consensusAddr,
        moniker := ← Borsh.ofUtf8 moniker, pubkeyBundle := v.pubkeyBundle, p2pAddress := v.addr,
        bond := validatorBondAtoms, state := .active, registeredQuanto := 0,
        activationQuanto := 0, exitRequestedQuanto := 0, bondReleaseQuanto := 0,
        participationCredits := 0, participationOpportunities := 0,
        consensusKeyExpiryQuanto := 0, consensusKeyRevoked := false,
        retiredConsensusKeys := [], frozenUntilQuanto := 0 }
    pure (entry :: (← founders (i + 1) (moniker :: used) rest))

/-- The treasury account, if there is one. -/
def treasuryAccount : Option (Option Account) := do
  match ← c.treasuryMultisigState, c.treasuryAuthority, c.treasuryAmount with
  | some state, _, some amount => pure (some (← genesisTreasuryAccountMultisig state amount))
  | none, some auth, some amount => do
    let authority ← parseAddress auth.bytes
    pure (some (← genesisTreasuryAccount authority amount))
  | _, _, _ => pure none

/-- The accounts of the v7 economy. -/
def seedV7 (accounts : Accounts) : Option Accounts := do
  let pool := Account.newWallet stakingProgramId
  let global ← Borsh.toVec (GlobalStakingState.genesisWithRate c.quantoRateFpOr)
  let entries ← founders 0 [] c.validators
  let registry ← Borsh.toVec (ValidatorV7Registry.mk entries)
  let escrow : U64 := Word.clamp (validatorBondAtoms * entries.length)
  let accounts := (((((accounts.insert stakingGlobalId (withData stakingProgramId global)).insert
    stakingReserveId pool).insert validatorFeePoolId pool).insert
    stakingUnbondingPoolId pool).insert validatorUnbondingPoolId pool)
  let accounts :=
    if c.hardCapSupply then
      accounts.insert emissionReserveId { pool with balance := c.emissionReserveAtoms }
    else accounts
  let accounts := ((accounts.insert QChain.adminFeeWallet (Account.newWallet systemProgramId)).insert
    validatorRegistryAccountId (withData stakingProgramId registry)).insert
    validatorBondEscrowId { pool with balance := escrow }
  match ← c.treasuryAccount with
  | some treasury => pure (accounts.insert treasuryAccountId treasury)
  | none => pure accounts

/-- `SchemaManifest::canonical`. -/
def canonicalManifest : List (UInt8 × UInt16) :=
  [(1, 1), (2, 1), (3, 1), (4, 4), (5, 1), (6, 1), (7, 1), (8, 2), (9, 1)]

/-- `seed_genesis` from an empty ledger. -/
def seedGenesis : Option Accounts := do
  let accounts ← c.genesis.foldlM allocate ∅
  let accounts ← c.seedCommon accounts
  let accounts ← if c.economicsV7 then c.seedV7 accounts else pure accounts
  if c.explicitSchemaVersions then
    pure (accounts.insert schemaManifestId
      (withData stakingProgramId (← Borsh.toVec canonicalManifest)))
  else
    pure accounts

/-- `admin_fee_wallet_pubkey`, or the built-in wallet. -/
def adminFeeWalletOr : Option Pubkey :=
  match c.adminFeeWallet with
  | none => some QChain.adminFeeWallet
  | some text => parseText text

/-- The settings the node makes its ledger with. -/
def ledgerConfig : Option LedgerConfig := do
  pure
    { economicsV7 := c.economicsV7
      roundsPerQuanto := c.roundsPerQuantoOr
      hardCapSupply := c.economicsV7 && c.hardCapSupply
      adminFeeWallet := ← c.adminFeeWalletOr }

end NodeConfig

end QChain
