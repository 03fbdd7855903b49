import QChain.Execution.Params
import QChain.Execution.Staking

/-!
# The governance program

Proposals to change the algorithm registry or the economic parameters, decided by stake
(`qchain-governance/src/lib.rs`, `qchain-execution/src/governance.rs`). A proposal is created
at an address derived from its proposer, collects votes of stake accounts, is finalized when
its voting period is over, and is executed after a time-lock if it passed.
-/

namespace QChain

open Transact Exec

/-! ### The algorithm registry -/

/-- `AlgorithmStatus`. -/
inductive AlgorithmStatus
  | active
  | deprecated (retirementEpoch : U64)
  | retired
  deriving DecidableEq

namespace AlgorithmStatus

/-- The tag of a status. -/
def tag : AlgorithmStatus → UInt8
  | active => 0
  | deprecated _ => 1
  | retired => 2

/-- The payload of a status. -/
def payload : AlgorithmStatus → Option (List UInt8)
  | active => Borsh.encode ()
  | deprecated retirementEpoch => Borsh.encode retirementEpoch
  | retired => Borsh.encode ()

/-- The decoder of the payload behind a tag. -/
def variant (t : UInt8) : Decoder AlgorithmStatus :=
  if t = 0 then (Borsh.decode : Decoder Unit).map fun _ => active
  else if t = 1 then (Borsh.decode : Decoder U64).map deprecated
  else if t = 2 then (Borsh.decode : Decoder Unit).map fun _ => retired
  else fun _ => none

instance : Borsh AlgorithmStatus := Borsh.tagged tag payload variant

instance : LawfulBorsh AlgorithmStatus := by
  apply Borsh.lawful_tagged
  · intro a front rest h
    cases a <;> simp [variant, tag, Decoder.map, LawfulBorsh.decode_encode rest h]
  · intro t a bytes rest h
    unfold variant at h
    split_ifs at h with h0 h1 h2
    all_goals
      obtain ⟨p, hp, rfl⟩ := Decoder.map_eq_some.1 h
      exact ⟨by subst t; rfl, LawfulBorsh.encode_decode hp⟩

end AlgorithmStatus

/-- `RegistryEntry`, whose lengths are `usize`. -/
structure RegistryEntry where
  id : AlgorithmId
  name : Utf8
  pubkeyLen : U64
  maxSigLen : U64
  status : AlgorithmStatus
  activationEpoch : U64
  deriving DecidableEq

instance : Borsh RegistryEntry :=
  Borsh.iso (fun e => (e.id, e.name, e.pubkeyLen, e.maxSigLen, e.status, e.activationEpoch))
    fun (id, name, pubkeyLen, maxSigLen, status, activationEpoch) =>
      ⟨id, name, pubkeyLen, maxSigLen, status, activationEpoch⟩

instance : LawfulBorsh RegistryEntry := Borsh.lawful_iso

/-- `genesis_registry`. -/
def genesisRegistry : List RegistryEntry :=
  [ ⟨algorithmEd25519, ⟨asciiBytes "Ed25519", by decide +kernel⟩, 32, 64, .active, 0⟩,
    ⟨algorithmMlDsa65, ⟨asciiBytes "ML-DSA-65", by decide +kernel⟩, 1952, 3309, .active, 0⟩ ]

/-! ### Proposals -/

/-- `RiskTier`. -/
inductive RiskTier
  | low
  | economic
  | registry
  deriving DecidableEq

/-- `QuorumRule`. -/
structure QuorumRule where
  minParticipationBps : ℕ
  approvalThresholdBps : ℕ
  votingPeriodRounds : ℕ
  timelockRounds : ℕ

/-- `quorum_rule`. -/
def quorumRule : RiskTier → QuorumRule
  | .low => ⟨1000, 5001, 100, 0⟩
  | .economic => ⟨3000, 6667, 150, 120⟩
  | .registry => ⟨2500, 6667, 200, 100⟩

/-- `ProposalAction`. -/
inductive ProposalAction
  | activateAlgorithm (entry : RegistryEntry)
  | deprecateAlgorithm (id : AlgorithmId) (retirementRound : U64)
  | retireAlgorithm (id : AlgorithmId)
  | setBaseFeePerByte (v : U64)
  | setDustThreshold (v : U64)
  | setGasPricePerFuel (v : U64)
  | setStakingCommissionBps (v : UInt16)
  | setEmissionApr (v : UInt16)
  deriving DecidableEq

namespace ProposalAction

/-- The tag of an action. -/
def tag : ProposalAction → UInt8
  | activateAlgorithm _ => 0
  | deprecateAlgorithm _ _ => 1
  | retireAlgorithm _ => 2
  | setBaseFeePerByte _ => 3
  | setDustThreshold _ => 4
  | setGasPricePerFuel _ => 5
  | setStakingCommissionBps _ => 6
  | setEmissionApr _ => 7

/-- The payload of an action. -/
def payload : ProposalAction → Option (List UInt8)
  | activateAlgorithm entry => Borsh.encode entry
  | deprecateAlgorithm id retirementRound => Borsh.encode (id, retirementRound)
  | retireAlgorithm id => Borsh.encode id
  | setBaseFeePerByte v => Borsh.encode v
  | setDustThreshold v => Borsh.encode v
  | setGasPricePerFuel v => Borsh.encode v
  | setStakingCommissionBps v => Borsh.encode v
  | setEmissionApr v => Borsh.encode v

/-- The decoder of the payload behind a tag. -/
def variant (t : UInt8) : Decoder ProposalAction :=
  if t = 0 then (Borsh.decode : Decoder RegistryEntry).map activateAlgorithm
  else if t = 1 then (Borsh.decode : Decoder (AlgorithmId × U64)).map fun (id, retirementRound) =>
    deprecateAlgorithm id retirementRound
  else if t = 2 then (Borsh.decode : Decoder AlgorithmId).map retireAlgorithm
  else if t = 3 then (Borsh.decode : Decoder U64).map setBaseFeePerByte
  else if t = 4 then (Borsh.decode : Decoder U64).map setDustThreshold
  else if t = 5 then (Borsh.decode : Decoder U64).map setGasPricePerFuel
  else if t = 6 then (Borsh.decode : Decoder UInt16).map setStakingCommissionBps
  else if t = 7 then (Borsh.decode : Decoder UInt16).map setEmissionApr
  else fun _ => none

instance : Borsh ProposalAction := Borsh.tagged tag payload variant

instance : LawfulBorsh ProposalAction := by
  apply Borsh.lawful_tagged
  · intro a front rest h
    cases a <;> simp [variant, tag, Decoder.map, LawfulBorsh.decode_encode rest h]
  · intro t a bytes rest h
    unfold variant at h
    split_ifs at h with h0 h1 h2 h3 h4 h5 h6 h7
    all_goals
      obtain ⟨p, hp, rfl⟩ := Decoder.map_eq_some.1 h
      exact ⟨by subst t; rfl, LawfulBorsh.encode_decode hp⟩

/-- `ProposalAction::risk_tier`. -/
def riskTier : ProposalAction → RiskTier
  | activateAlgorithm _ | deprecateAlgorithm _ _ | retireAlgorithm _ => .registry
  | setBaseFeePerByte _ | setDustThreshold _ | setGasPricePerFuel _ | setStakingCommissionBps _
  | setEmissionApr _ => .economic

end ProposalAction

/-- `VoteChoice`. -/
inductive VoteChoice
  | yes
  | no
  | abstain
  deriving DecidableEq

/-- `ProposalStatus`. -/
inductive ProposalStatus
  | voting
  | passed
  | rejected
  | executed
  deriving DecidableEq

namespace ProposalStatus

/-- The tag of a status. -/
def tag : ProposalStatus → UInt8
  | voting => 0
  | passed => 1
  | rejected => 2
  | executed => 3

instance : Borsh ProposalStatus := Borsh.ofTags tag [voting, passed, rejected, executed]

instance : LawfulBorsh ProposalStatus :=
  Borsh.lawful_ofTags (fun a => by cases a <;> rfl) rfl

end ProposalStatus

/-- `Proposal`. -/
structure Proposal where
  id : U64
  proposer : Pubkey
  action : ProposalAction
  createdRound : U64
  votingEndsRound : U64
  snapshotTotalStaked : U64
  yesStake : U64
  noStake : U64
  abstainStake : U64
  votedStakeAccounts : List Pubkey
  status : ProposalStatus
  passedRound : Option U64
  deposit : U64
  deriving DecidableEq

/-- `MAX_PROPOSAL_VOTES`. -/
def maxProposalVotes : ℕ := 100000

namespace Proposal

instance : Borsh Proposal :=
  Borsh.iso
    (fun p => (p.id, p.proposer, p.action, p.createdRound, p.votingEndsRound,
      p.snapshotTotalStaked, p.yesStake, p.noStake, p.abstainStake, p.votedStakeAccounts,
      p.status, p.passedRound, p.deposit))
    fun (id, proposer, action, createdRound, votingEndsRound, snapshotTotalStaked, yesStake,
      noStake, abstainStake, votedStakeAccounts, status, passedRound, deposit) =>
      ⟨id, proposer, action, createdRound, votingEndsRound, snapshotTotalStaked, yesStake,
        noStake, abstainStake, votedStakeAccounts, status, passedRound, deposit⟩

instance : LawfulBorsh Proposal := Borsh.lawful_iso

/-- `ProposalV0`: the format without deposit. -/
def decodeLegacy : Decoder Proposal :=
  (Borsh.decode : Decoder (U64 × Pubkey × ProposalAction × U64 × U64 × U64 × U64 × U64 × U64 ×
    List Pubkey × ProposalStatus × Option U64)).map
    fun (id, proposer, action, createdRound, votingEndsRound, snapshotTotalStaked, yesStake,
      noStake, abstainStake, votedStakeAccounts, status, passedRound) =>
      ⟨id, proposer, action, createdRound, votingEndsRound, snapshotTotalStaked, yesStake,
        noStake, abstainStake, votedStakeAccounts, status, passedRound, 0⟩

/-- `Proposal::read_or_legacy`. -/
def readOrLegacy (data : List UInt8) : Option Proposal :=
  (Borsh.fromSlice data).or (decodeLegacy.all data)

variable (p : Proposal)

/-- The rule of the proposal's tier. -/
def rule : QuorumRule := quorumRule p.action.riskTier

/-- The stake that took part, at most the snapshot, in basis points of the snapshot. -/
def participationBps : ℕ :=
  let voted := min ((p.yesStake : ℕ) + p.noStake + p.abstainStake) (2 ^ 64 - 1)
  min voted p.snapshotTotalStaked * 10000 / p.snapshotTotalStaked

/-- `Proposal::reached_participation_floor`. -/
def reachedParticipationFloor : Bool :=
  (p.snapshotTotalStaked : ℕ) ≠ 0 ∧ p.rule.minParticipationBps ≤ p.participationBps

/-- `Proposal::at_vote_capacity`. -/
def atVoteCapacity : Bool := maxProposalVotes ≤ p.votedStakeAccounts.length

/-- The tallies after a vote, which saturate. -/
def tally (choice : VoteChoice) (weight : U64) : Proposal :=
  match choice with
  | .yes => { p with yesStake := Word.clamp (p.yesStake + weight) }
  | .no => { p with noStake := Word.clamp (p.noStake + weight) }
  | .abstain => { p with abstainStake := Word.clamp (p.abstainStake + weight) }

/-- `Proposal::record_vote`: a stake account votes once. -/
def recordVote (stakeAccount : Pubkey) (choice : VoteChoice) (weight : U64) :
    Option Proposal :=
  if stakeAccount ∈ p.votedStakeAccounts then
    none
  else
    some { p.tally choice weight with
      votedStakeAccounts := p.votedStakeAccounts ++ [stakeAccount] }

/-- `Proposal::evaluate`. -/
def evaluate : ProposalStatus :=
  if (p.snapshotTotalStaked : ℕ) = 0 then
    .rejected
  else if p.participationBps < p.rule.minParticipationBps then
    .rejected
  else
    let decided := min ((p.yesStake : ℕ) + p.noStake) (2 ^ 64 - 1)
    if decided = 0 then
      .rejected
    else if p.rule.approvalThresholdBps ≤ p.yesStake * 10000 / decided then
      .passed
    else
      .rejected

end Proposal

/-- `EmergencyState`. -/
structure EmergencyState where
  guardians : List Pubkey
  threshold : UInt8
  paused : Bool
  pauseApprovals : List Pubkey
  unpauseApprovals : List Pubkey
  deriving DecidableEq

instance : Borsh EmergencyState :=
  Borsh.iso
    (fun e => (e.guardians, e.threshold, e.paused, e.pauseApprovals, e.unpauseApprovals))
    fun (guardians, threshold, paused, pauseApprovals, unpauseApprovals) =>
      ⟨guardians, threshold, paused, pauseApprovals, unpauseApprovals⟩

/-- `GovernanceInstruction`. -/
inductive GovernanceInstruction
  | createProposal (id : U64) (action : ProposalAction)
  | vote (choice : VoteChoice)
  | finalize
  | execute
  | emergencyPause
  | emergencyUnpause
  | closeProposal
  deriving DecidableEq

/-- The decoder of a vote's choice. -/
def VoteChoice.decode : Decoder VoteChoice :=
  Decoder.variants
    ([VoteChoice.yes, .no, .abstain].map fun choice bytes => some (choice, bytes))

/-- The decoder of the instruction data. -/
def GovernanceInstruction.decode : Decoder GovernanceInstruction :=
  Decoder.variants
    [ (Borsh.decode : Decoder (U64 × ProposalAction)).map fun (id, action) =>
        createProposal id action,
      VoteChoice.decode.map vote,
      (Borsh.decode : Decoder Unit).map fun _ => finalize,
      (Borsh.decode : Decoder Unit).map fun _ => execute,
      (Borsh.decode : Decoder Unit).map fun _ => emergencyPause,
      (Borsh.decode : Decoder Unit).map fun _ => emergencyUnpause,
      (Borsh.decode : Decoder Unit).map fun _ => closeProposal ]

/-- `PROPOSAL_ADDRESS_DOMAIN`. -/
def proposalAddressDomain : List UInt8 := asciiBytes "qchain-governance-proposal-v1"

/-- `derive_proposal_address`. -/
def deriveProposalAddress [Crypto] (proposer : Pubkey) (id : U64) : Pubkey :=
  Crypto.sha3 (proposalAddressDomain ++ proposer.toBytes ++ toLeBytes 8 id)

/-- `read_proposal`: only accounts of the governance program hold proposals. -/
def readProposal (k : Pubkey) : Exec Proposal := do
  let account ← load k (.accountNotFound k)
  check (account.owner = governanceProgramId)
    (.unauthorized <| "proposal account must be owned by the governance program " ++
      "(a forged proposal in a non-governance account is rejected)")
  okOr (Proposal.readOrLegacy account.data) (.programError "proposal account does not decode")

/-- The proposal in an account of the governance program. -/
def storedProposal (accounts : Accounts) (k : Pubkey) : Option Proposal :=
  ((accounts.lookup k).filter fun account => account.owner = governanceProgramId).bind
    fun account => Proposal.readOrLegacy account.data

@[simp] theorem wp_readProposal {accounts : Accounts} {k : Pubkey}
    {Q : Proposal → Accounts → Prop} :
    Wp (readProposal k) accounts Q ↔
      ∀ proposal, storedProposal accounts k = some proposal → Q proposal accounts := by
  simp only [readProposal, storedProposal, wp_steps]
  cases accounts.lookup k with
  | none => simp
  | some account =>
    by_cases howner : account.owner = governanceProgramId <;> simp [Option.filter, howner]

/-- Replaces the data of an account that is there. -/
def writeData (k : Pubkey) (data : List UInt8) : Exec Unit := do
  let account ← load k (.accountNotFound k)
  put k { account with data := data }

/-- `write_proposal`. -/
def writeProposal (k : Pubkey) (proposal : Proposal) : Exec Unit := do
  writeData k (← toData proposal)

/-! ### Effects of executed proposals -/

/-- `apply_registry_action`. -/
def applyRegistryAction (registry : List RegistryEntry) (action : ProposalAction) (round : U64) :
    Exec (List RegistryEntry) :=
  match action with
  | .activateAlgorithm entry => do
    check (∀ e ∈ registry, e.id ≠ entry.id) (.programError "algorithm id is already registered")
    pure (registry ++ [entry])
  | .deprecateAlgorithm id retirementRound => do
    let i ← okOr (registry.findIdx? fun e => e.id = id) (.programError "unknown algorithm id")
    let entry ← expect registry[i]?
    check (entry.status = .active) (.programError "only an Active entry can be deprecated")
    pure (registry.set i { entry with status := .deprecated retirementRound })
  | .retireAlgorithm id => do
    let i ← okOr (registry.findIdx? fun e => e.id = id) (.programError "unknown algorithm id")
    let entry ← expect registry[i]?
    match entry.status with
    | .deprecated retirementEpoch => do
      check (retirementEpoch ≤ round)
        (.programError "retirement round has not been reached yet")
      pure (registry.set i { entry with status := .retired })
    | _ => throw (.error (.programError "only a Deprecated entry can be retired"))
  | _ => throw .panicked

/-- `MAX_DUST_THRESHOLD`. -/
def maxDustThreshold : U64 := 1000000000

/-- `MAX_ECON_CHANGE_FACTOR`. -/
def maxEconChangeFactor : ℕ := 2

/-- `BASE_FEE_ABS_STEP`. -/
def baseFeeAbsStep : U64 := feeMinBaseFeePerByte

/-- `DUST_ABS_STEP`. -/
def dustAbsStep : U64 := 100000

/-- `GAS_ABS_STEP`. -/
def gasAbsStep : U64 := 10

/-- `COMMISSION_STEP_BPS`. -/
def commissionStepBps : ℕ := 2000

/-- `EMISSION_STEP_BPS`. -/
def emissionStepBps : ℕ := 500

/-- `abs_diff`. -/
def absDiff (a b : ℕ) : ℕ := (a - b) + (b - a)

/-- `within_change_limit`: by at most a factor either way, or by at most a step. -/
def withinChangeLimit (current new factor absStep : ℕ) : Prop :=
  new ≤ current * factor ∧ current ≤ new * factor ∨ absDiff new current ≤ absStep

instance (current new factor absStep : ℕ) :
    Decidable (withinChangeLimit current new factor absStep) :=
  inferInstanceAs (Decidable (_ ∨ _))

/-- `apply_economic_action`. -/
def applyEconomicAction (params : EconomicParams) (action : ProposalAction) :
    Exec EconomicParams :=
  match action with
  | .setBaseFeePerByte v => do
    let current := params.baseFeePerByte
    check (feeMinBaseFeePerByte ≤ v) (.programError
      s!"base_fee_per_byte {v} is below the anti-spam floor {feeMinBaseFeePerByte}")
    check (v ≤ maxBaseFeePerByte) (.programError <|
      s!"base_fee_per_byte {v} exceeds the safety cap {maxBaseFeePerByte} - " ++
      "a higher value would brick the chain with no recovery path")
    check (withinChangeLimit current v maxEconChangeFactor baseFeeAbsStep) (.programError <|
      s!"base_fee_per_byte {v} moves more than {maxEconChangeFactor}× (or {baseFeeAbsStep}) " ++
      s!"from the current {current} in one proposal - " ++
      "split a large change across several proposals")
    pure { params with baseFeePerByte := v }
  | .setDustThreshold v => do
    let current := params.dustThreshold
    check (v ≤ maxDustThreshold) (.programError <|
      s!"dust_threshold {v} exceeds the safety cap {maxDustThreshold} - " ++
      "a higher value would sweep-and-burn ordinary balances")
    check (withinChangeLimit current v maxEconChangeFactor dustAbsStep) (.programError <|
      s!"dust_threshold {v} moves more than {maxEconChangeFactor}× (or {dustAbsStep}) " ++
      s!"from the current {current} in one proposal")
    pure { params with dustThreshold := v }
  | .setGasPricePerFuel v => do
    let current := params.gasPricePerFuel
    check (0 < (v : ℕ)) (.programError
      "gas_price_per_fuel cannot be zero - would make WASM compute free (DoS)")
    check (v ≤ maxGasPricePerFuel) (.programError
      s!"gas_price_per_fuel {v} exceeds the safety cap {maxGasPricePerFuel}")
    check (withinChangeLimit current v maxEconChangeFactor gasAbsStep) (.programError <|
      s!"gas_price_per_fuel {v} moves more than {maxEconChangeFactor}× (or {gasAbsStep}) " ++
      s!"from the current {current} in one proposal")
    pure { params with gasPricePerFuel := v }
  | .setStakingCommissionBps v => do
    let current := params.stakingCommissionBps
    check (v.toNat ≤ 10000) (.programError
      "staking commission cannot exceed 10,000 bps (100%)")
    check (absDiff v.toNat current.toNat ≤ commissionStepBps) (.programError <|
      s!"staking commission {v} bps moves more than {commissionStepBps} bps " ++
      s!"from the current {current} in one proposal")
    pure { params with stakingCommissionBps := v }
  | .setEmissionApr v => do
    let current := params.emissionAprBps
    check (v ≤ maxEmissionAprBps) (.programError
      s!"emission APR {v} bps exceeds the safety cap {maxEmissionAprBps} bps")
    check (absDiff v.toNat current.toNat ≤ emissionStepBps) (.programError <|
      s!"emission APR {v} bps moves more than {emissionStepBps} bps " ++
      s!"from the current {current} in one proposal")
    pure { params with emissionAprBps := v }
  | _ => throw .panicked

/-! ### Instructions -/

namespace GovernanceProgram

variable [Crypto]

/-- `Proposal::new`; a voting period that does not fit stops the node. -/
def newProposal (id : U64) (proposer : Pubkey) (action : ProposalAction)
    (round snapshotTotalStaked deposit : U64) : Exec Proposal := do
  let votingEndsRound ← expect
    (Word.checked (round + (quorumRule action.riskTier).votingPeriodRounds))
  pure
    { id := id, proposer := proposer, action := action, createdRound := round,
      votingEndsRound := votingEndsRound, snapshotTotalStaked := snapshotTotalStaked,
      yesStake := 0, noStake := 0, abstainStake := 0, votedStakeAccounts := [],
      status := .voting, passedRound := none, deposit := deposit }

variable (ix : Instruction)

/-- `GovernanceInstruction::CreateProposal`. -/
def createProposal (payer : Pubkey) (round : U64) (id : U64)
    (action : ProposalAction) : Exec Unit := do
  let proposer ← named ix 0 "CreateProposal"
  let proposalPk ← named ix 1 "CreateProposal"
  let statsPk ← okOr ix.accounts[2]? (.programError <|
    "CreateProposal requires accounts[2] = the staking-stats singleton (voting-power snapshot)")
  check (statsPk = stakingStatsId)
    (.programError "CreateProposal accounts[2] must be the canonical staking-stats account")
  let paramsPk ← okOr ix.accounts[3]? (.programError <|
    "CreateProposal requires accounts[3] = the canonical economic-params account " ++
    "(anti-spam deposit source)")
  check (paramsPk = paramsAccountId)
    (.programError "CreateProposal accounts[3] must be the canonical economic-params account")
  check (proposer = payer)
    (.unauthorized "CreateProposal's proposer account must be the transaction payer")
  check (proposalPk = deriveProposalAddress proposer id)
    (.programError <| "CreateProposal accounts[1] must be the canonical proposal address " ++
      "derive_proposal_address(proposer, id)")
  check ((← find proposalPk) = none) (.programError "proposal account already exists")
  let stats ← load statsPk (.accountNotFound statsPk)
  let snapshotTotalStaked ← okOr (Borsh.fromSlice stats.data) (.programError "")
  let paramsAccount ← load paramsPk (.accountNotFound paramsPk)
  let params ← okOr (EconomicParams.readOrLegacy paramsAccount.data)
    (.programError "economic-params account is unreadable")
  let deposit := params.governanceProposalDeposit
  if 0 < (deposit : ℕ) then
    let proposerAccount ← load proposer (.accountNotFound proposer)
    let available := proposerAccount.balance
    check (deposit ≤ available) (.programError <|
      s!"insufficient balance for the governance proposal deposit: need {deposit}, have {available}")
    put proposer { proposerAccount with balance := ← subU64 proposerAccount.balance deposit }
  let proposal ← newProposal id proposer action round snapshotTotalStaked deposit
  let data ← toData proposal
  put proposalPk { Account.newWallet governanceProgramId with balance := deposit, data := data }

/-- `GovernanceInstruction::Vote`. -/
def vote (ix : Instruction) (payer : Pubkey) (round : U64) (choice : VoteChoice) :
    Exec Unit := do
  let proposalPk ← named ix 0 "Vote"
  let stakePk ← named ix 1 "Vote"
  let stakeAccount ← load stakePk (.accountNotFound stakePk)
  check (stakeAccount.owner = stakingProgramId)
    (.unauthorized "Vote's stake account must be owned by the staking program")
  let stakeData ← okOr (StakeAccountData.readOrLegacy stakeAccount.data) (.programError "")
  check (stakeData.owner = payer)
    (.unauthorized "Vote's stake account must be owned by the transaction payer")
  check (0 < (stakeData.amount : ℕ))
    (.programError "stake account has no active (undelegated) stake to vote with")
  let proposal ← readProposal proposalPk
  check (proposal.status = .voting) (.programError "proposal is not open for voting")
  check (round < proposal.votingEndsRound)
    (.programError "voting period has ended - call Finalize instead")
  check (stakeData.createdRound ≤ proposal.createdRound)
    (.programError <| "this stake position was opened after the proposal was created — " ++
      "stake delegated after a proposal opens cannot vote on it " ++
      "(per-voter creation-time snapshot)")
  check (proposal.atVoteCapacity = false)
    (.programError "this proposal has reached the maximum number of voters")
  let proposal ← okOr (proposal.recordVote stakePk choice stakeData.amount)
    (.programError "this stake account already voted on this proposal")
  writeProposal proposalPk proposal
  let lockUntil : U64 := Word.clamp (proposal.votingEndsRound + proposal.rule.timelockRounds)
  let bytes ← toData
    { stakeData with lockedUntilRound := max stakeData.lockedUntilRound lockUntil }
  let stakeAccount ← expect (← find stakePk)
  put stakePk { stakeAccount with data := bytes }

/-- `GovernanceInstruction::Finalize`. -/
def finalize (round : U64) : Exec Unit := do
  let proposalPk ← named ix 0 "Finalize"
  let statsPk ← named ix 1 "Finalize"
  check (statsPk = stakingStatsId)
    (.programError "Finalize accounts[1] must be the canonical staking-stats account")
  let proposal ← readProposal proposalPk
  check (proposal.status = .voting) (.programError "proposal has already been finalized")
  check (proposal.votingEndsRound ≤ round) (.programError "voting period has not ended yet")
  let outcome := proposal.evaluate
  writeProposal proposalPk
    { proposal with
      status := outcome
      passedRound := if outcome = .passed then some round else proposal.passedRound }

/-- What an executed proposal changes: the registry, or the parameters. -/
def applyAction (targetPk : Pubkey) (action : ProposalAction) (round : U64) : Exec Unit :=
  match action.riskTier with
  | .registry => do
    check (targetPk = registryAccountId)
      (.programError <| "Execute accounts[1] must be the canonical registry account " ++
        "for a registry action")
    let target ← load targetPk (.accountNotFound targetPk)
    let registry ← okOr (Borsh.fromSlice target.data) (.programError "")
    let bytes ← toData (← applyRegistryAction registry action round)
    put targetPk { target with data := bytes }
  | _ => do
    check (targetPk = paramsAccountId)
      (.programError <| "Execute accounts[1] must be the canonical economic-params account " ++
        "for a Low-tier action")
    let target ← load targetPk (.accountNotFound targetPk)
    let params ← okOr (EconomicParams.readOrLegacy target.data)
      (.programError "economic-params account is unreadable")
    let bytes ← toData (← applyEconomicAction params action)
    put targetPk { target with data := bytes }

/-- The emergency account blocks execution while paused; one that does not decode stops the
node. -/
def checkNotPaused : Exec Unit := do
  match ← find emergencyAccountId with
  | none => pure ()
  | some account =>
    let state : EmergencyState ← expect (Borsh.fromSlice account.data)
    check (state.paused = false)
      (.programError <| "governance is under an emergency pause — Execute is blocked until " ++
        "the guardian multisig unpauses")

/-- `GovernanceInstruction::Execute`. -/
def execute (ix : Instruction) (round : U64) : Exec Unit := do
  let proposalPk ← named ix 0 "Execute"
  let targetPk ← named ix 1 "Execute"
  let emergencyPk ← okOr ix.accounts[2]?
    (.programError "Execute requires accounts[2] = the emergency governance singleton")
  check (emergencyPk = emergencyAccountId)
    (.programError "Execute accounts[2] must be the canonical emergency governance account")
  checkNotPaused
  let proposal ← readProposal proposalPk
  check (proposal.status = .passed) (.programError "proposal has not passed - nothing to execute")
  let passedRound ← okOr proposal.passedRound
    (.programError "passed proposal is missing passed_round")
  check ((Word.clamp (passedRound + proposal.rule.timelockRounds) : U64) ≤ round)
    (.programError "the mandatory review time-lock has not elapsed yet")
  applyAction targetPk proposal.action round
  writeProposal proposalPk { proposal with status := .executed }

/-- `PROPOSAL_RETENTION_ROUNDS`. -/
def proposalRetentionRounds : ℕ := 5000

/-- `apply_close_proposal`: the deposit goes back if enough stake took part; what is left is
burned. -/
def closeProposal (round : U64) : Exec Unit := do
  let proposalPk ← okOr ix.accounts[0]?
    (.programError "CloseProposal requires accounts[0] = the proposal")
  let refundPk ← okOr ix.accounts[1]?
    (.programError "CloseProposal requires accounts[1] = the proposer (refund target)")
  let burnPk ← okOr ix.accounts[2]?
    (.programError "CloseProposal requires accounts[2] = the canonical burn address")
  check (burnPk = burnAddress)
    (.programError "CloseProposal accounts[2] must be the canonical burn address")
  let proposal ← readProposal proposalPk
  check (proposal.status ≠ .voting)
    (.programError "proposal is still open for voting — cannot close it")
  check (proposal.status ≠ .passed)
    (.programError "proposal passed but has not been executed yet — execute it before closing")
  let closeableAt : U64 := Word.clamp (proposal.votingEndsRound + proposalRetentionRounds)
  check (closeableAt ≤ round) (.programError <|
    s!"proposal is within its retention window — closeable at round {closeableAt}, " ++
    s!"current round is {round}")
  check (refundPk = proposal.proposer)
    (.programError "CloseProposal accounts[1] must be the proposal's own proposer")
  let held := (← load proposalPk (.accountNotFound proposalPk)).balance
  let refund : U64 :=
    if 0 < (proposal.deposit : ℕ) ∧ proposal.reachedParticipationFloor = true then
      min proposal.deposit held
    else 0
  let burn ← subU64 held refund
  if 0 < (refund : ℕ) then
    credit refundPk systemProgramId refund
  if 0 < (burn : ℕ) then
    credit burnPk systemProgramId burn
  let account ← load proposalPk (.accountNotFound proposalPk)
  put proposalPk { account with balance := 0, data := [] }

/-- The guardians' state after one more approval. -/
def approveEmergency (state : EmergencyState) (payer : Pubkey) (wantPaused : Bool) :
    EmergencyState :=
  let approvals := if wantPaused then state.pauseApprovals else state.unpauseApprovals
  let approvals := if payer ∈ approvals then approvals else approvals ++ [payer]
  let reached : Bool := state.threshold.toNat ≤ approvals.length % 2 ^ 32
  let approvals := if reached then [] else approvals
  { state with
    paused := if reached then wantPaused else state.paused
    pauseApprovals := if wantPaused then approvals else []
    unpauseApprovals := if wantPaused then [] else approvals }

/-- `apply_emergency_approval`. -/
def applyEmergencyApproval (payer : Pubkey) (wantPaused : Bool) :
    Exec Unit := do
  let emPk ← okOr ix.accounts[0]?
    (.programError "Emergency instruction requires accounts[0] = the emergency singleton")
  check (emPk = emergencyAccountId)
    (.programError "Emergency accounts[0] must be the canonical emergency governance account")
  let account ← load emPk (.accountNotFound emPk)
  let state : EmergencyState ← okOr (Borsh.fromSlice account.data) (.programError "")
  check (state.guardians ≠ [] ∧ state.threshold ≠ 0)
    (.programError "no emergency guardians are configured on this network")
  check (payer ∈ state.guardians)
    (.unauthorized "only a configured guardian can approve an emergency pause/unpause")
  check (state.paused ≠ wantPaused)
    (.programError
      (if wantPaused then "governance is already paused" else "governance is not paused"))
  let bytes ← toData (approveEmergency state payer wantPaused)
  put emPk { account with data := bytes }

/-- `GovernanceProgram::process`. -/
def process (payer : Pubkey) (round : U64) : Exec Unit := do
  let instr ← okOr (GovernanceInstruction.decode.all ix.data) (.programError "")
  match instr with
  | .createProposal id action => createProposal ix payer round id action
  | .vote choice => vote ix payer round choice
  | .finalize => finalize ix round
  | .execute => execute ix round
  | .emergencyPause => applyEmergencyApproval ix payer true
  | .emergencyUnpause => applyEmergencyApproval ix payer false
  | .closeProposal => closeProposal ix round

end GovernanceProgram

/-! ### Genesis data -/

/-- `genesis_emergency_account_data`. -/
def genesisEmergency (guardians : List Pubkey) (threshold : UInt8) : EmergencyState where
  guardians := guardians
  threshold :=
    if guardians = [] then 0
    else max 1 (min threshold (UInt8.ofNat (min guardians.length 255)))
  paused := false
  pauseApprovals := []
  unpauseApprovals := []

end QChain
