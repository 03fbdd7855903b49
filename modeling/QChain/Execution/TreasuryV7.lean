import QChain.Execution.StakingV7

/-!
# The v7 treasury

A reserve account under a committee of signers (`qchain-execution/src/treasury_v7.rs`).
Operations are proposed, approved up to the threshold of their kind, and executed by anyone
after the time-lock; releases are bounded per operation and per window.
-/

namespace QChain

open Transact Exec

/-- `MAX_TREASURY_SIGNERS`. -/
def maxTreasurySigners : ℕ := 16

/-- `MAX_TREASURY_PENDING`. -/
def maxTreasuryPending : ℕ := 16

/-! ### Data -/

/-- `TreasuryOp`. -/
inductive TreasuryOp
  | release (amount : U64) (destination : Pubkey)
  | setSigners (signers : List Pubkey) (threshold policyThreshold signersThreshold : UInt8)
  | setPolicy (timelockRounds maxPerRelease maxPerWindow windowRounds opExpiryRounds : U64)
  deriving DecidableEq

namespace TreasuryOp

/-- The tag of an operation. -/
def tag : TreasuryOp → UInt8
  | release _ _ => 0
  | setSigners _ _ _ _ => 1
  | setPolicy _ _ _ _ _ => 2

/-- The payload of an operation. -/
def payload : TreasuryOp → Option (List UInt8)
  | release amount destination => Borsh.encode (amount, destination)
  | setSigners signers threshold policyThreshold signersThreshold =>
    Borsh.encode (signers, threshold, policyThreshold, signersThreshold)
  | setPolicy timelockRounds maxPerRelease maxPerWindow windowRounds opExpiryRounds =>
    Borsh.encode (timelockRounds, maxPerRelease, maxPerWindow, windowRounds, opExpiryRounds)

/-- The decoder of the payload behind a tag. -/
def variant (t : UInt8) : Decoder TreasuryOp :=
  if t = 0 then
    (Borsh.decode : Decoder (U64 × Pubkey)).map fun (amount, destination) =>
      release amount destination
  else if t = 1 then
    (Borsh.decode : Decoder (List Pubkey × UInt8 × UInt8 × UInt8)).map
      fun (signers, threshold, policyThreshold, signersThreshold) =>
        setSigners signers threshold policyThreshold signersThreshold
  else if t = 2 then
    (Borsh.decode : Decoder (U64 × U64 × U64 × U64 × U64)).map
      fun (timelockRounds, maxPerRelease, maxPerWindow, windowRounds, opExpiryRounds) =>
        setPolicy timelockRounds maxPerRelease maxPerWindow windowRounds opExpiryRounds
  else
    fun _ => none

instance : Borsh TreasuryOp := Borsh.tagged tag payload variant

/-- `TreasuryOpV0` and `into_current`: the operations of the earlier format. -/
def decodeV0 : Decoder TreasuryOp :=
  Decoder.variants
    [ (Borsh.decode : Decoder (U64 × Pubkey)).map fun (amount, destination) =>
        release amount destination,
      (Borsh.decode : Decoder (List Pubkey × UInt8)).map fun (signers, threshold) =>
        setSigners signers threshold threshold threshold,
      (Borsh.decode : Decoder (U64 × U64 × U64 × U64)).map
        fun (timelockRounds, maxPerRelease, maxPerWindow, windowRounds) =>
          setPolicy timelockRounds maxPerRelease maxPerWindow windowRounds 0 ]

end TreasuryOp

/-- `PendingOp`. -/
structure PendingOp where
  id : U64
  op : TreasuryOp
  proposedRound : U64
  approvals : List Pubkey
  thresholdReachedRound : U64
  deriving DecidableEq

namespace PendingOp

instance : Borsh PendingOp :=
  Borsh.iso (fun p => (p.id, p.op, p.proposedRound, p.approvals, p.thresholdReachedRound))
    fun (id, op, proposedRound, approvals, thresholdReachedRound) =>
      ⟨id, op, proposedRound, approvals, thresholdReachedRound⟩

/-- `PendingOpV0`. -/
def decodeV0 : Decoder PendingOp :=
  ((Borsh.decode : Decoder U64).pair <| TreasuryOp.decodeV0.pair <|
    (Borsh.decode : Decoder (U64 × List Pubkey × U64))).map
    fun (id, op, proposedRound, approvals, thresholdReachedRound) =>
      ⟨id, op, proposedRound, approvals, thresholdReachedRound⟩

/-- `PendingOp::ready_round`. -/
def readyRound (p : PendingOp) (timelockRounds : U64) : Option U64 :=
  if (p.thresholdReachedRound : ℕ) = 0 then none
  else some (Word.clamp (p.thresholdReachedRound + timelockRounds))

end PendingOp

/-- `TreasuryState`. -/
structure TreasuryState where
  signers : List Pubkey
  threshold : UInt8
  timelockRounds : U64
  maxPerRelease : U64
  maxPerWindow : U64
  windowRounds : U64
  windowStartRound : U64
  releasedInWindow : U64
  nextOpId : U64
  pending : List PendingOp
  policyThreshold : UInt8
  signersThreshold : UInt8
  opExpiryRounds : U64
  deriving DecidableEq

namespace TreasuryState

instance : Borsh TreasuryState :=
  Borsh.iso
    (fun s => (s.signers, s.threshold, s.timelockRounds, s.maxPerRelease, s.maxPerWindow,
      s.windowRounds, s.windowStartRound, s.releasedInWindow, s.nextOpId, s.pending,
      s.policyThreshold, s.signersThreshold, s.opExpiryRounds))
    fun (signers, threshold, timelockRounds, maxPerRelease, maxPerWindow, windowRounds,
      windowStartRound, releasedInWindow, nextOpId, pending, policyThreshold, signersThreshold,
      opExpiryRounds) =>
      ⟨signers, threshold, timelockRounds, maxPerRelease, maxPerWindow, windowRounds,
        windowStartRound, releasedInWindow, nextOpId, pending, policyThreshold,
        signersThreshold, opExpiryRounds⟩

/-- `TreasuryState::single`. -/
def single (authority : Pubkey) : TreasuryState where
  signers := [authority]
  threshold := 1
  timelockRounds := 0
  maxPerRelease := 0
  maxPerWindow := 0
  windowRounds := 0
  windowStartRound := 0
  releasedInWindow := 0
  nextOpId := 0
  pending := []
  policyThreshold := 1
  signersThreshold := 1
  opExpiryRounds := 0

/-- `TreasuryState::required_threshold`. -/
def requiredThreshold (s : TreasuryState) : TreasuryOp → UInt8
  | .release _ _ => s.threshold
  | .setPolicy _ _ _ _ _ => max s.policyThreshold s.threshold
  | .setSigners _ _ _ _ => max (max s.signersThreshold s.policyThreshold) s.threshold

/-- `TreasuryStateV0`. -/
def decodeV0 : Decoder TreasuryState :=
  ((Borsh.decode : Decoder (List Pubkey × UInt8 × U64 × U64 × U64 × U64 × U64 × U64 × U64)).pair
    (PendingOp.decodeV0.vec)).map
    fun ((signers, threshold, timelockRounds, maxPerRelease, maxPerWindow, windowRounds,
      windowStartRound, releasedInWindow, nextOpId), pending) =>
      { signers, threshold, timelockRounds, maxPerRelease, maxPerWindow, windowRounds,
        windowStartRound, releasedInWindow, nextOpId, pending, policyThreshold := threshold,
        signersThreshold := threshold, opExpiryRounds := 0 }

/-- `TreasuryState::decode_any_version`: the current format, the earlier one, or the address
of a single authority. -/
def decodeAnyVersion (data : List UInt8) : Option TreasuryState :=
  (Borsh.fromSlice data).or <| (decodeV0.all data).or <|
    if data.length = 32 then (Borsh.fromSlice data : Option Pubkey).map single else none

/-- `prune_expired`. -/
def pruneExpired (s : TreasuryState) (currentRound : U64) : TreasuryState :=
  if (s.opExpiryRounds : ℕ) = 0 then s
  else { s with
    pending := s.pending.filter fun p =>
      if 0 < (p.thresholdReachedRound : ℕ) then
        -- the time to execute runs from the end of the time-lock
        let ready : U64 := Word.clamp (p.thresholdReachedRound + s.timelockRounds)
        currentRound ≤ (Word.clamp (ready + s.opExpiryRounds) : U64)
      else
        currentRound ≤ (Word.clamp (p.proposedRound + s.opExpiryRounds) : U64) }

end TreasuryState

/-- `validate_signer_set`. -/
def validateSignerSet (signers : List Pubkey) (threshold : UInt8) : Exec Unit := do
  let n := signers.length
  check (0 < n ∧ n ≤ maxTreasurySigners)
    (.programError s!"treasury needs 1..={maxTreasurySigners} signers, got {n}")
  check (threshold ≠ 0 ∧ threshold.toNat ≤ n)
    (.programError s!"treasury threshold {threshold} must be 1..={n}")
  check signers.Nodup (.programError "treasury signer set has a duplicate")

/-- `validate_thresholds`. -/
def validateThresholds (s : TreasuryState) : Exec Unit := do
  let n := s.signers.length
  let (threshold, policy, signers) := (s.threshold, s.policyThreshold, s.signersThreshold)
  check (threshold ≠ 0 ∧ threshold.toNat ≤ n ∧ threshold ≤ policy ∧ policy ≤ signers ∧
      signers.toNat ≤ n)
    (.programError <| s!"invalid treasury threshold hierarchy: need 1 <= threshold({threshold})" ++
      s!" <= policy({policy}) <= signers({signers}) <= {n}")

/-- `TreasuryV7Instruction`. -/
inductive TreasuryV7Instruction
  | propose (op : TreasuryOp)
  | approve (opId : U64)
  | execute (opId : U64)
  | cancel (opId : U64)
  | pruneExpired
  deriving DecidableEq

/-- The decoder of the instruction data. -/
def TreasuryV7Instruction.decode : Decoder TreasuryV7Instruction :=
  Decoder.variants
    [ (Borsh.decode : Decoder TreasuryOp).map propose,
      (Borsh.decode : Decoder U64).map approve,
      (Borsh.decode : Decoder U64).map execute,
      (Borsh.decode : Decoder U64).map cancel,
      (Borsh.decode : Decoder Unit).map fun _ => pruneExpired ]

namespace TreasuryV7Program

/-! ### Instructions -/

/-- `read_state`: a treasury that does not decode stops the node. -/
def readState : Exec TreasuryState := do
  match ← find treasuryAccountId with
  | none => throw (ExecError.programError "treasury account is not initialized" : Halt)
  | some account => expect (TreasuryState.decodeAnyVersion account.data)

/-- `write_state`. -/
def writeState (s : TreasuryState) : Exec Unit := do
  let account ← load treasuryAccountId (.accountNotFound treasuryAccountId)
  put treasuryAccountId { account with data := ← toData s }

/-- The treasury as an instruction reads it. -/
def storedState (accounts : Accounts) : Option TreasuryState :=
  (accounts.lookup treasuryAccountId).bind fun account =>
    TreasuryState.decodeAnyVersion account.data

@[simp] theorem wp_readState {accounts : Accounts} {Q : TreasuryState → Accounts → Prop} :
    Wp readState accounts Q ↔ ∀ s, storedState accounts = some s → Q s accounts := by
  unfold readState storedState
  rw [wp_bind, wp_find]
  cases accounts.lookup treasuryAccountId <;> simp

variable (ix : Instruction)

/-- `preamble`: the state without expired operations. -/
def preamble (payer : Pubkey) (currentRound : U64) : Exec TreasuryState := do
  let acct0 ← named ix 0 "treasury ix"
  let treasuryPk ← okOr ix.accounts[1]?
    (.programError "treasury ix requires accounts[1] (treasury)")
  check (treasuryPk = treasuryAccountId)
    (.unauthorized "treasury ix must name the canonical treasury account")
  check (acct0 = payer)
    (.unauthorized "treasury ix accounts[0] must be the transaction payer")
  pure ((← readState).pruneExpired currentRound)

variable (s : TreasuryState) (payer : Pubkey)

/-- `require_signer`. -/
def requireSigner : Exec Unit :=
  check (payer ∈ s.signers)
    (.unauthorized "only a configured treasury signer may propose/approve/cancel")

/-- `validate_op`. -/
def validateOp : TreasuryOp → Exec Unit
  | .release amount destination => do
    check ((amount : ℕ) ≠ 0) (.programError "cannot release zero")
    check (destination ≠ treasuryAccountId)
      (.programError "cannot release the treasury to itself")
  | .setSigners signers threshold policyThreshold signersThreshold => do
    validateSignerSet signers threshold
    validateThresholds
      { TreasuryState.single 0 with
        signers := signers, threshold := threshold, policyThreshold := policyThreshold,
        signersThreshold := signersThreshold }
  | .setPolicy timelockRounds _ _ _ opExpiryRounds =>
    check (¬(0 < (opExpiryRounds : ℕ) ∧ opExpiryRounds ≤ timelockRounds))
      (.programError <| s!"op_expiry_rounds {opExpiryRounds} must exceed timelock_rounds " ++
        s!"{timelockRounds} (else an op expires before it can execute)")

/-- `propose`: the proposer is the first to approve. -/
def propose (currentRound : U64) (op : TreasuryOp) :
    Exec Unit := do
  let s ← preamble ix payer currentRound
  requireSigner s payer
  validateOp op
  check (s.pending.length < maxTreasuryPending) (.programError <|
    s!"treasury has {maxTreasuryPending} pending operations; execute or cancel one first")
  let thresholdReachedRound := if s.requiredThreshold op ≤ 1 then currentRound else 0
  writeState { s with
    nextOpId := Word.clamp (s.nextOpId + 1)
    pending := s.pending ++ [⟨s.nextOpId, op, currentRound, [payer], thresholdReachedRound⟩] }

/-- The pending operation of an identifier and its index. -/
def findOp (opId : U64) : Exec (ℕ × PendingOp) := do
  let idx ← okOr (s.pending.findIdx? fun p => p.id = opId)
    (.programError s!"no pending treasury op {opId}")
  pure (idx, ← expect s.pending[idx]?)

@[simp] theorem wp_findOp {accounts : Accounts} {s : TreasuryState} {opId : U64}
    {Q : ℕ × PendingOp → Accounts → Prop} :
    Wp (findOp s opId) accounts Q ↔
      ∀ idx, (s.pending.findIdx? fun p => p.id = opId) = some idx →
        ∀ p, s.pending[idx]? = some p → Q (idx, p) accounts := by
  simp [findOp]

variable (currentRound opId : U64)

/-- `approve`. -/
def approve : Exec Unit := do
  let s ← preamble ix payer currentRound
  requireSigner s payer
  let (idx, p) ← findOp s opId
  let req := s.requiredThreshold p.op
  check (payer ∉ p.approvals) (.programError "this signer already approved this operation")
  let approvals := p.approvals ++ [payer]
  let thresholdReachedRound :=
    if (p.thresholdReachedRound : ℕ) = 0 ∧ req.toNat ≤ approvals.length then currentRound
    else p.thresholdReachedRound
  writeState { s with
    pending := s.pending.set idx
      { p with approvals := approvals, thresholdReachedRound := thresholdReachedRound } }

/-- `cancel`: by the proposer only. -/
def cancel (ix : Instruction) (payer : Pubkey) (currentRound opId : U64) : Exec Unit := do
  let s ← preamble ix payer currentRound
  requireSigner s payer
  let (_, p) ← findOp s opId
  let proposer ← okOr p.approvals.head?
    (.programError s!"treasury op {opId} has no recorded proposer")
  check (proposer = payer) (.unauthorized <|
    s!"only the proposer of treasury op {opId} may cancel it " ++
    "(a signer cannot cancel another's op)")
  writeState { s with pending := s.pending.filter fun p => p.id ≠ opId }

/-- The release bounds: the state with the amount counted in the window. -/
def countRelease (currentRound amount : U64) : Exec TreasuryState := do
  let cap := s.maxPerRelease
  check (¬(0 < (cap : ℕ) ∧ cap < amount))
    (.unauthorized s!"release {amount} exceeds the per-operation cap {cap}")
  if (s.windowRounds : ℕ) = 0 then
    pure s
  else
    let s := if (Word.clamp (s.windowStartRound + s.windowRounds) : U64) ≤ currentRound then
        { s with windowStartRound := currentRound, releasedInWindow := 0 }
      else s
    let after : U64 := Word.clamp (s.releasedInWindow + amount)
    let (windowCap, released) := (s.maxPerWindow, s.releasedInWindow)
    check (¬(0 < (windowCap : ℕ) ∧ windowCap < after)) (.unauthorized <|
      s!"release {amount} would exceed the per-window cap {windowCap} " ++
      s!"({released} already released this window)")
    pure { s with releasedInWindow := after }

/-- `apply_release`. -/
def applyRelease (currentRound amount : U64)
    (destination : Pubkey) : Exec TreasuryState := do
  let destPk ← okOr ix.accounts[2]?
    (.programError "Execute of a Release requires accounts[2] (destination)")
  check (destPk = destination)
    (.unauthorized "Execute destination does not match the approved operation")
  let s ← countRelease s currentRound amount
  let treasury ← load treasuryAccountId (.accountNotFound treasuryAccountId)
  check (amount ≤ treasury.balance) .insufficientFunds
  debitExisting treasuryAccountId amount
  credit destPk systemProgramId amount
  pure s

/-- The effect of an operation on the state of the treasury. -/
def applyOp :
    TreasuryOp → Exec TreasuryState
  | .release amount destination => applyRelease ix s currentRound amount destination
  | .setSigners signers threshold policyThreshold signersThreshold => do
    let s := { s with
      signers := signers, threshold := threshold, policyThreshold := policyThreshold,
      signersThreshold := signersThreshold }
    validateThresholds s
    -- approvals of the old signers do not carry over
    pure { s with pending := s.pending.filter fun p => p.id = opId }
  | .setPolicy timelockRounds maxPerRelease maxPerWindow windowRounds opExpiryRounds =>
    pure { s with
      timelockRounds := timelockRounds, maxPerRelease := maxPerRelease,
      maxPerWindow := maxPerWindow, windowRounds := windowRounds,
      opExpiryRounds := opExpiryRounds }

/-- `execute_op`: anyone may execute an operation that is approved and past its time-lock. -/
def executeOp : Exec Unit := do
  let treasuryPk ← okOr ix.accounts[1]?
    (.programError "Execute requires accounts[1] (treasury)")
  check (treasuryPk = treasuryAccountId)
    (.unauthorized "Execute must name the canonical treasury account")
  let s := (← readState).pruneExpired currentRound
  let (_, p) ← findOp s opId
  let req := s.requiredThreshold p.op
  let count := p.approvals.length
  check (req.toNat ≤ count) (.unauthorized
    s!"treasury op {opId} has {count} approvals but its tier now requires {req}")
  let ready ← okOr (p.readyRound s.timelockRounds) (.unauthorized
    s!"treasury op {opId} has not reached the {req} approval threshold")
  check (ready ≤ currentRound) (.unauthorized
    s!"treasury op {opId} is timelocked until round {ready} (now {currentRound})")
  let s ← applyOp ix s currentRound opId p.op
  writeState { s with pending := s.pending.filter fun p => p.id ≠ opId }

/-- `TreasuryV7Program::process`. -/
def process (currentRound : U64) : Exec Unit := do
  let instr ← okOr (TreasuryV7Instruction.decode.all ix.data)
    (.programError "bad treasury instruction: ")
  match instr with
  | .propose op => propose ix payer currentRound op
  | .approve opId => approve ix payer currentRound opId
  | .execute opId => executeOp ix currentRound opId
  | .cancel opId => cancel ix payer currentRound opId
  | .pruneExpired => do writeState (← preamble ix payer currentRound)

end TreasuryV7Program

/-- `genesis_treasury_account_multisig`. -/
def genesisTreasuryAccountMultisig (state : TreasuryState) (balance : U64) : Option Account :=
  (Borsh.toVec state).map fun data =>
    { Account.newWallet treasuryV7ProgramId with balance := balance, data := data }

/-- `genesis_treasury_account`. -/
def genesisTreasuryAccount (authority : Pubkey) (balance : U64) : Option Account :=
  genesisTreasuryAccountMultisig (TreasuryState.single authority) balance

end QChain
