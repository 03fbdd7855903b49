import QChain.Consensus.State

/-!
# The node's message handlers

The part of `qchain-node/src/engine.rs` that decides what a validator signs and what enters its DAG,
and what is left of the state after a restart. Every handler that takes the state lock is one step;
`try_commit` is called at the end of several of them, and its ordering half and its ratchet are
steps of their own. Messages to peers are left out, except for the `votes` cast over the whole life
of the validator.
-/

namespace QChain

/-! ### Constants -/

/-- `WORKER_COUNT`. -/
def workerCount : ℕ := 4

/-- `ROUND_STATE_RETENTION`. -/
def roundStateRetention : ℕ := 512

/-- `BATCH_RETENTION_ROUNDS`. -/
def batchRetentionRounds : ℕ := 1024

/-- `SPECULATIVE_BATCHES_PER_VALIDATOR_ROUND`. -/
def speculativeBatchesPerValidatorRound : ℕ := 4 * workerCount

/-- `MAX_ROUND_LOOKAHEAD`. -/
def maxRoundLookahead : ℕ := 1024

/-- `DAG_RETENTION_ROUNDS`. -/
def dagRetentionRounds : ℕ := 1024

/-! ### State -/

/-- The key holder: in-process or remote, it may refuse to sign. -/
structure Signer where
  /-- The vote of a proposer for its own vertex. -/
  signOwnVote (chainId : Bytes32) (round : ℕ) (digest : Digest) : Option MultiSignature
  /-- A vote for the vertex of another validator. -/
  signPeerVote (chainId : Bytes32) (vertex : Vertex) (digest : Digest) : Option MultiSignature

/-- What does not change while a node runs. -/
structure Engine where
  selfId : ValidatorId
  chainId : Bytes32
  signer : Signer
  /-- Whether installed committees are kept on disk, as on a rotating network. -/
  hasCommitteeLog : Bool

/-- A validator whose signer never refuses. -/
def Engine.obliging (selfId : ValidatorId) : Engine where
  selfId := selfId
  chainId := 0
  signer := ⟨fun _ _ _ => some hybridSignature, fun _ _ _ => some hybridSignature⟩
  hasCommitteeLog := true

/-- The engine's state, and the votes cast so far. -/
structure EngineState where
  schedule : ValidatorSchedule
  /-- The current committee. -/
  validators : ValidatorSet
  dag : DagStore
  consensus : ConsensusState
  nextRound : ℕ
  /-- The digests of the worker batches in the cache. -/
  batches : Finset Digest
  batchSeenRound : Map Digest ℕ
  wantedBatches : Map Digest ℕ
  speculativeBatches : Map (ValidatorId × ℕ) ℕ
  ownPendingVertex : Option (Vertex × MultiSignature)
  pendingVotes : Map Digest (Map ValidatorId MultiSignature)
  ownLastCertificate : Option Certificate
  votedFor : Map (ℕ × ValidatorId) Digest
  firstSeenVertex : Map (ℕ × ValidatorId) (Vertex × MultiSignature)
  equivocationEvidence : Map (ℕ × ValidatorId) EquivocationEvidence
  pendingCertRequests : Map Digest (ValidatorId × ℕ)
  pendingBatchRequests : Map (WorkerId × Digest) (ValidatorId × ℕ)
  pendingVotesToSend : Map Digest (ValidatorId × MultiSignature × ℕ)
  pendingAvailabilityVotes : Map Digest (Vertex × ValidatorId × ℕ)
  /-- Every vertex voted for, own proposals included. -/
  votes : List Vertex

namespace EngineState

/-- A node that starts, or starts again, at `nextRound` with what it has on disk. -/
def boot (schedule : ValidatorSchedule) (dag : DagStore) (consensus : ConsensusState)
    (nextRound : ℕ) (batches : Finset Digest) (batchSeenRound : Map Digest ℕ)
    (votes : List Vertex) : EngineState where
  schedule := schedule
  validators := schedule.forRound nextRound
  dag := dag
  consensus := consensus
  nextRound := nextRound
  batches := batches
  batchSeenRound := batchSeenRound
  wantedBatches := ∅
  speculativeBatches := ∅
  ownPendingVertex := none
  pendingVotes := ∅
  ownLastCertificate := none
  votedFor := ∅
  firstSeenVertex := ∅
  equivocationEvidence := ∅
  pendingCertRequests := ∅
  pendingBatchRequests := ∅
  pendingVotesToSend := ∅
  pendingAvailabilityVotes := ∅
  votes := votes

/-- A node at genesis. -/
def genesis (schedule : ValidatorSchedule) : EngineState :=
  boot schedule .new .new 0 ∅ ∅ []

/-- The round below which votes and first-seen vertices are forgotten. -/
def roundHorizon (s : EngineState) : ℕ := s.nextRound - roundStateRetention

/-- All worker batches of a vertex are in the cache. -/
def haveAllBatches (s : EngineState) (vertex : Vertex) : Bool :=
  vertex.batchDigests.all fun b => decide (b.2 ∈ s.batches)

end EngineState

open EngineState

variable [Crypto]

namespace Engine

variable (e : Engine)

/-! ### Asking for what is missing -/

variable (s : EngineState)

/-- `request_missing_parents`. -/
def requestMissingParents (parents : List Digest) (parentRound : ℕ)
    (sender : ValidatorId) : EngineState :=
  if parentRound < s.consensus.gcFloor then s
  else
    { s with
      pendingCertRequests := (parents.filter fun d => !s.dag.contains d).foldl
        (fun m d => m.orInsert d (sender, s.nextRound)) s.pendingCertRequests }

variable (batchDigests : List (WorkerId × Digest))

/-- `mark_batches_wanted`, without the promotion to disk. -/
def markBatchesWanted : EngineState :=
  { s with
    wantedBatches := batchDigests.foldl (fun m b => m.orInsert b.2 s.nextRound) s.wantedBatches }

variable (sender : ValidatorId)

/-- `request_missing_batches`. -/
def requestMissingBatches : EngineState :=
  { s with
    pendingBatchRequests := (batchDigests.filter fun b => decide (b.2 ∉ s.batches)).foldl
      (fun m b => m.orInsert b (sender, s.nextRound)) s.pendingBatchRequests }

/-! ### Vertex proposals -/

/-- The most parents a vertex of `round` may list: the larger of the committees of the
parent round and of the epoch before it. -/
def maxParents (schedule : ValidatorSchedule) (round : ℕ) : ℕ :=
  let parentRound := round - 1
  let prevEpochLastRound := satMul (schedule.epochOf parentRound) schedule.epochRounds - 1
  max (schedule.forRound parentRound).len (schedule.forRound prevEpochLastRound).len

variable (vertex : Vertex)

/-- `cast_vote`. -/
def castVote (recipient : ValidatorId) :
    EngineState :=
  match e.signer.signPeerVote e.chainId vertex vertex.digest with
  | none => s
  | some signature =>
    { s with
      pendingVotesToSend :=
        s.pendingVotesToSend.insert vertex.digest (recipient, signature, s.nextRound)
      votes := s.votes ++ [vertex] }

variable (signature : MultiSignature)

/-- Keep the first vertex seen of a round and author; a different one is evidence. -/
def recordFirstSeen
    (bundle : PublicKeyBundle) : EngineState :=
  match s.firstSeenVertex.lookup (vertex.round, vertex.author) with
  | some (prior, priorSignature) =>
    if prior.digest ≠ vertex.digest then
      { s with
        equivocationEvidence := s.equivocationEvidence.orInsert (vertex.round, vertex.author)
          ⟨prior, priorSignature, vertex, signature, bundle⟩ }
    else s
  | none =>
    { s with
      firstSeenVertex :=
        s.firstSeenVertex.insert (vertex.round, vertex.author) (vertex, signature) }

/-- The availability gate: vote once all batches are there, else defer the vote. -/
def attest (sender : ValidatorId) : EngineState :=
  if s.haveAllBatches vertex then e.castVote s vertex sender
  else
    { s with
      pendingAvailabilityVotes :=
        s.pendingAvailabilityVotes.insert vertex.digest (vertex, sender, s.nextRound) }

/-- The checks on a proposal that do not depend on what was voted before. Returns the
author's entry in the committee of the round. -/
def validProposal : Option ValidatorInfo :=
  if vertex.author ≠ sender then none
  else
    match (s.schedule.forRound vertex.round).get vertex.author with
    | none => none
    | some info =>
      if !verifyVertexVote info.pubkeyBundle e.chainId vertex.digest signature then none
      else if maxParents s.schedule vertex.round < vertex.parents.length then none
      else if workerCount < vertex.batchDigests.length then none
      else some info

/-- The requests a proposal or certificate gives rise to. -/
def requestMissing (sender : ValidatorId) : EngineState :=
  requestMissingBatches
    (markBatchesWanted (requestMissingParents s vertex.parents (vertex.round - 1) sender)
      vertex.batchDigests)
    vertex.batchDigests sender

/-- The handler of `VertexProposal`. -/
def handleVertexProposal : EngineState :=
  match e.validProposal s sender vertex signature with
  | none => s
  | some info =>
    let s := requestMissing s vertex sender
    if satAdd s.nextRound maxRoundLookahead < vertex.round then s
    else
      let s := recordFirstSeen s vertex signature info.pubkeyBundle
      match s.votedFor.lookup (vertex.round, vertex.author) with
      | some existing => if existing ≠ vertex.digest then s else e.attest s vertex sender
      | none =>
        e.attest
          { s with votedFor := s.votedFor.insert (vertex.round, vertex.author) vertex.digest }
          vertex sender

/-- `try_cast_available_votes`: deferred votes whose batches have arrived. -/
def tryCastAvailableVotes : EngineState :=
  let ready := s.pendingAvailabilityVotes.values.filter fun v => s.haveAllBatches v.1
  ready.foldl (fun s v => e.castVote
    { s with pendingAvailabilityVotes := s.pendingAvailabilityVotes.erase v.1.digest } v.1 v.2.1) s

/-! ### Worker batches -/

variable (digest : Digest)

/-- `cache_batch`. -/
def cacheBatch : EngineState :=
  if digest ∈ s.batches then s
  else
    { s with
      batches := insert digest s.batches
      batchSeenRound := s.batchSeenRound.insert digest s.nextRound }

/-- `admit_gossiped_batch` with `decide_batch_admission`, without the copy on disk. -/
def admitGossipedBatch : EngineState :=
  if digest ∈ s.wantedBatches then cacheBatch s digest
  else if digest ∈ s.batches then s
  else
    let count := (s.speculativeBatches.lookup (sender, s.nextRound)).getD 0
    if speculativeBatchesPerValidatorRound ≤ count then s
    else
      cacheBatch
        { s with
          speculativeBatches := s.speculativeBatches.insert (sender, s.nextRound) (count + 1) }
        digest

/-- The handler of `WorkerBatchGossip` and `WorkerBatchResponse`. -/
def handleWorkerBatch : EngineState :=
  if s.schedule.isKnownInAnyCommittee sender then
    e.tryCastAvailableVotes (admitGossipedBatch s sender digest)
  else s

/-! ### Certificates and own proposals -/

/-- The handler of `CertificateBroadcast`. -/
def handleCertificateBroadcast (cert : Certificate) :
    EngineState :=
  if verifyCertificate cert (s.schedule.forRound cert.vertex.round) e.chainId then
    requestMissing { s with dag := s.dag.insert cert } cert.vertex sender
  else s

/-- `record_vote`: a vote for the own pending vertex, certified once its votes carry quorum
stake of the current committee. -/
def recordVote (voter : ValidatorId)
    (signature : MultiSignature) : EngineState :=
  match s.ownPendingVertex with
  | none => s
  | some (vertex, _) =>
    if vertex.digest ≠ digest then s
    else
      let votes := ((s.pendingVotes.lookup digest).getD ∅).insert voter signature
      if (votes.keys.map s.validators.stakeOf).sum < s.validators.quorumThreshold then
        { s with pendingVotes := s.pendingVotes.insert digest votes }
      else
        let cert : Certificate := ⟨vertex, votes.entries.map fun v => (v.1, v.2)⟩
        { s with
          ownPendingVertex := none
          pendingVotes := s.pendingVotes.erase digest
          dag := s.dag.insert cert
          ownLastCertificate := some cert }

/-- The handler of `Vote`. -/
def handleVote
    (signature : MultiSignature) : EngineState :=
  match s.validators.get sender with
  | none => s
  | some info =>
    if verifyVertexVote info.pubkeyBundle e.chainId digest signature then
      recordVote s digest sender signature
    else s

/-- The gate of `propose_round`: the round before has a quorum of certificates, or the own
stake alone is one. -/
def mayPropose : Bool :=
  if s.nextRound = 0 then true
  else
    let prev := s.schedule.forRound (s.nextRound - 1)
    decide (prev.quorumThreshold ≤ prev.stakeOf e.selfId) ||
      canAdvanceRound s.dag s.schedule (s.nextRound - 1)

/-- The vertex `propose_round` proposes, over the given batches of its own. -/
def proposedVertex : Vertex where
  round := s.nextRound
  author := e.selfId
  batchDigests := batchDigests
  parents :=
    if s.nextRound = 0 then []
    else
      ((s.dag.certificatesInRound (s.nextRound - 1)).map Certificate.digest).insertionSort (· ≤ ·)

/-- `propose_round`. A pending proposal is only sent again. -/
def proposeRound : EngineState :=
  if s.ownPendingVertex.isSome then s
  else if !e.mayPropose s then s
  else
    let vertex := e.proposedVertex s batchDigests
    let s :=
      { s with
        batches := s.batches ∪ (batchDigests.map (·.2)).toFinset
        batchSeenRound :=
          batchDigests.foldl (fun m b => m.orInsert b.2 s.nextRound) s.batchSeenRound }
    match e.signer.signOwnVote e.chainId s.nextRound vertex.digest with
    | none => s
    | some signature =>
      recordVote
        { s with
          ownPendingVertex := some (vertex, signature)
          nextRound := s.nextRound + 1
          votedFor := s.votedFor.insert (s.nextRound, e.selfId) vertex.digest
          votes := s.votes ++ [vertex] }
        vertex.digest e.selfId signature

/-! ### The retention tick -/

/-- One piece of evidence per author is kept. -/
def capEvidence : EngineState :=
  let firstOf := fun (key : ℕ × ValidatorId) =>
    (s.equivocationEvidence.keys.find? fun k => k.2 = key.2) = some key
  { s with equivocationEvidence := s.equivocationEvidence.retain fun key _ => firstOf key }

/-- What `prune_stale_round_state` forgets below the round horizon. -/
def pruneRoundState : EngineState :=
  if s.roundHorizon = 0 then s
  else
    { s with
      votedFor := s.votedFor.retain fun key _ => decide (s.roundHorizon ≤ key.1)
      firstSeenVertex := s.firstSeenVertex.retain fun key _ => decide (s.roundHorizon ≤ key.1)
      pendingCertRequests :=
        s.pendingCertRequests.retain fun _ v => decide (s.roundHorizon ≤ v.2)
      pendingBatchRequests :=
        s.pendingBatchRequests.retain fun _ v => decide (s.roundHorizon ≤ v.2)
      pendingVotesToSend :=
        s.pendingVotesToSend.retain fun _ v => decide (s.roundHorizon ≤ v.2.2)
      pendingAvailabilityVotes :=
        s.pendingAvailabilityVotes.retain fun _ v => decide (s.roundHorizon ≤ v.2.2)
      wantedBatches := s.wantedBatches.retain fun _ round => decide (s.roundHorizon ≤ round)
      speculativeBatches :=
        s.speculativeBatches.retain fun key _ => decide (s.roundHorizon ≤ key.2) }

/-- The batches cached before their horizons are evicted. -/
def pruneBatches : EngineState :=
  let seenBefore := fun (horizon : ℕ) (digest : Digest) =>
    ((s.batchSeenRound.lookup digest).map fun seen => decide (seen < horizon)).getD false
  let batchHorizon := s.nextRound - batchRetentionRounds
  let diskFloor := s.consensus.finalizedFloor - dagRetentionRounds
  { s with
    batches := s.batches.filter fun d => ¬ seenBefore batchHorizon d ∧ ¬ seenBefore diskFloor d
    batchSeenRound := s.batchSeenRound.retain fun _ seen => decide (diskFloor ≤ seen) }

/-- The DAG is garbage-collected below the finalized floor less the retention. -/
def pruneDag : EngineState :=
  let gcFloor := s.consensus.finalizedFloor - dagRetentionRounds
  if s.consensus.gcFloor < gcFloor then
    { s with
      dag := (s.dag.pruneBelow gcFloor).1
      consensus := (s.consensus.forgetSeen (s.dag.pruneBelow gcFloor).2).setGcFloor gcFloor
      schedule :=
        if e.hasCommitteeLog then (s.schedule.pruneEpochsBelow gcFloor).1 else s.schedule }
  else s

/-- `prune_stale_round_state`. -/
def pruneStaleRoundState : EngineState :=
  e.pruneDag (pruneBatches (capEvidence (pruneRoundState s)))

/-! ### Ordering and rotation -/

/-- The ordering half of `try_commit`. -/
def advanceOrder : EngineState :=
  { s with consensus := (s.consensus.advance s.dag s.schedule).1 }

/-- The ratchet of `try_commit`: once the frontier epoch is finalized, the next epoch's
committee is installed and the frontier raised. Which committee the registry yields, and
whether execution has caught up, is left to the caller. -/
def ratchet (committee : ValidatorSet) : EngineState :=
  let frontier := s.schedule.frontierEpoch
  if frontier ≠ u64Max ∧ satMul (frontier + 1) s.schedule.epochRounds ≤ s.consensus.finalizedFloor
  then
    { s with
      schedule := s.schedule.rotate committee
      validators := committee }
  else s

/-- A process restart as `main` does it. The certificates, batches and committees are those found
on disk, and everything else is lost. The round to resume at is the one persisted, the one of a
snapshot that was installed, or 0 without a data directory. -/
def restart (nextRound : ℕ) (schedule : ValidatorSchedule) (certs : List Certificate)
    (batches : List Digest) : EngineState :=
  let dag := certs.foldl DagStore.insert .new
  let committee := schedule.forRound nextRound
  let fresh :=
    if committee.quorumThreshold ≤ committee.stakeOf e.selfId then
      ConsensusState.resumingFrom nextRound
    else .new
  let consensus := if certs.isEmpty then fresh else fresh.setGcFloor dag.lowestRound
  boot schedule dag consensus nextRound batches.toFinset
    (batches.foldl (fun m d => m.insert d nextRound) ∅) s.votes

end Engine

/-! ### Runs -/

/-- What can happen to a node. -/
inductive NodeEvent where
  | vertexProposal (sender : ValidatorId) (vertex : Vertex) (signature : MultiSignature)
  | vote (sender : ValidatorId) (digest : Digest) (signature : MultiSignature)
  | certificateBroadcast (sender : ValidatorId) (cert : Certificate)
  | workerBatch (sender : ValidatorId) (digest : Digest)
  /-- The round tick proposes over the node's own batches. -/
  | propose (batchDigests : List (WorkerId × Digest))
  /-- The tick's backstop for deferred votes. -/
  | castAvailable
  | prune
  | advance
  | ratchet (committee : ValidatorSet)
  | restart (nextRound : ℕ) (schedule : ValidatorSchedule) (certs : List Certificate)
    (batches : List Digest)

/-- The process is restarted. -/
def NodeEvent.isRestart : NodeEvent → Bool
  | .restart .. => true
  | _ => false

namespace Engine

variable (e : Engine)

/-- One event. -/
def step (s : EngineState) : NodeEvent → EngineState
  | .vertexProposal sender vertex signature => e.handleVertexProposal s sender vertex signature
  | .vote sender digest signature => e.handleVote s sender digest signature
  | .certificateBroadcast sender cert => e.handleCertificateBroadcast s sender cert
  | .workerBatch sender digest => e.handleWorkerBatch s sender digest
  | .propose batchDigests => e.proposeRound s batchDigests
  | .castAvailable => e.tryCastAvailableVotes s
  | .prune => e.pruneStaleRoundState s
  | .advance => advanceOrder s
  | .ratchet committee => ratchet s committee
  | .restart nextRound schedule certs batches => e.restart s nextRound schedule certs batches

/-- A whole run. -/
def run (s : EngineState) (events : List NodeEvent) : EngineState := Run.run e.step s events

end Engine

end QChain
