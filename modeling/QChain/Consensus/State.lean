import QChain.Consensus.Bullshark
import QChain.System.Run

/-!
# Driving the order forward

The state of `qchain-consensus/src/lib.rs`: certificate verification, the
`ConsensusState` that remembers what was emitted, and the runs of a replica, a store
and a consensus state fed certificates, `advance` calls and pruning steps in any
order.
-/

namespace QChain

variable [Crypto]

/-! ### Certificate verification -/

/-- One signature of `verify_certificate`: the signers counted so far and their stake. -/
def countSignature (validators : ValidatorSet) (chainId digest : Bytes32)
    (acc : Finset ValidatorId × ℕ) (entry : ValidatorId × MultiSignature) :
    Finset ValidatorId × ℕ :=
  if entry.1 ∈ acc.1 then acc
  else
    match validators.get entry.1 with
    | none => (insert entry.1 acc.1, acc.2)
    | some info =>
      if verifyVertexVote info.pubkeyBundle chainId digest entry.2 then
        (insert entry.1 acc.1, satAdd acc.2 info.stake)
      else (insert entry.1 acc.1, acc.2)

/-- A certificate carries quorum stake of valid signatures of distinct members. -/
def verifyCertificate (cert : Certificate) (validators : ValidatorSet) (chainId : Bytes32) :
    Bool :=
  let signed := cert.signatures.foldl (countSignature validators chainId cert.digest) (∅, 0)
  validators.quorumThreshold ≤ signed.2

/-- A validator may start round `round + 1` once it holds a quorum of `round`. -/
def canAdvanceRound (dag : DagStore) (schedule : ValidatorSchedule) (round : ℕ) : Bool :=
  let validators := schedule.forRound round
  validators.quorumThreshold ≤
    ((dag.certificatesInRound round).map fun c => validators.stakeOf c.vertex.author).sum

/-! ### The consensus state -/

/-- What a node remembers between two `advance` calls. -/
structure ConsensusState where
  seen : Finset Digest
  fromRound : ℕ
  finalizedFloor : ℕ
  gcFloor : ℕ
  committedCache : Map ℕ Digest

namespace ConsensusState

/-- A fresh validator. -/
def new : ConsensusState := ⟨∅, 0, 0, 0, ∅⟩

/-- A validator resuming at a persisted round without its DAG. -/
def resumingFrom (startingRound : ℕ) : ConsensusState :=
  ⟨∅, startingRound, startingRound, 0, ∅⟩

variable (s : ConsensusState)

/-- Raise the GC barrier; the cache below it is dropped. -/
def setGcFloor (round : ℕ) : ConsensusState where
  seen := s.seen
  gcFloor := if s.gcFloor < round then round else s.gcFloor
  committedCache :=
    if s.gcFloor < round then s.committedCache.retain fun r _ => decide (round ≤ r)
    else s.committedCache
  fromRound := if s.fromRound < round then round else s.fromRound
  finalizedFloor := if s.finalizedFloor < round then round else s.finalizedFloor

omit [Crypto] in
/-- Raising the barrier raises the rounds it bounds. -/
theorem setGcFloor_eq (round : ℕ) :
    (s.setGcFloor round).gcFloor = max s.gcFloor round ∧
      (s.setGcFloor round).fromRound = max s.fromRound round ∧
      (s.setGcFloor round).finalizedFloor = max s.finalizedFloor round := by
  have hmax : ∀ n : ℕ, (if n < round then round else n) = max n round := by
    intro n
    split_ifs with hlt
    · exact (max_eq_right hlt.le).symm
    · exact (max_eq_left (Nat.not_lt.1 hlt)).symm
  exact ⟨hmax _, hmax _, hmax _⟩

omit [Crypto] in
/-- Cached commits from the barrier on stay. -/
theorem lookup_setGcFloor {round k : ℕ} (hk : round ≤ k) :
    (s.setGcFloor round).committedCache.lookup k = s.committedCache.lookup k := by
  simp only [setGcFloor]
  split_ifs
  · exact Map.lookup_retain_of_pos fun _ => decide_eq_true hk
  · rfl

omit [Crypto] in
/-- A fresh state behind a barrier. -/
theorem setGcFloor_new (round : ℕ) : new.setGcFloor round = ⟨∅, round, round, round, ∅⟩ := by
  rcases Nat.eq_zero_or_pos round with rfl | hpos
  · rfl
  · simp only [setGcFloor, new, hpos, if_true]
    rfl

/-- Forget the digests the store dropped. -/
def forgetSeen (digests : List Digest) : ConsensusState :=
  { s with seen := s.seen \ digests.toFinset }

/-- The last round `advance` looks at. -/
def upTo (dag : DagStore) (schedule : ValidatorSchedule) : ℕ :=
  min dag.highestRound schedule.resolvableFrontierRound

/-- Resolve the DAG as far as it goes; returns the newly finalized digests. -/
def advance (dag : DagStore) (schedule : ValidatorSchedule) :
    ConsensusState × List Digest :=
  let (st, stoppedAt) := Bullshark.extendOrder ⟨dag, schedule, s.gcFloor⟩ s.fromRound
    (upTo dag schedule) s.seen s.committedCache
  ({ s with
      seen := st.seen
      committedCache := st.committedCache
      finalizedFloor := if s.finalizedFloor < stoppedAt then stoppedAt else s.finalizedFloor },
    st.ordered)

/-- The floor is the highest round any pass has stopped at. -/
theorem finalizedFloor_advance (dag : DagStore)
    (schedule : ValidatorSchedule) :
    (s.advance dag schedule).1.finalizedFloor = max s.finalizedFloor
      (Bullshark.extendOrder ⟨dag, schedule, s.gcFloor⟩ s.fromRound (upTo dag schedule) s.seen
        s.committedCache).2 := by
  simp only [advance]
  split_ifs with hlt
  · exact (max_eq_right hlt.le).symm
  · exact (max_eq_left (Nat.not_lt.1 hlt)).symm

end ConsensusState

/-! ### Replicas -/

/-- A store, the consensus state over it, and everything `advance` returned so far. -/
structure Replica where
  schedule : ValidatorSchedule
  dag : DagStore
  consensus : ConsensusState
  output : List Digest

/-- What a node does to its store and consensus state. -/
inductive Event where
  /-- A certificate enters the store. -/
  | insert (cert : Certificate)
  /-- The order is extended. -/
  | advance
  /-- The store is garbage-collected below a round, as `prune_stale_round_state` does. -/
  | prune (round : ℕ)
  /-- The node installs committees or moves the frontier. -/
  | reschedule (schedule : ValidatorSchedule)

/-- The certificates a run inserts. -/
def inserted (events : List Event) : List Certificate :=
  events.filterMap fun
    | .insert cert => some cert
    | _ => none

omit [Crypto] in
theorem mem_inserted {events : List Event} {cert : Certificate} :
    cert ∈ inserted events ↔ Event.insert cert ∈ events := by
  rw [inserted, List.mem_filterMap]
  constructor
  · rintro ⟨e, he, hcert⟩
    cases e with
    | insert c =>
      cases hcert
      exact he
    | advance | prune round | reschedule schedule => cases hcert
  · intro h
    exact ⟨.insert cert, h, rfl⟩

namespace Replica

/-- The ordering rule over the replica's store, as `advance` evaluates it. -/
abbrev bullshark (r : Replica) : Bullshark := ⟨r.dag, r.schedule, r.consensus.gcFloor⟩

/-- The last round `advance` looks at. -/
abbrev upTo (r : Replica) : ℕ := ConsensusState.upTo r.dag r.schedule

/-- A fresh node with an empty store. -/
def new (schedule : ValidatorSchedule) : Replica := ⟨schedule, .new, .new, []⟩

/-- One event. -/
def step (r : Replica) : Event → Replica
  | .insert cert => { r with dag := r.dag.insert cert }
  | .advance =>
    let (consensus, ordered) := r.consensus.advance r.dag r.schedule
    { r with consensus := consensus, output := r.output ++ ordered }
  | .prune round =>
    let (dag, removed) := r.dag.pruneBelow round
    { r with dag := dag, consensus := (r.consensus.forgetSeen removed).setGcFloor round }
  | .reschedule schedule => { r with schedule := schedule }

/-- A whole run. -/
def run (r : Replica) (events : List Event) : Replica := Run.run step r events

end Replica

end QChain
