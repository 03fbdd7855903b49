import QChain.Node.Frames

/-!
# One vote per round and author

A validator records the digest of the vertex it votes for under its round and author, and refuses
a different one as long as the record is there. The record is in memory only and is dropped once
the round is `ROUND_STATE_RETENTION` rounds behind. For its own vertices the lock is the round
number, as long as a restart does not go back to an earlier one. The vertices a validator has voted
for, or will vote for once their batches arrive, are those it has *promised*.
-/

namespace QChain

open EngineState List

section Handlers

variable [Crypto] {e : Engine}

namespace Engine

/-! ### What the handlers vote for -/

section

variable (s : EngineState)

include s

variable (vertex : Vertex) (recipient : ValidatorId)

theorem castVote_nextRound :
    (e.castVote s vertex recipient).nextRound = s.nextRound := by
  unfold castVote
  split <;> rfl

theorem castVote_votedFor :
    (e.castVote s vertex recipient).votedFor = s.votedFor := by
  unfold castVote
  split <;> rfl

theorem votesFor_castVote :
    VotesFor s (e.castVote s vertex recipient) (· = vertex) := by
  unfold castVote
  split
  · exact .of_sameLocks (.refl s)
  · exact ⟨fun v hv => Or.inl hv, [vertex], rfl, fun v hv => Or.inr (mem_singleton.1 hv)⟩

variable (sender : ValidatorId)

theorem attest_nextRound :
    (e.attest s vertex sender).nextRound = s.nextRound := by
  unfold attest
  split_ifs
  · exact castVote_nextRound s vertex sender
  · rfl

theorem attest_votedFor :
    (e.attest s vertex sender).votedFor = s.votedFor := by
  unfold attest
  split_ifs
  · exact castVote_votedFor s vertex sender
  · rfl

theorem votesFor_attest :
    VotesFor s (e.attest s vertex sender) (· = vertex) := by
  unfold attest
  split_ifs
  · exact votesFor_castVote s vertex sender
  · refine ⟨fun v hv => ?_, [], (append_nil _).symm, fun v hv => absurd hv not_mem_nil⟩
    obtain ⟨d, x, hv⟩ := hv
    rw [Map.lookup_insert_eq] at hv
    split_ifs at hv
    · cases hv
      exact Or.inr rfl
    · exact Or.inl ⟨d, x, hv⟩

/-- Casting deferred votes changes nothing about the lock. -/
theorem tryCastAvailableVotes_spec : (e.tryCastAvailableVotes s).nextRound = s.nextRound ∧
      (e.tryCastAvailableVotes s).votedFor = s.votedFor ∧
      VotesFor s (e.tryCastAvailableVotes s) fun _ => False := by
  let Spec : EngineState → Prop := fun t =>
    t.nextRound = s.nextRound ∧ t.votedFor = s.votedFor ∧ VotesFor s t fun _ => False
  -- every vote cast in the loop was deferred in `s`
  have hloop : ∀ (l : List (Vertex × ValidatorId × ℕ)) (t : EngineState),
      (∀ x ∈ l, s.Deferred x.1) → Spec t →
      Spec (l.foldl (fun s v => e.castVote
        { s with pendingAvailabilityVotes := s.pendingAvailabilityVotes.erase v.1.digest }
        v.1 v.2.1) t) := by
    intro l
    induction l with
    | nil => exact fun t _ ht => ht
    | cons x l ih =>
      intro t hl ht
      apply ih
      · exact fun y hy => hl y (mem_cons_of_mem x hy)
      · obtain ⟨cast, hcast, hall⟩ := ht.2.2.votes
        have hx := hl x (mem_cons_self ..)
        have hnew := e.votesFor_castVote
          { t with pendingAvailabilityVotes := t.pendingAvailabilityVotes.erase x.1.digest }
          x.1 x.2.1
        have herase : ∀ v, EngineState.Deferred
            { t with pendingAvailabilityVotes := t.pendingAvailabilityVotes.erase x.1.digest } v →
            s.Deferred v ∨ False := by
          intro v hv
          obtain ⟨d, y, hv⟩ := hv
          rw [Map.lookup_erase_eq] at hv
          split_ifs at hv
          exact ht.2.2.deferred v ⟨d, y, hv⟩
        refine ⟨(castVote_nextRound _ _ _).trans ht.1, (castVote_votedFor _ _ _).trans ht.2.1,
          fun v hv => ?_, ?_⟩
        · rcases hnew.deferred v hv with hv | rfl
          · exact herase v hv
          · exact Or.inl hx
        · obtain ⟨cast', hcast', hall'⟩ := hnew.votes
          refine ⟨cast ++ cast', by rw [hcast', hcast, append_assoc], fun v hv => ?_⟩
          rcases mem_append.1 hv with hv | hv
          · exact hall v hv
          · rcases hall' v hv with hv | rfl
            · exact herase v hv
            · exact Or.inl hx
  refine hloop _ s (fun x hx => ?_) ⟨rfl, rfl, .of_sameLocks (.refl s)⟩
  obtain ⟨d, hd⟩ := Map.mem_values.1 (mem_of_mem_filter hx)
  exact ⟨d, x.2, hd⟩

end

/-- The proposal passes all checks, the lock included. -/
def Accepts (e : Engine) (s : EngineState) (sender : ValidatorId) (vertex : Vertex)
    (signature : MultiSignature) : Prop :=
  (e.validProposal s sender vertex signature).isSome ∧
    vertex.round ≤ satAdd s.nextRound maxRoundLookahead ∧
    ∀ d, s.votedFor.lookup (vertex.round, vertex.author) = some d → d = vertex.digest

variable (s : EngineState)

/-- A proposal is dropped, or it is accepted: its digest is then on record and the vote is
cast or deferred. -/
theorem handleVertexProposal_cases (sender : ValidatorId) (vertex : Vertex)
    (signature : MultiSignature) :
    (¬ e.Accepts s sender vertex signature ∧
        SameLocks s (e.handleVertexProposal s sender vertex signature)) ∨
      (e.Accepts s sender vertex signature ∧
        ∃ t, e.handleVertexProposal s sender vertex signature = e.attest t vertex sender ∧
          t.nextRound = s.nextRound ∧
          t.pendingAvailabilityVotes = s.pendingAvailabilityVotes ∧ t.votes = s.votes ∧
          ∀ k, t.votedFor.lookup k =
            if k = (vertex.round, vertex.author) then some vertex.digest
            else s.votedFor.lookup k) := by
  unfold handleVertexProposal Accepts
  cases hvalid : e.validProposal s sender vertex signature with
  | none => exact Or.inl ⟨fun h => (by cases h.1), .refl s⟩
  | some info =>
    have hreq := sameLocks_requestMissing s vertex sender
    dsimp only
    rw [hreq.nextRound]
    split_ifs
    · exact Or.inl ⟨fun h => absurd h.2.1 (by omega), hreq⟩
    · have hsame := hreq.trans (sameLocks_recordFirstSeen (requestMissing s vertex sender) vertex
        signature info.pubkeyBundle)
      have hround : vertex.round ≤ satAdd s.nextRound maxRoundLookahead := by omega
      rw [hsame.votedFor]
      cases hlook : s.votedFor.lookup (vertex.round, vertex.author) with
      | some existing =>
        dsimp only
        split_ifs with hne
        · exact Or.inl ⟨fun h => hne (h.2.2 existing rfl), hsame⟩
        · have heq : existing = vertex.digest := not_not.1 hne
          refine Or.inr ⟨⟨rfl, hround, fun d hd => ?_⟩, _, rfl, hsame.nextRound,
            hsame.pending, hsame.votes, fun k => ?_⟩
          · cases hd
            exact heq
          · rw [hsame.votedFor]
            split_ifs with hk
            · rw [hk, hlook, heq]
            · rfl
      | none =>
        refine Or.inr ⟨⟨rfl, hround, fun d hd => (by cases hd)⟩, _, rfl, hsame.nextRound,
          hsame.pending, hsame.votes, fun k => ?_⟩
        rw [Map.lookup_insert_eq]

/-- A tick proposes nothing, or a vertex of the next round. -/
theorem proposeRound_cases (batchDigests : List (WorkerId × Digest)) :
    SameLocks s (e.proposeRound s batchDigests) ∨
      ((e.proposeRound s batchDigests).nextRound = s.nextRound + 1 ∧
        VotesFor s (e.proposeRound s batchDigests) (· = e.proposedVertex s batchDigests) ∧
        ∀ k, k.2 ≠ e.selfId →
          (e.proposeRound s batchDigests).votedFor.lookup k = s.votedFor.lookup k) := by
  unfold proposeRound
  split_ifs
  · exact Or.inl (.refl s)
  · exact Or.inl (.refl s)
  · dsimp only
    split
    · exact Or.inl ⟨rfl, rfl, rfl, rfl⟩
    · right
      have hsame := fun t => sameLocks_recordVote t (e.proposedVertex s batchDigests).digest
        e.selfId
      refine ⟨(hsame _ _).nextRound, ⟨fun v hv => ?_, [e.proposedVertex s batchDigests],
        (hsame _ _).votes, fun v hv => Or.inr (mem_singleton.1 hv)⟩, fun k hk => ?_⟩
      · rw [(hsame _ _).deferred_iff] at hv
        exact Or.inl hv
      · rw [(hsame _ _).votedFor, Map.lookup_insert_eq, if_neg]
        rintro rfl
        exact hk rfl

omit [Crypto] in
/-- The retention tick drops the records below the horizon and nothing else of the lock. -/
theorem pruneStaleRoundState_spec :
    (e.pruneStaleRoundState s).nextRound = s.nextRound ∧
      VotesFor s (e.pruneStaleRoundState s) (fun _ => False) ∧
      ∀ k, s.roundHorizon ≤ k.1 →
        (e.pruneStaleRoundState s).votedFor.lookup k = s.votedFor.lookup k := by
  have hrest : SameLocks (pruneRoundState s) (e.pruneStaleRoundState s) := by
    have hcap := sameLocks_capEvidence (pruneRoundState s)
    exact (hcap.trans (sameLocks_pruneBatches _)).trans (e.sameLocks_pruneDag _)
  have hvotes : (pruneRoundState s).votes = s.votes := by
    unfold pruneRoundState
    split_ifs <;> rfl
  refine ⟨hrest.nextRound.trans ?_, ⟨fun v hv => Or.inl ?_, [], ?_, fun v hv =>
    absurd hv not_mem_nil⟩, fun k hk => ?_⟩
  · unfold pruneRoundState
    split_ifs <;> rfl
  · rw [hrest.deferred_iff] at hv
    unfold pruneRoundState at hv
    split_ifs at hv
    · exact hv
    · obtain ⟨d, x, hv⟩ := hv
      rw [Map.lookup_retain, Option.filter_eq_some_iff] at hv
      exact ⟨d, x, hv.1⟩
  · rw [append_nil, hrest.votes, hvotes]
  · rw [hrest.votedFor]
    unfold pruneRoundState
    split_ifs
    · rfl
    · rw [Map.lookup_retain_of_pos]
      intro _
      rw [decide_eq_true_eq]
      exact hk

/-! ### One step -/

omit [Crypto] in
/-- A restart resumes at the round before it, or later. -/
def ResumesAhead (s : EngineState) : NodeEvent → Prop
  | .restart nextRound .. => s.nextRound ≤ nextRound
  | _ => True

theorem nextRound_le_step {event : NodeEvent} (hresumes : ResumesAhead s event) :
    s.nextRound ≤ (e.step s event).nextRound := by
  cases event with
  | vertexProposal sender vertex signature =>
    rcases e.handleVertexProposal_cases s sender vertex signature with
      ⟨-, h⟩ | ⟨-, t, ht, hnext, -⟩
    · exact h.nextRound.ge
    · show _ ≤ (e.handleVertexProposal s sender vertex signature).nextRound
      rw [ht, attest_nextRound, hnext]
  | vote sender digest signature => exact (e.sameLocks_handleVote s sender digest _).nextRound.ge
  | certificateBroadcast sender cert =>
    exact (e.sameLocks_handleCertificateBroadcast s sender cert).nextRound.ge
  | workerBatch sender digest =>
    show _ ≤ (e.handleWorkerBatch s sender digest).nextRound
    unfold handleWorkerBatch
    split_ifs
    · rw [(tryCastAvailableVotes_spec _).1,
        (sameLocks_admitGossipedBatch s sender digest).nextRound]
    · exact le_rfl
  | propose batchDigests =>
    rcases e.proposeRound_cases s batchDigests with h | ⟨h, -⟩
    · exact h.nextRound.ge
    · exact (Nat.le_succ _).trans h.ge
  | castAvailable => exact (tryCastAvailableVotes_spec s).1.ge
  | prune => exact (pruneStaleRoundState_spec s).1.ge
  | advance => exact le_rfl
  | ratchet committee => exact (sameLocks_ratchet s committee).nextRound.ge
  | restart nextRound schedule certs batches => exact hresumes

/-- Only an accepted proposal, or an own one for the next round, adds to what is promised. -/
theorem votesFor_step (event : NodeEvent) :
    VotesFor s (e.step s event) fun v =>
      (∃ sender signature, event = .vertexProposal sender v signature ∧
        e.Accepts s sender v signature) ∨
      (∃ batchDigests, event = .propose batchDigests ∧ v = e.proposedVertex s batchDigests ∧
        (e.step s event).nextRound = s.nextRound + 1) := by
  cases event with
  | vertexProposal sender vertex signature =>
    rcases e.handleVertexProposal_cases s sender vertex signature with
      ⟨-, hsame⟩ | ⟨haccepts, t, ht, -, hpending, hvotes, -⟩
    · exact .of_sameLocks hsame
    · rw [step, ht]
      refine ((e.votesFor_attest t vertex sender).of_eq hpending hvotes).mono fun v hv => ?_
      subst hv
      exact Or.inl ⟨sender, signature, rfl, haccepts⟩
  | vote sender digest signature =>
    exact .of_sameLocks (e.sameLocks_handleVote s sender digest signature)
  | certificateBroadcast sender cert =>
    exact .of_sameLocks (e.sameLocks_handleCertificateBroadcast s sender cert)
  | workerBatch sender digest =>
    rw [step, handleWorkerBatch]
    have hadmit := sameLocks_admitGossipedBatch s sender digest
    split_ifs
    · refine VotesFor.of_eq hadmit.pending hadmit.votes ?_
      exact (tryCastAvailableVotes_spec _).2.2.mono fun v hv => hv.elim
    · exact .of_sameLocks (.refl s)
  | propose batchDigests =>
    rcases e.proposeRound_cases s batchDigests with hsame | ⟨hnext, hvotes, -⟩
    · exact .of_sameLocks hsame
    · refine hvotes.mono fun v hv => ?_
      exact Or.inr ⟨batchDigests, rfl, hv, hnext⟩
  | castAvailable => exact (tryCastAvailableVotes_spec s).2.2.mono fun v hv => hv.elim
  | prune => exact (pruneStaleRoundState_spec s).2.1.mono fun v hv => hv.elim
  | advance => exact .of_sameLocks ⟨rfl, rfl, rfl, rfl⟩
  | ratchet committee => exact .of_sameLocks (sameLocks_ratchet s committee)
  | restart nextRound schedule certs batches =>
    -- deferred votes are lost, cast ones are not taken back
    refine ⟨fun v hv => ?_, [], (append_nil _).symm, fun v hv =>
      absurd hv not_mem_nil⟩
    obtain ⟨d, x, hv⟩ := hv
    cases hv

variable {s : EngineState} {events : List NodeEvent}

/-- What is promised after a step, and not before, is new. -/
theorem promised_step {event : NodeEvent} {v : Vertex} (h : (e.step s event).Promised v) :
    s.Promised v ∨
      (∃ sender signature, event = .vertexProposal sender v signature ∧
        e.Accepts s sender v signature) ∨
      (∃ batchDigests, event = .propose batchDigests ∧ v = e.proposedVertex s batchDigests ∧
        (e.step s event).nextRound = s.nextRound + 1) :=
  (e.votesFor_step s event).promised h

omit [Crypto] in
theorem roundHorizon_le {t : EngineState} (h : s.nextRound ≤ t.nextRound) :
    s.roundHorizon ≤ t.roundHorizon := Nat.sub_le_sub_right h _

/-- Accepting a proposal puts its digest on record. -/
theorem votedFor_of_accepts {sender : ValidatorId} {vertex : Vertex} {signature : MultiSignature}
    (h : e.Accepts s sender vertex signature) :
    (e.step s (.vertexProposal sender vertex signature)).votedFor.lookup
      (vertex.round, vertex.author) = some vertex.digest := by
  rcases e.handleVertexProposal_cases s sender vertex signature with
    ⟨hnot, -⟩ | ⟨-, t, ht, -, -, -, hlook⟩
  · exact absurd h hnot
  · rw [step, ht, attest_votedFor, hlook, if_pos rfl]

/-- A record about a peer stays until a restart, or until its round is below the horizon. -/
theorem votedFor_step {event : NodeEvent} {k : ℕ × ValidatorId} {d : Digest}
    (hself : k.2 ≠ e.selfId) (hrestart : event.isRestart = false)
    (h : s.votedFor.lookup k = some d) :
    k.1 < s.roundHorizon ∨ (e.step s event).votedFor.lookup k = some d := by
  cases event with
  | vertexProposal sender vertex signature =>
    right
    rcases e.handleVertexProposal_cases s sender vertex signature with
      ⟨-, hsame⟩ | ⟨haccepts, t, ht, -, -, -, hlook⟩
    · rw [step, hsame.votedFor, h]
    · rw [step, ht, attest_votedFor, hlook]
      split_ifs with hk
      · rw [haccepts.2.2 d (hk ▸ h)]
      · exact h
  | vote sender digest signature =>
    right
    rw [step, (e.sameLocks_handleVote s sender digest signature).votedFor, h]
  | certificateBroadcast sender cert =>
    right
    rw [step, (e.sameLocks_handleCertificateBroadcast s sender cert).votedFor, h]
  | workerBatch sender digest =>
    right
    rw [step, handleWorkerBatch]
    split_ifs
    · rw [(tryCastAvailableVotes_spec _).2.1,
        (sameLocks_admitGossipedBatch s sender digest).votedFor, h]
    · exact h
  | propose batchDigests =>
    right
    rcases e.proposeRound_cases s batchDigests with hsame | ⟨-, -, hlook⟩
    · rw [step, hsame.votedFor, h]
    · rw [step, hlook k hself, h]
  | castAvailable =>
    right
    rw [step, (tryCastAvailableVotes_spec s).2.1, h]
  | prune =>
    rcases Nat.lt_or_ge k.1 s.roundHorizon with hlt | hge
    · exact Or.inl hlt
    · right
      rw [step, (pruneStaleRoundState_spec s).2.2 k hge, h]
  | advance => exact Or.inr h
  | ratchet committee =>
    right
    rw [step, (sameLocks_ratchet s committee).votedFor, h]
  | restart nextRound schedule certs batches => cases hrestart

/-! ### Runs -/

omit [Crypto] in
theorem resumesAhead_of_isRestart {event : NodeEvent} (h : event.isRestart = false) :
    ResumesAhead s event := by
  cases event with
  | restart => cases h
  | _ => trivial

theorem nextRound_le_run (hrestart : ∀ event ∈ events, event.isRestart = false) :
    s.nextRound ≤ (e.run s events).nextRound := by
  refine Run.induction (P := fun t : EngineState => s.nextRound ≤ t.nextRound) le_rfl ?_
  intro t event hevent ht
  exact ht.trans (nextRound_le_step t (resumesAhead_of_isRestart (hrestart event hevent)))

/-- Over a stretch without restart a record stays, unless its round falls below the horizon. -/
theorem votedFor_run {k : ℕ × ValidatorId} {d : Digest} (hself : k.2 ≠ e.selfId)
    (hrestart : ∀ event ∈ events, event.isRestart = false) (h : s.votedFor.lookup k = some d) :
    k.1 < (e.run s events).roundHorizon ∨ (e.run s events).votedFor.lookup k = some d := by
  refine Run.induction
    (P := fun t : EngineState => k.1 < t.roundHorizon ∨ t.votedFor.lookup k = some d) (Or.inr h) ?_
  intro t event hevent ht
  have hmono := roundHorizon_le
    (e.nextRound_le_step t (resumesAhead_of_isRestart (hrestart event hevent)))
  rcases ht with ht | ht
  · exact Or.inl (ht.trans_le hmono)
  · rcases votedFor_step hself (hrestart event hevent) ht with hlt | hlook
    · exact Or.inl (hlt.trans_le hmono)
    · exact Or.inr hlook

/-- A promise made to a peer goes back to a proposal that was accepted. -/
theorem exists_accepts_of_promised {v : Vertex} (hself : v.author ≠ e.selfId)
    (hstart : ¬ s.Promised v) (h : (e.run s events).Promised v) :
    ∃ before sender signature after,
      events = before ++ .vertexProposal sender v signature :: after ∧
        e.Accepts (e.run s before) sender v signature := by
  induction events using List.reverseRecOn with
  | nil => exact absurd h hstart
  | append_singleton events event ih =>
    rw [run, Run.run_concat] at h
    rcases promised_step h with h | ⟨sender, signature, rfl, haccepts⟩ | ⟨batches, -, hv, -⟩
    · obtain ⟨before, sender, signature, after, heq, haccepts⟩ := ih h
      refine ⟨before, sender, signature, after ++ [event], ?_, haccepts⟩
      rw [heq, append_assoc, cons_append]
    · exact ⟨events, sender, signature, [], rfl, haccepts⟩
    · exact absurd (congrArg Vertex.author hv) hself

/-! ### The lock over a lifetime -/

/-- Of two conflicting proposals the later one arrives before a restart, and while its round
is at or above the horizon. -/
def ConflictsMeetLock (e : Engine) (s : EngineState) (events : List NodeEvent) : Prop :=
  ∀ before sender v signature between sender' v' signature' after,
    events = before ++ .vertexProposal sender v signature ::
      (between ++ .vertexProposal sender' v' signature' :: after) →
    v.round = v'.round → v.author = v'.author → v.digest ≠ v'.digest →
      (∀ event ∈ between, event.isRestart = false) ∧
        (e.run s (before ++ .vertexProposal sender v signature :: between)).roundHorizon ≤ v'.round

/-- The own key is not forged: a proposal in the validator's own name that verifies is one it
has signed. -/
def OwnKeyUnforged (e : Engine) (s : EngineState) (events : List NodeEvent) : Prop :=
  ∀ before sender v signature after,
    events = before ++ .vertexProposal sender v signature :: after → v.author = e.selfId →
      (e.validProposal (e.run s before) sender v signature).isSome → v ∈ (e.run s before).votes

/-- A peer's proposal is not accepted after a conflicting one. -/
theorem ConflictsMeetLock.not_accepts (h : e.ConflictsMeetLock s events)
    {before between after : List NodeEvent} {sender sender' : ValidatorId} {v v' : Vertex}
    {signature signature' : MultiSignature}
    (heq : events = before ++ .vertexProposal sender v signature ::
      (between ++ .vertexProposal sender' v' signature' :: after)) (hround : v.round = v'.round)
    (hauthor : v.author = v'.author) (hself : v.author ≠ e.selfId) (hne : v.digest ≠ v'.digest)
    (haccepts : e.Accepts (e.run s before) sender v signature) :
    ¬ e.Accepts (e.run s (before ++ .vertexProposal sender v signature :: between)) sender' v'
      signature' := by
  intro haccepts'
  obtain ⟨hrestart, hhorizon⟩ := h _ _ _ _ _ _ _ _ _ heq hround hauthor hne
  have hrecord := votedFor_run hself hrestart (votedFor_of_accepts haccepts)
  have hrun : e.run s (before ++ .vertexProposal sender v signature :: between) =
      e.run (e.step (e.run s before) (.vertexProposal sender v signature)) between :=
    Run.run_append ..
  rw [← hrun] at hrecord
  rcases hrecord with hlt | hlook
  · have hlt : v.round < _ := hlt
    omega
  · rw [hround, hauthor] at hlook
    exact hne (haccepts'.2.2 _ hlook)

/-- Promises to peers agree on each round and author. -/
theorem digest_eq_of_promised_peer (h : e.ConflictsMeetLock s events) (hstart : ∀ v, ¬ s.Promised v)
    {v v' : Vertex} (hv : (e.run s events).Promised v) (hv' : (e.run s events).Promised v')
    (hround : v.round = v'.round) (hauthor : v.author = v'.author) (hself : v.author ≠ e.selfId) :
    v.digest = v'.digest := by
  obtain ⟨before, sender, signature, after, heq, hacc⟩ :=
    exists_accepts_of_promised hself (hstart v) hv
  obtain ⟨before', sender', signature', after', heq', hacc'⟩ :=
    exists_accepts_of_promised (hauthor ▸ hself) (hstart v') hv'
  by_contra hne
  -- one of the two proposals was accepted before the other
  rcases append_eq_append_iff.1 (heq.symm.trans heq') with ⟨l, hl, hl'⟩ | ⟨l, hl, hl'⟩
  · cases l with
    | nil =>
      cases hl'
      exact hne rfl
    | cons event between =>
      cases hl'
      rw [hl] at hacc'
      exact h.not_accepts heq hround hauthor hself hne hacc hacc'
  · cases l with
    | nil =>
      cases hl'
      exact hne rfl
    | cons event between =>
      cases hl'
      rw [hl] at hacc
      exact h.not_accepts heq' hround.symm hauthor.symm (hauthor ▸ hself) (Ne.symm hne) hacc'
        hacc

/-- Own vertices are one per round below the next one. -/
structure OwnVertices (e : Engine) (s : EngineState) : Prop where
  round_lt : ∀ v, s.Promised v → v.author = e.selfId → v.round < s.nextRound
  unique : ∀ v v', s.Promised v → s.Promised v' → v.author = e.selfId → v'.author = e.selfId →
    v.round = v'.round → v = v'

/-- An own vertex is promised once, when it is proposed. -/
theorem ownVertices_run (hresumes : Run.Meets e.step ResumesAhead s events)
    (hunforged : e.OwnKeyUnforged s events) (hstart : ∀ v, ¬ s.Promised v) :
    e.OwnVertices (e.run s events) := by
  induction events using List.reverseRecOn with
  | nil => exact ⟨fun v hv => absurd hv (hstart v), fun v v' hv => absurd hv (hstart v)⟩
  | append_singleton events event ih =>
    have hprefix : e.OwnKeyUnforged s events := by
      intro before sender v signature after heq
      apply hunforged before sender v signature (after ++ [event])
      rw [heq, append_assoc, cons_append]
    rw [Run.meets_append] at hresumes
    have h := ih hresumes.1 hprefix
    have hmono := e.nextRound_le_step (e.run s events) hresumes.2.1
    -- what is promised in the own name is there already, or proposed for the next round
    have hstep : ∀ v, (e.step (e.run s events) event).Promised v → v.author = e.selfId →
        (e.run s events).Promised v ∨ ∃ batchDigests, event = .propose batchDigests ∧
          v = e.proposedVertex (e.run s events) batchDigests ∧
          (e.step (e.run s events) event).nextRound = (e.run s events).nextRound + 1 := by
      intro v hv hauthor
      rcases promised_step hv with hv | ⟨sender, signature, rfl, hacc⟩ | hnew
      · exact Or.inl hv
      · exact Or.inl (Or.inl (hunforged events sender v signature [] rfl hauthor hacc.1))
      · exact Or.inr hnew
    rw [run, Run.run_concat]
    refine ⟨fun v hv hauthor => ?_, fun v v' hv hv' hauthor hauthor' hround => ?_⟩
    · rcases hstep v hv hauthor with hold | ⟨batches, -, rfl, hnext⟩
      · exact (h.round_lt v hold hauthor).trans_le hmono
      · exact hnext ▸ Nat.lt_succ_self _
    · rcases hstep v hv hauthor with hold | ⟨batches, hevent, hnew, -⟩
      · rcases hstep v' hv' hauthor' with hold' | ⟨batches', -, rfl, -⟩
        · exact h.unique v v' hold hold' hauthor hauthor' hround
        · exact absurd hround (h.round_lt v hold hauthor).ne
      · rcases hstep v' hv' hauthor' with hold' | ⟨batches', hevent', hnew', -⟩
        · rw [hnew] at hround
          exact absurd hround.symm (h.round_lt v' hold' hauthor').ne
        · rw [hevent] at hevent'
          cases hevent'
          rw [hnew, hnew']

/-- Over its whole life a validator votes for at most one vertex of each round and author,
its own included. -/
theorem vote_lock (schedule : ValidatorSchedule) (events : List NodeEvent)
    (hlock : e.ConflictsMeetLock (.genesis schedule) events)
    (hresumes : Run.Meets e.step ResumesAhead (.genesis schedule) events)
    (hunforged : e.OwnKeyUnforged (.genesis schedule) events) :
    ∀ v ∈ (e.run (.genesis schedule) events).votes,
      ∀ v' ∈ (e.run (.genesis schedule) events).votes,
        v.round = v'.round → v.author = v'.author → v.digest = v'.digest := by
  intro v hv v' hv' hround hauthor
  have hstart : ∀ v, ¬ (genesis schedule).Promised v := by
    intro v h
    rcases h with h | ⟨d, x, h⟩
    · cases h
    · cases h
  by_cases hself : v.author = e.selfId
  · have hown := ownVertices_run hresumes hunforged hstart
    rw [hown.unique v v' (Or.inl hv) (Or.inl hv') hself (hauthor ▸ hself) hround]
  · exact digest_eq_of_promised_peer hlock hstart (Or.inl hv) (Or.inl hv') hround hauthor hself

/-! ### Checking the hypotheses -/

omit [Crypto] in
/-- A proposal in the name of a validator. -/
def isProposalOf (id : ValidatorId) : NodeEvent → Bool
  | .vertexProposal _ v _ => v.author = id
  | _ => false

theorem ownKeyUnforged_of_forall (h : ∀ event ∈ events, isProposalOf e.selfId event = false) :
    e.OwnKeyUnforged s events := by
  intro before sender v signature after heq hauthor
  have hnot := h (.vertexProposal sender v signature) (by rw [heq]; simp)
  exact absurd hauthor (of_decide_eq_false hnot)

/-- The lock holds if all proposals come before the first restart and within the retention. -/
theorem conflictsMeetLock_of_nextRound_le {rest : List NodeEvent}
    (hrestart : ∀ event ∈ events, event.isRestart = false)
    (hnext : (e.run s events).nextRound ≤ roundStateRetention)
    (hrest : ∀ sender v signature, .vertexProposal sender v signature ∉ rest) :
    e.ConflictsMeetLock s (events ++ rest) := by
  intro before sender v signature between sender' v' signature' after heq _ _ _
  rw [← cons_append, ← append_assoc] at heq
  obtain ⟨l, rfl⟩ : ∃ l, events = before ++ .vertexProposal sender v signature :: between ++ l := by
    rcases append_eq_append_iff.1 heq with ⟨l, -, hl⟩ | ⟨l, hl, -⟩
    · exact absurd (hl ▸ mem_append_right l mem_cons_self) (hrest sender' v' signature')
    · exact ⟨l, hl⟩
  refine ⟨fun event hevent => hrestart event (by simp [hevent]), ?_⟩
  rw [run, Run.run_append] at hnext
  have hle := (nextRound_le_run fun event hevent =>
    hrestart event (mem_append_right _ hevent)).trans hnext
  have hzero : (e.run s (before ++ .vertexProposal sender v signature ::
      between)).roundHorizon = 0 := Nat.sub_eq_zero_of_le hle
  omega

end Engine

end Handlers

/-! ### An equivocating author

Validator 2 proposes two vertices for round 0, one of them over the empty batch. -/

section Equivocation

attribute [local instance] sha3Crypto

/-- The digest of the empty batch. -/
def emptyBatchDigest : Digest :=
  0x48dda5bbe9171a6656206ec56c595c5834b6cf38c5fe71bcb44fe43833aee9df

/-- The proposal of validator 2 over the given batches. -/
def equivocationProposal (batches : List (WorkerId × Digest)) : NodeEvent :=
  .vertexProposal 2 ⟨0, 2, batches, []⟩ hybridSignature

def equivocationSchedule : ValidatorSchedule := .single (.equalStakes 4)

/-- The second proposal, after its batch. -/
def secondProposal : List NodeEvent :=
  [.workerBatch 2 emptyBatchDigest, equivocationProposal [(0, emptyBatchDigest)]]

/-- After a restart validator 1 votes for the second vertex as well. -/
theorem vote_lock_fails :
    let events := equivocationProposal [] :: .restart 0 equivocationSchedule [] [] :: secondProposal
    let votes := ((Engine.obliging 1).run (.genesis equivocationSchedule) events).votes
    (Engine.obliging 1).OwnKeyUnforged (.genesis equivocationSchedule) events ∧
      ∃ v ∈ votes, ∃ v' ∈ votes, v.round = v'.round ∧ v.author = v'.author ∧
        v.digest ≠ v'.digest := by
  exact ⟨Engine.ownKeyUnforged_of_forall (by decide), by decide +kernel⟩

/-- Without it, it does not; later it is restarted and goes on at the round after its own vertex. -/
theorem vote_lock_equivocation :
    let events := .propose [] :: equivocationProposal [] :: secondProposal ++
      [.restart 1 equivocationSchedule [] [], .propose []]
    let votes := ((Engine.obliging 1).run (.genesis equivocationSchedule) events).votes
    votes.length = 2 ∧ ∀ v ∈ votes, ∀ v' ∈ votes, v.round = v'.round → v.author = v'.author →
      v.digest = v'.digest := by
  refine ⟨by decide +kernel, ?_⟩
  apply Engine.vote_lock
  · apply Engine.conflictsMeetLock_of_nextRound_le
    · decide
    · decide +kernel
    · simp
  · refine ⟨trivial, trivial, trivial, trivial, ?_, trivial, trivial⟩
    show EngineState.nextRound _ ≤ 1
    decide +kernel
  · exact Engine.ownKeyUnforged_of_forall (by decide)

end Equivocation

end QChain
