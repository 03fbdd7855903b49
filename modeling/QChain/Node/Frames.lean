import QChain.Node.Engine

/-!
# What each handler leaves alone

The handlers change few fields each. `SameLocks` says that the vote lock and the votes are
untouched and `VotesFor` which votes are new; `SameView` says that the DAG and the schedule
are untouched and `Inserts` that one certificate may have entered the DAG.
-/

namespace QChain

open EngineState

/-- A vertex waiting for its batches to be voted for. -/
def EngineState.Deferred (s : EngineState) (v : Vertex) : Prop :=
  ∃ d x, s.pendingAvailabilityVotes.lookup d = some (v, x)

/-- A vertex voted for or waiting to be. -/
def EngineState.Promised (s : EngineState) (v : Vertex) : Prop := v ∈ s.votes ∨ s.Deferred v

/-- Nothing about the vote lock has changed. -/
structure SameLocks (s s' : EngineState) : Prop where
  nextRound : s'.nextRound = s.nextRound
  votedFor : s'.votedFor = s.votedFor
  pending : s'.pendingAvailabilityVotes = s.pendingAvailabilityVotes
  votes : s'.votes = s.votes

namespace SameLocks

variable {s s' s'' : EngineState}

theorem refl (s : EngineState) : SameLocks s s := ⟨rfl, rfl, rfl, rfl⟩

theorem trans (h : SameLocks s s') (h' : SameLocks s' s'') : SameLocks s s'' :=
  ⟨h'.nextRound.trans h.nextRound, h'.votedFor.trans h.votedFor, h'.pending.trans h.pending,
    h'.votes.trans h.votes⟩

theorem deferred_iff (h : SameLocks s s') {v : Vertex} : s'.Deferred v ↔ s.Deferred v := by
  rw [Deferred, Deferred, h.pending]

end SameLocks

/-- Votes are cast, or deferred, for vertices deferred before and for new ones. -/
structure VotesFor (s s' : EngineState) (new : Vertex → Prop) : Prop where
  deferred : ∀ v, s'.Deferred v → s.Deferred v ∨ new v
  votes : ∃ cast, s'.votes = s.votes ++ cast ∧ ∀ v ∈ cast, s.Deferred v ∨ new v

namespace VotesFor

variable {s s' s'' : EngineState} {new : Vertex → Prop}

theorem of_sameLocks (h : SameLocks s s') : VotesFor s s' new where
  deferred _ hv := Or.inl (h.deferred_iff.1 hv)
  votes := ⟨[], by rw [List.append_nil, h.votes], fun _ hv => absurd hv List.not_mem_nil⟩

theorem mono {new' : Vertex → Prop} (h : VotesFor s s' new) (hnew : ∀ v, new v → new' v) :
    VotesFor s s' new' where
  deferred v hv := (h.deferred v hv).imp_right (hnew v)
  votes := by
    obtain ⟨cast, hcast, hall⟩ := h.votes
    exact ⟨cast, hcast, fun v hv => (hall v hv).imp_right (hnew v)⟩

/-- Only the votes cast and deferred of the first state matter. -/
theorem of_eq (hpending : s'.pendingAvailabilityVotes = s.pendingAvailabilityVotes)
    (hvotes : s'.votes = s.votes) (h : VotesFor s' s'' new) : VotesFor s s'' new := by
  have hdeferred : ∀ v, s'.Deferred v → s.Deferred v := by
    intro v hv
    rwa [Deferred, hpending] at hv
  obtain ⟨cast, hcast, hall⟩ := h.votes
  exact ⟨fun v hv => (h.deferred v hv).imp_left (hdeferred v), cast, by rw [hcast, hvotes],
    fun v hv => (hall v hv).imp_left (hdeferred v)⟩

theorem promised (h : VotesFor s s' new) {v : Vertex} (hv : s'.Promised v) :
    s.Promised v ∨ new v := by
  rcases hv with hv | hv
  · obtain ⟨cast, hcast, hall⟩ := h.votes
    rw [hcast] at hv
    rcases List.mem_append.1 hv with hv | hv
    · exact Or.inl (Or.inl hv)
    · exact (hall v hv).imp_left Or.inr
  · exact (h.deferred v hv).imp_left Or.inr

end VotesFor

/-- Nothing about the DAG and the schedule has changed. -/
structure SameView (s s' : EngineState) : Prop where
  schedule : s'.schedule = s.schedule
  dag : s'.dag = s.dag

namespace SameView

variable {s s' s'' : EngineState}

theorem refl (s : EngineState) : SameView s s := ⟨rfl, rfl⟩

theorem trans (h : SameView s s') (h' : SameView s' s'') : SameView s s'' :=
  ⟨h'.schedule.trans h.schedule, h'.dag.trans h.dag⟩

end SameView

section Frames

variable [Crypto] (e : Engine)

namespace Engine

/-! ### What leaves the lock alone -/

variable (s : EngineState)

omit [Crypto] in
theorem sameLocks_requestMissing (vertex : Vertex) (sender : ValidatorId) :
    SameLocks s (requestMissing s vertex sender) := by
  have hparents : SameLocks s
      (requestMissingParents s vertex.parents (vertex.round - 1) sender) := by
    unfold requestMissingParents
    split_ifs
    · exact .refl s
    · exact ⟨rfl, rfl, rfl, rfl⟩
  exact hparents.trans ⟨rfl, rfl, rfl, rfl⟩

theorem sameLocks_recordFirstSeen (vertex : Vertex)
    (signature : MultiSignature) (bundle : PublicKeyBundle) :
    SameLocks s (recordFirstSeen s vertex signature bundle) := by
  unfold recordFirstSeen
  split
  · split_ifs
    · exact ⟨rfl, rfl, rfl, rfl⟩
    · exact .refl s
  · exact ⟨rfl, rfl, rfl, rfl⟩

omit [Crypto] in
theorem sameLocks_cacheBatch (digest : Digest) :
    SameLocks s (cacheBatch s digest) := by
  unfold cacheBatch
  split_ifs
  · exact .refl s
  · exact ⟨rfl, rfl, rfl, rfl⟩

variable (sender : ValidatorId) (digest : Digest)

omit [Crypto] in
theorem sameLocks_admitGossipedBatch : SameLocks s (admitGossipedBatch s sender digest) := by
  unfold admitGossipedBatch
  dsimp only
  split_ifs
  · exact sameLocks_cacheBatch s digest
  · exact .refl s
  · exact .refl s
  · refine SameLocks.trans ?_ (sameLocks_cacheBatch _ digest)
    exact ⟨rfl, rfl, rfl, rfl⟩

theorem sameLocks_handleCertificateBroadcast
    (cert : Certificate) : SameLocks s (e.handleCertificateBroadcast s sender cert) := by
  unfold handleCertificateBroadcast
  split_ifs
  · refine SameLocks.trans ?_ (sameLocks_requestMissing _ _ _)
    exact ⟨rfl, rfl, rfl, rfl⟩
  · exact .refl s

theorem sameLocks_recordVote (voter : ValidatorId)
    (signature : MultiSignature) : SameLocks s (recordVote s digest voter signature) := by
  unfold recordVote
  split
  · exact .refl s
  · dsimp only
    split_ifs
    · exact .refl s
    · exact ⟨rfl, rfl, rfl, rfl⟩
    · exact ⟨rfl, rfl, rfl, rfl⟩

theorem sameLocks_handleVote
    (signature : MultiSignature) : SameLocks s (e.handleVote s sender digest signature) := by
  unfold handleVote
  split
  · exact .refl s
  · split_ifs
    · exact sameLocks_recordVote s digest sender signature
    · exact .refl s

omit [Crypto] in
theorem sameLocks_ratchet (committee : ValidatorSet) :
    SameLocks s (ratchet s committee) := by
  unfold ratchet
  dsimp only
  split_ifs
  · exact ⟨rfl, rfl, rfl, rfl⟩
  · exact .refl s

omit [Crypto] in
theorem sameLocks_capEvidence : SameLocks s (capEvidence s) :=
  ⟨rfl, rfl, rfl, rfl⟩

omit [Crypto] in
theorem sameLocks_pruneBatches : SameLocks s (pruneBatches s) :=
  ⟨rfl, rfl, rfl, rfl⟩

omit [Crypto] in
theorem sameLocks_pruneDag : SameLocks s (e.pruneDag s) := by
  unfold pruneDag
  dsimp only
  split
  · exact ⟨rfl, rfl, rfl, rfl⟩
  · exact .refl s

/-! ### What leaves the DAG and the schedule alone -/

variable (vertex : Vertex)

omit [Crypto] in
theorem sameView_requestMissing (sender : ValidatorId) :
    SameView s (requestMissing s vertex sender) := by
  have hparents : SameView s
      (requestMissingParents s vertex.parents (vertex.round - 1) sender) := by
    unfold requestMissingParents
    split_ifs
    · exact .refl s
    · exact ⟨rfl, rfl⟩
  exact hparents.trans ⟨rfl, rfl⟩

variable (signature : MultiSignature)

theorem sameView_recordFirstSeen (bundle : PublicKeyBundle) :
    SameView s (recordFirstSeen s vertex signature bundle) := by
  unfold recordFirstSeen
  split
  · split_ifs
    · exact ⟨rfl, rfl⟩
    · exact .refl s
  · exact ⟨rfl, rfl⟩

theorem sameView_castVote (recipient : ValidatorId) :
    SameView s (e.castVote s vertex recipient) := by
  unfold castVote
  split
  · exact .refl s
  · exact ⟨rfl, rfl⟩

theorem sameView_attest (sender : ValidatorId) :
    SameView s (e.attest s vertex sender) := by
  unfold attest
  split_ifs
  · exact e.sameView_castVote s vertex sender
  · exact ⟨rfl, rfl⟩

theorem sameView_handleVertexProposal :
    SameView s (e.handleVertexProposal s sender vertex signature) := by
  unfold handleVertexProposal
  split
  · exact .refl s
  · next info _ =>
    have hreq := sameView_requestMissing s vertex sender
    have hsame := hreq.trans (sameView_recordFirstSeen (requestMissing s vertex sender) vertex
      signature info.pubkeyBundle)
    dsimp only
    split_ifs
    · exact hreq
    · split
      · split_ifs
        · exact hsame
        · exact hsame.trans (e.sameView_attest _ vertex sender)
      · refine hsame.trans (SameView.trans ?_ (e.sameView_attest _ vertex sender))
        exact ⟨rfl, rfl⟩

theorem sameView_tryCastAvailableVotes :
    SameView s (e.tryCastAvailableVotes s) := by
  have hloop : ∀ (l : List (Vertex × ValidatorId × ℕ)) (t : EngineState),
      SameView t (l.foldl (fun s v => e.castVote
        { s with pendingAvailabilityVotes := s.pendingAvailabilityVotes.erase v.1.digest }
        v.1 v.2.1) t) := by
    intro l
    induction l with
    | nil => exact fun t => .refl t
    | cons x l ih =>
      intro t
      refine SameView.trans ?_ (ih _)
      refine SameView.trans ?_ (e.sameView_castVote _ _ _)
      exact ⟨rfl, rfl⟩
  exact hloop _ s

omit [Crypto] in
theorem sameView_admitGossipedBatch :
    SameView s (admitGossipedBatch s sender digest) := by
  unfold admitGossipedBatch cacheBatch
  dsimp only
  split_ifs
  all_goals exact ⟨rfl, rfl⟩

theorem sameView_handleWorkerBatch :
    SameView s (e.handleWorkerBatch s sender digest) := by
  unfold handleWorkerBatch
  split_ifs
  · exact (sameView_admitGossipedBatch s sender digest).trans
      (e.sameView_tryCastAvailableVotes _)
  · exact .refl s

/-! ### What enters the DAG -/

/-- The schedule stays and at most one certificate, of the given vertex, enters the DAG. -/
structure Inserts (s s' : EngineState) (vertex : Vertex) : Prop where
  schedule : s'.schedule = s.schedule
  dag : s'.dag = s.dag ∨ ∃ cert : Certificate, cert.vertex = vertex ∧ s'.dag = s.dag.insert cert

theorem inserts_handleCertificateBroadcast
    (cert : Certificate) :
    Inserts s (e.handleCertificateBroadcast s sender cert) cert.vertex := by
  unfold handleCertificateBroadcast
  split_ifs
  · have hsame := sameView_requestMissing { s with dag := s.dag.insert cert } cert.vertex sender
    exact ⟨hsame.schedule, Or.inr ⟨cert, rfl, hsame.dag⟩⟩
  · exact ⟨rfl, Or.inl rfl⟩

/-- A vote certifies nothing but the own pending vertex. -/
theorem recordVote_cases (voter : ValidatorId)
    (signature : MultiSignature) :
    SameView s (recordVote s digest voter signature) ∨
      ∃ vertex authorSignature, s.ownPendingVertex = some (vertex, authorSignature) ∧
        Inserts s (recordVote s digest voter signature) vertex := by
  unfold recordVote
  split
  · exact Or.inl (.refl s)
  · next vertex authorSignature hpending =>
    dsimp only
    split_ifs
    · exact Or.inl (.refl s)
    · exact Or.inl ⟨rfl, rfl⟩
    · exact Or.inr ⟨vertex, authorSignature, hpending, rfl, Or.inr ⟨_, rfl, rfl⟩⟩

theorem handleVote_cases :
    SameView s (e.handleVote s sender digest signature) ∨
      ∃ vertex authorSignature, s.ownPendingVertex = some (vertex, authorSignature) ∧
        Inserts s (e.handleVote s sender digest signature) vertex := by
  unfold handleVote
  split
  · exact Or.inl (.refl s)
  · split_ifs
    · exact recordVote_cases s digest sender signature
    · exact Or.inl (.refl s)

/-- A tick certifies nothing but the vertex it proposes. -/
theorem inserts_proposeRound (batchDigests : List (WorkerId × Digest)) :
    Inserts s (e.proposeRound s batchDigests) (e.proposedVertex s batchDigests) := by
  unfold proposeRound
  split_ifs
  · exact ⟨rfl, Or.inl rfl⟩
  · exact ⟨rfl, Or.inl rfl⟩
  · dsimp only
    split
    · exact ⟨rfl, Or.inl rfl⟩
    · next signature _ =>
      rcases recordVote_cases _ (e.proposedVertex s batchDigests).digest e.selfId signature with
        hsame | ⟨vertex, authorSignature, hpending, hins⟩
      · exact ⟨hsame.schedule, Or.inl hsame.dag⟩
      · cases hpending
        exact ⟨hins.schedule, hins.dag⟩

end Engine

end Frames

end QChain
