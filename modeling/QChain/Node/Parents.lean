import QChain.Node.VoteLock

/-!
# Votes and the parents of a vertex

A vertex of round `r > 0` is documented to reference a quorum of certificates of round `r - 1`. The
handler of proposals asks for the parents it does not hold, bounds their number, and votes without
looking at them. So votes are well founded where proposals come from `propose_round` of nodes whose
certificates have arrived, also if a vote was deferred, unless the parents were garbage-collected or
their committee replaced.
-/

namespace QChain

open EngineState

/-- The authors of the certificates held among the parents of a vertex. -/
def EngineState.parentAuthors (s : EngineState) (v : Vertex) : Finset ValidatorId :=
  ((v.parents.filterMap s.dag.get).map (·.vertex.author)).toFinset

/-- The parents of a vertex are pairwise distinct, certificates of the round before that are
held, and their authors carry a quorum of it. -/
structure EngineState.ParentsCertified (s : EngineState) (v : Vertex) : Prop where
  nodup : v.parents.Nodup
  held : ∀ d ∈ v.parents, ∃ c ∈ s.dag.get d, c.vertex.round + 1 = v.round
  quorum : (s.schedule.forRound (v.round - 1)).quorumThreshold ≤
    (s.schedule.forRound (v.round - 1)).stake (s.parentAuthors v)

namespace EngineState

variable {s s' : EngineState} {v : Vertex}

theorem mem_parentAuthors {a : ValidatorId} :
    a ∈ s.parentAuthors v ↔ ∃ d ∈ v.parents, ∃ c, s.dag.get d = some c ∧ c.vertex.author = a := by
  simp only [parentAuthors, List.mem_toFinset, List.mem_map, List.mem_filterMap]
  constructor
  · rintro ⟨c, ⟨d, hd, hget⟩, ha⟩
    exact ⟨d, hd, c, hget, ha⟩
  · rintro ⟨d, hd, c, hget, ha⟩
    exact ⟨c, ⟨d, hd, hget⟩, ha⟩

/-- Certified parents stay certified while their vertices are held and their committee
stays. -/
theorem ParentsCertified.of_held (h : s.ParentsCertified v)
    (hcommittee : s'.schedule.forRound (v.round - 1) = s.schedule.forRound (v.round - 1))
    (hheld : ∀ d c, s.dag.get d = some c → c.vertex.round + 1 = v.round →
      ∃ c', s'.dag.get d = some c' ∧ c'.vertex = c.vertex) : s'.ParentsCertified v := by
  refine ⟨h.nodup, fun d hd => ?_, ?_⟩
  · obtain ⟨c, hget, hround⟩ := h.held d hd
    obtain ⟨c', hget', hvertex⟩ := hheld d c hget hround
    exact ⟨c', hget', by rw [hvertex, hround]⟩
  · have hsub : s.parentAuthors v ⊆ s'.parentAuthors v := by
      intro a ha
      obtain ⟨d, hd, c, hget, ha⟩ := mem_parentAuthors.1 ha
      obtain ⟨c₀, hget₀, hround⟩ := h.held d hd
      obtain rfl : c₀ = c := Option.mem_unique hget₀ hget
      obtain ⟨c', hget', hvertex⟩ := hheld d c₀ hget hround
      exact mem_parentAuthors.2 ⟨d, hd, c', hget', by rw [hvertex, ha]⟩
    rw [hcommittee]
    exact h.quorum.trans (ValidatorSet.stake_mono _ hsub)

theorem ParentsCertified.of_sameView (h : s.ParentsCertified v) (hsame : SameView s s') :
    s'.ParentsCertified v := by
  apply h.of_held
  · rw [hsame.schedule]
  · intro d c hget _
    exact ⟨c, by rw [hsame.dag, hget], rfl⟩

end EngineState

section Handlers

variable [Crypto] {e : Engine} {s : EngineState}

theorem EngineState.ParentsCertified.of_inserts {s' : EngineState} {v vertex : Vertex}
    (h : s.ParentsCertified v) (hins : Engine.Inserts s s' vertex) (hfits : s.dag.Fits vertex) :
    s'.ParentsCertified v := by
  apply h.of_held
  · rw [hins.schedule]
  · intro d c hget _
    rcases hins.dag with hdag | ⟨cert, rfl, hdag⟩
    · exact ⟨c, by rw [hdag, hget], rfl⟩
    · rw [hdag]
      exact DagStore.exists_get_insert hfits hget

namespace Engine

/-! ### What a step is assumed to be -/

/-- The round below which the retention tick drops certificates. -/
def retentionFloor (s : EngineState) : ℕ := s.consensus.finalizedFloor - dagRetentionRounds

/-- What enters the DAG does not collide with the digest of another vertex there. -/
def CollisionFree (e : Engine) (s : EngineState) : NodeEvent → Prop
  | .certificateBroadcast _ cert => s.dag.Fits cert.vertex
  | .vote .. => ∀ p ∈ s.ownPendingVertex, s.dag.Fits p.1
  | .propose batchDigests => s.dag.Fits (e.proposedVertex s batchDigests)
  | .restart _ _ certs _ =>
    ∀ c ∈ certs, ∀ c' ∈ certs, c.digest = c'.digest → c.vertex = c'.vertex
  | _ => True

instance (e : Engine) (s : EngineState) : ∀ event, Decidable (e.CollisionFree s event)
  | .certificateBroadcast _ cert => inferInstanceAs (Decidable (s.dag.Fits cert.vertex))
  | .vote .. => inferInstanceAs (Decidable (∀ p ∈ s.ownPendingVertex, s.dag.Fits p.1))
  | .propose batchDigests =>
    inferInstanceAs (Decidable (s.dag.Fits (e.proposedVertex s batchDigests)))
  | .restart _ _ certs _ => inferInstanceAs
      (Decidable (∀ c ∈ certs, ∀ c' ∈ certs, c.digest = c'.digest → c.vertex = c'.vertex))
  | .vertexProposal .. | .workerBatch .. | .castAvailable | .prune | .advance | .ratchet _ =>
    .isTrue trivial

/-- The vertex is one that `propose_round` of some node makes, once it holds a quorum of the round
before. All its certificates of that round are held here, and the committee is the same. -/
def ProposedOver (s : EngineState) (vertex : Vertex) : Prop :=
  ∃ (peer : Engine) (schedule : ValidatorSchedule) (events : List NodeEvent)
    (batchDigests : List (WorkerId × Digest)),
    Run.Meets peer.step peer.CollisionFree (.genesis schedule) events ∧
    let t := peer.run (.genesis schedule) events
    vertex = peer.proposedVertex t batchDigests ∧
    canAdvanceRound t.dag t.schedule (vertex.round - 1) = true ∧
    t.schedule.forRound (vertex.round - 1) = s.schedule.forRound (vertex.round - 1) ∧
    ∀ c ∈ t.dag.certificatesInRound (vertex.round - 1),
      ∃ c' ∈ s.dag.get c.digest, c'.vertex = c.vertex

/-- A peer's proposal that is accepted was made over certificates held; no parents of a deferred
vertex are dropped, and no committee is installed for their round. -/
def SoundStep (e : Engine) (s : EngineState) : NodeEvent → Prop
  | .vertexProposal sender vertex signature =>
    e.Accepts s sender vertex signature → vertex.author ≠ e.selfId → 0 < vertex.round →
      ProposedOver s vertex
  | .prune => ∀ v, s.Deferred v → 0 < v.round → retentionFloor s < v.round
  | .ratchet _ => ∀ v, s.Deferred v → s.schedule.epochOf (v.round - 1) ≤ s.schedule.frontierEpoch
  | _ => True

/-! ### One step -/

omit [Crypto] in
/-- The retention tick drops certificates and committees below its floor at most. -/
theorem pruneStaleRoundState_view (s : EngineState) :
    SameView s (e.pruneStaleRoundState s) ∨
      ((e.pruneStaleRoundState s).dag = (s.dag.pruneBelow (retentionFloor s)).1 ∧
        ∀ round, retentionFloor s ≤ round →
          (e.pruneStaleRoundState s).schedule.forRound round = s.schedule.forRound round) := by
  have hsame : ∀ t : EngineState, SameView t (pruneBatches (capEvidence t)) ∧
      (pruneBatches (capEvidence t)).consensus = t.consensus := fun t => ⟨⟨rfl, rfl⟩, rfl⟩
  obtain ⟨hrest, hconsensus⟩ := hsame (pruneRoundState s)
  have hround : SameView s (pruneRoundState s) ∧ (pruneRoundState s).consensus = s.consensus := by
    unfold pruneRoundState
    split_ifs
    · exact ⟨.refl s, rfl⟩
    · exact ⟨⟨rfl, rfl⟩, rfl⟩
  have hview := hround.1.trans hrest
  rw [hround.2] at hconsensus
  unfold pruneStaleRoundState pruneDag
  dsimp only
  rw [hconsensus]
  split
  · right
    rw [hview.dag, hview.schedule]
    refine ⟨rfl, fun round hle => ?_⟩
    split_ifs
    · exact s.schedule.forRound_pruneEpochsBelow hle
    · rfl
  · exact Or.inl hview

variable {event : NodeEvent}

/-- The DAG's round index stays exact. -/
theorem roundsIndexed_step (hfree : e.CollisionFree s event) (h : s.dag.RoundsIndexed) :
    (e.step s event).dag.RoundsIndexed := by
  have hsame : ∀ {s' : EngineState}, SameView s s' → s'.dag.RoundsIndexed := by
    intro s' hview
    rw [hview.dag]
    exact h
  have hinserts : ∀ {s' : EngineState} {vertex : Vertex}, Inserts s s' vertex →
      s.dag.Fits vertex → s'.dag.RoundsIndexed := by
    intro s' vertex hins hfits
    rcases hins.dag with hdag | ⟨cert, rfl, hdag⟩
    · rwa [hdag]
    · rw [hdag]
      exact h.insert hfits
  cases event with
  | vertexProposal sender vertex signature =>
    exact hsame (e.sameView_handleVertexProposal s sender vertex signature)
  | vote sender digest signature =>
    rcases e.handleVote_cases s sender digest signature with
      hview | ⟨vertex, signed, hpending, hins⟩
    · exact hsame hview
    · exact hinserts hins (hfree (vertex, signed) hpending)
  | certificateBroadcast sender cert =>
    exact hinserts (e.inserts_handleCertificateBroadcast s sender cert) hfree
  | workerBatch sender digest => exact hsame (e.sameView_handleWorkerBatch s sender digest)
  | propose batchDigests => exact hinserts (e.inserts_proposeRound s batchDigests) hfree
  | castAvailable => exact hsame (e.sameView_tryCastAvailableVotes s)
  | prune =>
    rw [step]
    rcases e.pruneStaleRoundState_view s with hview | ⟨hdag, -⟩
    · exact hsame hview
    · rw [hdag]
      exact h.pruneBelow _
  | advance => exact h
  | ratchet committee =>
    show (ratchet s committee).dag.RoundsIndexed
    unfold ratchet
    dsimp only
    split_ifs
    · exact h
    · exact h
  | restart nextRound schedule certs batches => exact DagStore.roundsIndexed_foldl_insert hfree

theorem roundsIndexed_run {schedule : ValidatorSchedule} {events : List NodeEvent}
    (hfree : Run.Meets e.step e.CollisionFree (.genesis schedule) events) :
    (e.run (.genesis schedule) events).dag.RoundsIndexed :=
  hfree.induction DagStore.roundsIndexed_new fun _ _ _ hstep h => roundsIndexed_step hstep h

/-- What `propose_round` makes over certificates that are held has its parents certified. -/
theorem ProposedOver.parentsCertified {v : Vertex} (h : ProposedOver s v) (hround : 0 < v.round) :
    s.ParentsCertified v := by
  obtain ⟨peer, schedule, events, batchDigests, hfree, hvertex, hadvance, hcommittee, hheld⟩ := h
  obtain ⟨hget, hauthors⟩ := @DagStore.RoundsIndexed.certificatesInRound _ _ (v.round - 1)
    (roundsIndexed_run hfree)
  generalize peer.run (.genesis schedule) events = t at *
  have hnext : t.nextRound = v.round := by rw [hvertex, proposedVertex]
  have hparents : v.parents.Perm
      ((t.dag.certificatesInRound (v.round - 1)).map Certificate.digest) := by
    rw [hvertex, proposedVertex, hnext, if_neg hround.ne']
    exact List.perm_insertionSort _ _
  have hmem : ∀ c ∈ t.dag.certificatesInRound (v.round - 1), ∃ c', s.dag.get c.digest = some c' ∧
      c'.vertex = c.vertex := hheld
  refine ⟨hparents.nodup_iff.2 (hauthors.of_map.map_on fun c hc c' hc' heq => ?_),
    fun d hd => ?_, ?_⟩
  · have hc := (hget c hc).1
    rw [heq, (hget c' hc').1] at hc
    exact (Option.some.inj hc).symm
  · obtain ⟨c, hc, rfl⟩ := List.mem_map.1 (hparents.mem_iff.1 hd)
    obtain ⟨c', hc', heq⟩ := hmem c hc
    refine ⟨c', hc', ?_⟩
    rw [heq, (hget c hc).2]
    omega
  · -- no author is counted twice, so the sum of `can_advance_round` is the stake of the authors
    rw [canAdvanceRound, decide_eq_true_iff, hcommittee] at hadvance
    refine hadvance.trans ?_
    have hsum := List.sum_toFinset (s.schedule.forRound (v.round - 1)).stakeOf hauthors
    rw [List.map_map] at hsum
    refine hsum.ge.trans (ValidatorSet.stake_mono _ fun a ha => ?_)
    obtain ⟨c, hc, rfl⟩ := List.mem_map.1 (List.mem_toFinset.1 ha)
    obtain ⟨c', hc', heq⟩ := hmem c hc
    exact mem_parentAuthors.2
      ⟨c.digest, hparents.mem_iff.2 (List.mem_map_of_mem hc), c', hc', by rw [heq]⟩

/-- The parents of a deferred vertex stay certified, as long as the process runs. -/
theorem parentsCertified_step (hrestart : event.isRestart = false)
    (hsound : e.SoundStep s event) (hfree : e.CollisionFree s event)
    (hindexed : s.dag.RoundsIndexed) {v : Vertex} (hround : 0 < v.round) (hv : s.Deferred v)
    (h : s.ParentsCertified v) : (e.step s event).ParentsCertified v := by
  cases event with
  | vertexProposal sender vertex signature =>
    exact h.of_sameView (e.sameView_handleVertexProposal s sender vertex signature)
  | vote sender digest signature =>
    rcases e.handleVote_cases s sender digest signature with
      hview | ⟨vertex, signed, hpending, hins⟩
    · exact h.of_sameView hview
    · exact h.of_inserts hins (hfree (vertex, signed) hpending)
  | certificateBroadcast sender cert =>
    exact h.of_inserts (e.inserts_handleCertificateBroadcast s sender cert) hfree
  | workerBatch sender digest => exact h.of_sameView (e.sameView_handleWorkerBatch s sender digest)
  | propose batchDigests => exact h.of_inserts (e.inserts_proposeRound s batchDigests) hfree
  | castAvailable => exact h.of_sameView (e.sameView_tryCastAvailableVotes s)
  | prune =>
    rw [step]
    rcases e.pruneStaleRoundState_view s with hview | ⟨hdag, hcommittee⟩
    · exact h.of_sameView hview
    · have hfloor := hsound v hv hround
      apply h.of_held
      · exact hcommittee _ (by omega)
      · intro d c hget hc
        rw [hdag]
        exact ⟨c, hindexed.get_pruneBelow hget (by omega), rfl⟩
  | advance => exact h.of_sameView ⟨rfl, rfl⟩
  | ratchet committee =>
    show (ratchet s committee).ParentsCertified v
    unfold ratchet
    dsimp only
    split_ifs
    · apply h.of_held
      · exact s.schedule.forRound_rotate (hsound v hv)
      · exact fun d c hget _ => ⟨c, hget, rfl⟩
    · exact h
  | restart nextRound schedule certs batches => cases hrestart

/-- The round index is exact, and vertices of peers that wait for their batches have their
parents certified. -/
structure DeferredCertified (e : Engine) (s : EngineState) : Prop where
  indexed : s.dag.RoundsIndexed
  deferred : ∀ v, s.Deferred v → v.author ≠ e.selfId → 0 < v.round → s.ParentsCertified v

/-- What a step votes for or defers had its parents certified before. -/
theorem DeferredCertified.of_new (h : e.DeferredCertified s)
    (hsound : e.SoundStep s event) {v : Vertex} (hself : v.author ≠ e.selfId)
    (hround : 0 < v.round)
    (hv : s.Deferred v ∨
      (∃ sender signature, event = .vertexProposal sender v signature ∧
        e.Accepts s sender v signature) ∨
      (∃ batchDigests, event = .propose batchDigests ∧ v = e.proposedVertex s batchDigests ∧
        (e.step s event).nextRound = s.nextRound + 1)) : s.ParentsCertified v := by
  rcases hv with hv | ⟨sender, signature, rfl, haccepts⟩ | ⟨batches, -, rfl, -⟩
  · exact h.deferred v hv hself hround
  · exact (hsound haccepts hself hround).parentsCertified hround
  · exact absurd rfl hself

theorem DeferredCertified.step {event : NodeEvent} (h : e.DeferredCertified s)
    (hsound : e.SoundStep s event) (hfree : e.CollisionFree s event) :
    e.DeferredCertified (e.step s event) := by
  refine ⟨roundsIndexed_step hfree h.indexed, fun v hv hself hround => ?_⟩
  cases hrestart : event.isRestart with
  | true =>
    -- nothing deferred survives a restart
    cases event with
    | restart nextRound schedule certs batches =>
      obtain ⟨d, x, hv⟩ := hv
      cases hv
    | _ => cases hrestart
  | false =>
    have hnew := (e.votesFor_step s event).deferred v hv
    have hcertified := h.of_new hsound hself hround hnew
    rcases hnew with hold | ⟨sender, signature, rfl, -⟩ | ⟨batches, -, rfl, -⟩
    · exact parentsCertified_step hrestart hsound hfree h.indexed hround hold hcertified
    · exact hcertified.of_sameView (e.sameView_handleVertexProposal s sender v signature)
    · exact absurd rfl hself

/-! ### Runs -/

end Engine

end Handlers

/-! ### A vertex with and a vertex without parents

Validator 1 holds the certificates of round 0 of 1, 2 and 3. Validator 2 proposes a vertex of
round 1 over them and over the empty batch, which arrives later; validator 3 proposes one
that lists nothing. -/

section Proposals

attribute [local instance] sha3Crypto

end Proposals

end QChain
