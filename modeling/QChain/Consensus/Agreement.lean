import QChain.Consensus.State
import QChain.Consensus.Verdicts

/-!
# Agreement on the committed order

A replica under a fixed committee that never prunes outputs an initial part of the order of the
certified DAG its certificates come from, as long as no round is skipped for want of its leader
while the witness's history is incomplete (`Bullshark.SkipsJustified`). The invariant, `Settled`,
says that the output is the order up to some round `k` and that the cached commits are those below
it. `resolve` does not look at the witness where the leader is absent, so the proviso is not idle.
-/

namespace QChain

open Bullshark List PostOrder Relation

section Agreement

variable [Crypto] {V : ValidatorSet} {G : Set Certificate}

/-- The output is the order of the DAG up to round `k`, and the cache accounts for it. -/
structure Settled (V : ValidatorSet) (G : Set Certificate) (k : ℕ) (output : List Digest)
    (seen : Finset Digest) (cache : Map ℕ Digest) : Prop where
  output_eq : output = order V G k
  mem_seen : ∀ x, x ∈ seen ↔ x ∈ output
  cache_sound : ∀ r d, cache.lookup r = some d → r ≤ k ∧ ∃ c, c.digest = d ∧ Commits V G r c
  settled : ∀ r < k, cache.lookup r = none → ∀ c, ¬ Commits V G r c

theorem settled_zero : Settled V G 0 [] ∅ ∅ where
  output_eq := rfl
  mem_seen x := by simp
  cache_sound r d h := by simp at h
  settled r hr := absurd hr (Nat.not_lt_zero r)

/-! ### One walk -/

/-- On a complete history the walk does what the order of the DAG does. -/
theorem View.append_history {b : Bullshark} (h : View V G b) (hG : CertifiedDag V G)
    (hfloor : b.gcFloor = 0) {seen : Finset Digest} {output : List Digest}
    (hseen : ∀ x, x ∈ seen ↔ x ∈ output) {d : Digest} (hd : b.Complete seen d) :
    output ++ b.history seen d = visit (parentsOf G) ∅ (b.rank d + 1) d output := by
  have happend : visit (parentsOf G) ∅ (b.rank d + 1) d (output ++ []) =
      output ++ visit b.succ seen (b.rank d + 1) d [] := by
    refine visit_append (fun _ => true) (fun x _ => by simp [hseen]) (fun x hx hxs => ?_)
      (fun x _ _ p _ hp => by simp at hp)
    obtain ⟨c, hget⟩ := (hd x hx).resolve_left hxs
    have hc := h.sub (h.indexed.mem_certs hget)
    have hcert : certOf G x = some c := by
      rw [← h.indexed.digest_eq hget]
      exact certOf_digest hG.toUnequivocal hc
    simp only [filter_true, parentsOf, hcert]
    by_cases hround : c.vertex.round = 0
    · rw [if_pos hround, succ_of_round_le hget (by omega)]
    · rw [if_neg hround, succ_of_get hget (by omega)]
  rw [append_nil] at happend
  exact happend.symm

/-! ### One round -/

section Round

variable {b : Bullshark} {upTo k : ℕ} {output : List Digest} {seen : Finset Digest}
  {cache cache' : Map ℕ Digest}

/-- A commit met in a pass is a commit of the DAG, at or below the round the order has
reached, and recording it keeps the accounts. -/
theorem Settled.commit (h : Settled V G k output seen cache) (hview : View V G b)
    (hG : CertifiedDag V G) (hup : upTo ≤ u64Max) {r : ℕ} (hr : r ≤ upTo)
    (hpos : r ≤ k ∨ b.ultimateWitness r upTo = none) {d : Digest}
    (hoc : b.cachedOutcome upTo r cache = (.committed d, cache')) :
    r ≤ k ∧ Settled V G k output seen cache' ∧ cache'.lookup r = some d ∧
      ∃ c, c.digest = d ∧ Commits V G r c := by
  rcases b.cachedOutcome_eq_committed hoc with ⟨hlook, rfl⟩ | ⟨hlook, hres, rfl⟩
  · obtain ⟨hrk, c, hdigest, hc⟩ := h.cache_sound r d hlook
    exact ⟨hrk, h, hlook, c, hdigest, hc⟩
  · obtain ⟨c, -, hdigest, hc⟩ := hview.commits_of_resolve hG hup hr hres
    have hrk : r ≤ k := by
      refine hpos.resolve_right fun hnone => ?_
      -- a commit is direct or has a witness, so the search from `r` finds one
      rcases resolve_eq_committed hres with hd | ⟨hs, -, w, -, -, hw, -⟩
      · rw [ultimateWitness_of_committed hr hd] at hnone
        cases hnone
      · rw [ultimateWitness_of_skipped hup hr hs, hw] at hnone
        cases hnone
    have hrk' : r = k := by
      by_contra hne
      exact h.settled r (by omega) hlook c hc
    subst hrk'
    refine ⟨le_rfl, ⟨h.output_eq, h.mem_seen, fun r' d' hlook' => ?_, fun r' hr' hlook' => ?_⟩,
      AList.lookup_insert _, c, hdigest, hc⟩
    · rw [Map.lookup_insert_eq] at hlook'
      split_ifs at hlook' with heq
      · cases hlook'
        exact ⟨heq.le, c, hdigest, heq ▸ hc⟩
      · exact h.cache_sound r' d' hlook'
    · rw [Map.lookup_insert_eq, if_neg (by omega)] at hlook'
      exact h.settled r' hr' hlook'

/-- Walking the leader of the round the order has reached extends the order by it. -/
theorem Settled.walk (h : Settled V G k output seen cache) (hview : View V G b)
    (hG : CertifiedDag V G) (hfloor : b.gcFloor = 0) {c : Certificate} (hc : Commits V G k c)
    (hlook : cache.lookup k = some c.digest) (hcomplete : b.Complete seen c.digest) :
    Settled V G (k + 1) (output ++ b.history seen c.digest)
      (seen ∪ (b.history seen c.digest).toFinset) cache := by
  refine ⟨?_, fun x => ?_, fun r d hr => ?_, fun r hr hnone => ?_⟩
  · rw [order_succ_of_commits hG.toUnequivocal hc, ← h.output_eq]
    by_cases hmem : c.digest ∈ seen
    · rw [Bullshark.history, visit_of_mem (Or.inl hmem),
        visit_of_mem (Or.inr ((h.mem_seen _).1 hmem)), append_nil]
    · -- the leader is held, so its rank is its round
      obtain ⟨c', hget⟩ := (hcomplete _ ReflTransGen.refl).resolve_left hmem
      have heq := hG.eq_of_digest (hview.sub (hview.indexed.mem_certs hget)) hc.leaderCert.1
        (hview.indexed.digest_eq hget)
      have hrank : b.rank c.digest = k := by
        rw [rank_of_get hget, heq, hc.leaderCert.2.1]
      rw [hview.append_history hG hfloor h.mem_seen hcomplete, hrank]
  · rw [Finset.mem_union, mem_toFinset, mem_append, h.mem_seen]
  · obtain ⟨hrk, hcommit⟩ := h.cache_sound r d hr
    exact ⟨by omega, hcommit⟩
  · rcases Nat.lt_succ_iff_lt_or_eq.1 hr with hr | rfl
    · exact h.settled r hr hnone
    · rw [hlook] at hnone
      cases hnone

/-- Passing a round that has no commit. -/
theorem Settled.skip (h : Settled V G k output seen cache) (hno : ∀ c, ¬ Commits V G k c) :
    Settled V G (k + 1) output seen cache where
  output_eq := by rw [order_succ_of_not_commits hno, h.output_eq]
  mem_seen := h.mem_seen
  cache_sound r d hr := by
    obtain ⟨hrk, hc⟩ := h.cache_sound r d hr
    exact ⟨by omega, hc⟩
  settled r hr hnone := by
    rcases Nat.lt_succ_iff_lt_or_eq.1 hr with hr | rfl
    · exact h.settled r hr hnone
    · exact hno

/-! ### One `advance` -/

/-- Where a pass stands: the order is settled up to a round not yet passed, or the rounds
from here on have no known witness, so that nothing more can commit. -/
def PassInv (V : ValidatorSet) (G : Set Certificate) (b : Bullshark) (upTo : ℕ)
    (output : List Digest) (r : ℕ) (st : Bullshark.OrderState) : Prop :=
  ∃ k, Settled V G k (output ++ st.ordered) st.seen st.committedCache ∧
    (r ≤ k ∨ b.ultimateWitness r upTo = none)

/-- Passing a round keeps the pass invariant. -/
theorem passInv_step (hview : View V G b) (hG : CertifiedDag V G) (hfloor : b.gcFloor = 0)
    (hup : upTo ≤ u64Max) (hjust : b.SkipsJustified upTo) {r : ℕ} {st : Bullshark.OrderState}
    (hr : r ≤ upTo) (h : PassInv V G b upTo output r st)
    (hgo : (b.stepRound upTo r st).2 = true) :
    PassInv V G b upTo output (r + 1) (b.stepRound upTo r st).1 := by
  obtain ⟨k, hset, hpos⟩ := h
  have hbelow := hview.parentsBelow hG
  rcases b.stepRound_cases upTo r st with
    ⟨d, cache, hoc, ⟨seen', ordered', hw, hs⟩ | ⟨-, hs⟩⟩ | ⟨cache, hoc, hs⟩ | ⟨cache, hoc, hs⟩
  · obtain ⟨hrk, hset', hlook, c, rfl, hc⟩ := hset.commit hview hG hup hr hpos hoc
    rw [hs]
    rcases Nat.eq_or_lt_of_le hrk with rfl | hlt
    · by_cases hcomplete : b.Complete st.seen c.digest
      · rw [walkCausalHistory_of_complete hbelow hcomplete] at hw
        cases hw
        refine ⟨r + 1, ?_, Or.inl le_rfl⟩
        have hnext := hset'.walk hview hG hfloor hc hlook hcomplete
        rwa [append_assoc] at hnext
      · rw [walkCausalHistory_of_not_complete hbelow hcomplete] at hw
        cases hw
    · -- a replayed commit is in the order already
      have hmem : c.digest ∈ st.seen := by
        rw [hset.mem_seen, hset.output_eq]
        exact mem_order_of_commits hG.toUnequivocal hc hlt
      rw [walkCausalHistory_of_mem hbelow hmem] at hw
      cases hw
      exact ⟨k, hset', Or.inl hlt⟩
  · rw [hs] at hgo
    cases hgo
  · obtain ⟨hlook, hres, rfl⟩ := b.cachedOutcome_eq_of_ne_committed (by simp) hoc
    rw [hs]
    have hstuck : b.directStatus r = .skipped → b.ultimateWitness (satAdd r 1) upTo = none →
        b.ultimateWitness (r + 1) upTo = none := fun _ hnone => by
      rcases Nat.lt_or_ge r u64Max with hlt | hge
      · rwa [satAdd_of_le hlt] at hnone
      · exact ultimateWitness_of_lt (by omega)
    rcases Nat.lt_trichotomy r k with hlt | rfl | hgt
    · exact ⟨k, hset, Or.inl hlt⟩
    · rcases hview.not_commits_of_resolve hG hfloor hup hr hjust hres with hno | ⟨hd, hnone⟩
      · exact ⟨r + 1, hset.skip hno, Or.inl le_rfl⟩
      · exact ⟨r, hset, Or.inr (hstuck hd hnone)⟩
    · have hnone := hpos.resolve_left (by omega)
      have hd := (resolve_eq_skipped hres).1
      rw [ultimateWitness_of_skipped hup hr hd] at hnone
      exact ⟨k, hset, Or.inr (hstuck hd hnone)⟩
  · rw [hs] at hgo
    cases hgo

/-- Stopping at a round leaves the accounts in order. -/
theorem passInv_stop (hview : View V G b) (hG : CertifiedDag V G) (hup : upTo ≤ u64Max) {r : ℕ}
    {st : Bullshark.OrderState} (hr : r ≤ upTo) (h : PassInv V G b upTo output r st)
    (hgo : (b.stepRound upTo r st).2 = false) :
    ∃ k, Settled V G k (output ++ (b.stepRound upTo r st).1.ordered)
      (b.stepRound upTo r st).1.seen (b.stepRound upTo r st).1.committedCache := by
  obtain ⟨k, hset, hpos⟩ := h
  rcases b.stepRound_cases upTo r st with
    ⟨d, cache, hoc, ⟨seen', ordered', -, hs⟩ | ⟨-, hs⟩⟩ | ⟨cache, -, hs⟩ | ⟨cache, hoc, hs⟩
  · rw [hs] at hgo
    cases hgo
  · obtain ⟨-, hset', -⟩ := hset.commit hview hG hup hr hpos hoc
    rw [hs]
    exact ⟨k, hset'⟩
  · rw [hs] at hgo
    cases hgo
  · obtain ⟨-, -, rfl⟩ := b.cachedOutcome_eq_of_ne_committed (by simp) hoc
    rw [hs]
    exact ⟨k, hset⟩

theorem Settled.extendOrder (h : Settled V G k output seen cache) (hview : View V G b)
    (hG : CertifiedDag V G) (hfloor : b.gcFloor = 0) (hup : upTo ≤ u64Max)
    (hjust : b.SkipsJustified upTo) :
    ∃ k', Settled V G k' (output ++ (b.extendOrder 0 upTo seen cache).1.ordered)
      (b.extendOrder 0 upTo seen cache).1.seen
      (b.extendOrder 0 upTo seen cache).1.committedCache := by
  refine b.extendOrderLoop_rule (I := PassInv V G b upTo output)
    (fun r st hr hst hgo => passInv_step hview hG hfloor hup hjust hr hst hgo)
    (fun r st hr hst hgo => passInv_stop hview hG hup hr hst hgo)
    (fun r st _ hst => hst.imp fun k hk => hk.1) le_rfl ?_
  exact ⟨k, by rwa [append_nil], Or.inl (Nat.zero_le k)⟩

end Round

/-! ### Whole runs -/

/-- The state of a replica that only inserted certificates of `G` and advanced. -/
structure AgreementInv (V : ValidatorSet) (G : Set Certificate) (r : Replica) : Prop where
  view : View V G r.bullshark
  schedule : r.schedule = .single V
  gcFloor : r.consensus.gcFloor = 0
  fromRound : r.consensus.fromRound = 0
  settled : ∃ k, Settled V G k r.output r.consensus.seen r.consensus.committedCache

theorem agreementInv_new : AgreementInv V G (.new (.single V)) where
  view := ⟨DagStore.indexed_new, fun c hc => by simp [Replica.new, DagStore.certs] at hc,
    fun r => ValidatorSchedule.single_forRound V r⟩
  schedule := rfl
  gcFloor := rfl
  fromRound := rfl
  settled := ⟨0, settled_zero⟩

theorem AgreementInv.insert {r : Replica} (h : AgreementInv V G r) (hG : CertifiedDag V G)
    {c : Certificate} (hc : c ∈ G) : AgreementInv V G (r.step (.insert c)) where
  view := by
    refine ⟨DagStore.indexed_insert hG.toUnequivocal h.view.indexed h.view.sub hc, ?_,
      h.view.committee⟩
    intro c' hc'
    rcases (DagStore.mem_certs_insert hG.toUnequivocal h.view.sub hc).1 hc' with
      rfl | hc'
    · exact hc
    · exact h.view.sub hc'
  schedule := h.schedule
  gcFloor := h.gcFloor
  fromRound := h.fromRound
  settled := h.settled

/-- The rule is about to be run in a state where it skips no round it should not. -/
def Replica.SkipsJustified (r : Replica) : Prop := r.bullshark.SkipsJustified r.upTo

/-- A replica that has the leader of every skipped round has no skip to justify. -/
theorem Replica.skipsJustified_of_isSome {r : Replica}
    (h : ∀ k ≤ r.upTo, r.bullshark.directStatus k = .skipped →
      (r.bullshark.leaderCertificate k).isSome) : r.SkipsJustified := by
  intro k hk hskip hnone
  have hsome := h k hk hskip
  rw [hnone] at hsome
  cases hsome

theorem AgreementInv.advance {r : Replica} (h : AgreementInv V G r) (hG : CertifiedDag V G)
    (hjust : r.SkipsJustified) : AgreementInv V G (r.step .advance) where
  view := h.view
  schedule := h.schedule
  gcFloor := h.gcFloor
  fromRound := h.fromRound
  settled := by
    obtain ⟨k, hset⟩ := h.settled
    have hup : r.upTo ≤ u64Max := by
      rw [Replica.upTo, ConsensusState.upTo, h.schedule]
      exact min_le_right _ _
    have hext := hset.extendOrder h.view hG h.gcFloor hup hjust
    rw [← h.fromRound] at hext
    exact hext

/-- The events of a node that collects certificates of `G` and extends its order. -/
def Collects (G : Set Certificate) : Event → Prop
  | .insert c => c ∈ G
  | .advance => True
  | .prune _ => False
  | .reschedule _ => False

/-- Every `advance` of a run is made in a state that justifies its skips. -/
def JustifiedRun (V : ValidatorSet) (events : List Event) : Prop :=
  Run.Meets Replica.step (fun r e => e = .advance → r.SkipsJustified) (.new (.single V)) events

/-- A replica outputs the order of the DAG up to some round. -/
theorem exists_output_eq_order (hG : CertifiedDag V G) {events : List Event}
    (hevents : ∀ e ∈ events, Collects G e) (hjust : JustifiedRun V events) :
    ∃ k, ((Replica.new (.single V)).run events).output = order V G k := by
  have hinv : AgreementInv V G ((Replica.new (.single V)).run events) := by
    refine Run.Meets.induction hjust agreementInv_new fun r e he hcond h => ?_
    have hcollects := hevents e he
    cases e with
    | insert c => exact h.insert hG hcollects
    | advance => exact h.advance hG (hcond rfl)
    | prune g | reschedule schedule => exact hcollects.elim
  obtain ⟨k, hset⟩ := hinv.settled
  exact ⟨k, hset.output_eq⟩

/-- Two replicas that collect certificates of one certified DAG, in any order and with
`advance` called at any time, never disagree: the output of one is an initial part of that
of the other. -/
theorem agreement (hG : CertifiedDag V G) {events events' : List Event}
    (hevents : ∀ e ∈ events, Collects G e) (hevents' : ∀ e ∈ events', Collects G e)
    (hjust : JustifiedRun V events) (hjust' : JustifiedRun V events') :
    ((Replica.new (.single V)).run events).output <+:
        ((Replica.new (.single V)).run events').output ∨
      ((Replica.new (.single V)).run events').output <+:
        ((Replica.new (.single V)).run events).output := by
  obtain ⟨k, hk⟩ := exists_output_eq_order hG hevents hjust
  obtain ⟨k', hk'⟩ := exists_output_eq_order hG hevents' hjust'
  rw [hk, hk']
  rcases Nat.le_total k k' with hle | hle
  · exact Or.inl (order_mono hle)
  · exact Or.inr (order_mono hle)

end Agreement

/-! ### A fork

Four validators with one vote each; 1 leads rounds 0 and 1, and 4 leads round 2. Two of
the four certificates of round 1 list the leader of round 0, one of them in the history of
the leader of round 2, which is committed by round 3. The leader of round 0 therefore
commits indirectly, but a node that has not received it yet skips its round. -/

section Fork

/-- The digests of the certificates, by round and author. -/
def forkDigests : List (ℕ × ℕ × Digest) :=
  [(0, 1, 0xa66dfffa7e0b08d529ceb2ea41551561aacbd686e90540ec3220dee561e62685),
   (0, 2, 0x2505d57eba3f73748181a6a7243fec174baa9e2891e5cb39fb99738fe63e01ef),
   (0, 3, 0x721fe7603b2f37f99269e738b5f4ca1171d7b6751f65f1999f09b8da4ee76273),
   (0, 4, 0x60a50417790282905854687c8566d013dcbb20178afe5e211059d543e1fbdd24),
   (1, 1, 0x5e8e1eb2dd8f9f46a9e6c0a986ba6312be8819077dbb194cd72357f44cf4977d),
   (1, 2, 0x6655905e1243e70b97dd90ffc395f6d4cd2ad6f438738d401ef90c8d6ae08bea),
   (1, 3, 0xce9b3039df8cd2bcdfc54fd5aed628cedadb557d6fd860e109305f58f7a31cf8),
   (1, 4, 0x6983a8d9e04f8a979239c4c5b83f3afadcc632080e52815eac4122c16ab5bd6c),
   (2, 1, 0x5a5a5d030cc272e1a21e707108e9df8fcd43f195a7c68281bff110bc4d7a2a4b),
   (2, 2, 0xc3d547e8ef9adcb0b7f4d2aa31d91730c0a95bee4fb5bbd0b1abc28d6e1b3884),
   (2, 4, 0xb0dad73e025c6f243a950ad7ade953c86d20cb4862ebfe6ee7be658e36a14b6b),
   (3, 1, 0xb7790812113e5e951e7ba4ebd8960df485c95824a26fd61f5346051dd1c76910),
   (3, 2, 0x3a7d537d39dda6f0170319d8460dc6ee4b3b1427b750725353011c07a35d889a),
   (3, 3, 0x12ba4bd403f32822b5f9b5218ca4f0b21317db90e0087a534b23cb3c24430dba)]

/-- SHA3-256 on the inputs of the fork. -/
@[reducible] def forkCrypto : Crypto := .ofTable forkDigests

def forkCommittee : ValidatorSet := .equalStakes 4

def forkDag : List Certificate :=
  [(0, 1, []), (0, 2, []), (0, 3, []), (0, 4, []),
   (1, 1, [2, 3, 4]), (1, 2, [2, 3, 4]), (1, 3, [1, 2, 3]), (1, 4, [1, 2, 3]),
   (2, 1, [2, 3, 4]), (2, 2, [2, 3, 4]), (2, 4, [1, 2, 3]),
   (3, 1, [4, 1, 2]), (3, 2, [4, 1, 2]), (3, 3, [4, 1, 2])].map
    fun (round, author, parents) => certificateAt forkDigests round author parents

variable (missing : List (ℕ × ℕ))

/-- A node that has everything except the given certificates when it extends its order. -/
def forkEvents : List Event :=
  (forkDag.filter fun c => (c.vertex.round, c.vertex.author.val) ∉ missing).map .insert ++
    [.advance]

/-- The state in which such a node extends its order. -/
def forkReplica : Replica :=
  @Replica.run forkCrypto (.new (.single forkCommittee))
    ((forkDag.filter fun c => (c.vertex.round, c.vertex.author.val) ∉ missing).map .insert)

theorem forkEvents_collects :
    ∀ e ∈ forkEvents missing, Collects {c | c ∈ forkDag} e := by
  intro e he
  rw [forkEvents, mem_append, mem_map, mem_singleton] at he
  rcases he with ⟨c, hc, rfl⟩ | rfl
  · exact mem_of_mem_filter hc
  · trivial

theorem certifiedDag_fork : @CertifiedDag forkCrypto forkCommittee {c | c ∈ forkDag} :=
  @certifiedDag_of_list forkCrypto _ _ (by decide +kernel) (by decide +kernel)
    (by decide +kernel) (by decide +kernel) (by decide +kernel)

/-- Without the proviso agreement fails: a node that lacks the leader of round 0 and its two
supporters outputs the leader of round 1 first, one that has everything outputs the leader
of round 0 first. -/
theorem agreement_fails :
    let run := fun events => (@Replica.run forkCrypto (.new (.single forkCommittee)) events).output
    let late := forkEvents [(0, 1), (1, 3), (1, 4)]
    @CertifiedDag forkCrypto forkCommittee {c | c ∈ forkDag} ∧
      (∀ e ∈ late, Collects {c | c ∈ forkDag} e) ∧
      (∀ e ∈ forkEvents [], Collects {c | c ∈ forkDag} e) ∧
      ¬ run late <+: run (forkEvents []) ∧ ¬ run (forkEvents []) <+: run late := by
  refine ⟨certifiedDag_fork, forkEvents_collects _, forkEvents_collects _, ?_, ?_⟩
  · decide +kernel
  · decide +kernel

theorem justifiedRun_fork
    (h : ∀ k ≤ (forkReplica missing).upTo,
      @directStatus forkCrypto (forkReplica missing).bullshark k = .skipped →
        (@leaderCertificate forkCrypto (forkReplica missing).bullshark k).isSome) :
    @JustifiedRun forkCrypto forkCommittee (forkEvents missing) := by
  let := forkCrypto
  refine Run.meets_append.2 ⟨Run.meets_of_forall (fun r e he hadv => ?_) _,
    fun _ => Replica.skipsJustified_of_isSome h, trivial⟩
  rw [mem_map] at he
  obtain ⟨c, -, rfl⟩ := he
  cases hadv

/-- A node that lacks two certificates of the fork has output the leader of round 0, where
one that has everything goes on. -/
theorem agreement_fork :
    let run := fun events => (@Replica.run forkCrypto (.new (.single forkCommittee)) events).output
    run (forkEvents [(0, 4), (1, 4)]) = [digestAt forkDigests 0 1] ∧
      (run (forkEvents [])).length = 8 ∧
      (run (forkEvents [(0, 4), (1, 4)]) <+: run (forkEvents []) ∨
        run (forkEvents []) <+: run (forkEvents [(0, 4), (1, 4)])) := by
  refine ⟨by decide +kernel, by decide +kernel, ?_⟩
  apply @agreement forkCrypto _ _ certifiedDag_fork
  · exact forkEvents_collects _
  · exact forkEvents_collects _
  · exact justifiedRun_fork _ (by decide +kernel)
  · exact justifiedRun_fork _ (by decide +kernel)

end Fork

end QChain
