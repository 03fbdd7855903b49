import QChain.Consensus.State
import QChain.Consensus.Walk

/-!
# Exactly-once causal delivery

Over every run that inserts certificates in any order and never prunes, the digests returned by
`advance` are distinct, and each stands after all parents of its certificate. The result rests on
the walk alone, which appends the post-order of a complete history or nothing.
-/

namespace QChain

open Bullshark List PostOrder

section Delivery

variable [Crypto]

/-- Digests tell vertices apart, round-0 certificates have no parents, and parents have
strictly lower rounds. -/
structure CausalInput (G : Set Certificate) : Prop where
  digest_inj : DigestInjOn G
  round_zero : ∀ c ∈ G, c.vertex.round = 0 → c.vertex.parents = []
  parent_lt : ∀ c ∈ G, ∀ c' ∈ G, c'.digest ∈ c.vertex.parents → c'.vertex.round < c.vertex.round

/-- The digest belongs to a certificate of `G` whose parents all stand before it. -/
def AfterParents (G : Set Certificate) (x : Digest) (before : List Digest) : Prop :=
  ∃ c ∈ G, c.digest = x ∧ ∀ p ∈ c.vertex.parents, p ∈ before

/-- An output with its record: no repetition, parents first, and `seen` is its set. -/
structure DeliveredInv (G : Set Certificate) (output : List Digest) (seen : Finset Digest) :
    Prop where
  nodup : output.Nodup
  causal : EachAfter (AfterParents G) output
  mem_seen : ∀ x, x ∈ seen ↔ x ∈ output

variable {G : Set Certificate} {b : Bullshark} {seen : Finset Digest}

theorem CausalInput.parentsBelow (hG : CausalInput G) (hdag : DagStore.HeldFrom G b.dag) :
    b.ParentsBelow := by
  intro d c hget _ p hp c' hget'
  obtain ⟨hc, -⟩ := hdag hget
  obtain ⟨hc', hdigest⟩ := hdag hget'
  exact hG.parent_lt c hc c' hc' (hdigest ▸ hp)

/-- With the barrier at round 0 a walk visits every parent of a held certificate. -/
theorem CausalInput.mem_succ_of_parent (hG : CausalInput G) (hdag : DagStore.HeldFrom G b.dag)
    (hfloor : b.gcFloor = 0) {d p : Digest} {c : Certificate} (hget : b.dag.get d = some c)
    (hp : p ∈ c.vertex.parents) :
    p ∈ b.succ d := by
  by_cases hround : c.vertex.round ≤ b.gcFloor
  · have hzero : c.vertex.round = 0 := by omega
    rw [hG.round_zero c (hdag hget).1 hzero] at hp
    simp at hp
  · rw [succ_of_get hget (Nat.not_le.1 hround), mem_insertionSort]
    exact hp

/-! ### One walk -/

/-- Appending the post-order of a complete history keeps the record. -/
theorem DeliveredInv.append_history (hG : CausalInput G) (hdag : DagStore.HeldFrom G b.dag)
    (hfloor : b.gcFloor = 0) {output : List Digest} (h : DeliveredInv G output seen) {d : Digest}
    (hd : b.Complete seen d) :
    DeliveredInv G (output ++ b.history seen d) (seen ∪ (b.history seen d).toFinset) := by
  have hkey : (output ++ b.history seen d).Nodup ∧
      EachAfter (AfterParents G) (output ++ b.history seen d) := by
    have hinit : (output ++ []).Nodup ∧ EachAfter (AfterParents G) (output ++ []) := by
      rw [append_nil]
      exact ⟨h.nodup, h.causal⟩
    refine visit_induction (P := fun o =>
      (output ++ o).Nodup ∧ EachAfter (AfterParents G) (output ++ o))
      (ranked_succ (hG.parentsBelow hdag)) (fun x o hx ho hxs hxo hsucc => ?_)
      (Nat.lt_succ_self _) hinit
    have hxout : x ∉ output := fun hmem => hxs ((h.mem_seen x).2 hmem)
    obtain ⟨c, hget⟩ := (hd x hx).resolve_left hxs
    obtain ⟨hc, hdigest⟩ := hdag hget
    rw [← append_assoc]
    constructor
    · refine nodup_append.2 ⟨ho.1, nodup_singleton x, fun y hy z hz hyz => ?_⟩
      rw [mem_singleton] at hz
      subst hz hyz
      rcases mem_append.1 hy with hy | hy
      · exact hxout hy
      · exact hxo hy
    · refine ho.2.concat ⟨c, hc, hdigest, fun p hp => ?_⟩
      have hps := hsucc p (hG.mem_succ_of_parent hdag hfloor hget hp)
      rw [h.mem_seen] at hps
      exact mem_append.2 hps
  refine ⟨hkey.1, hkey.2, fun x => ?_⟩
  rw [Finset.mem_union, mem_toFinset, mem_append, h.mem_seen]

/-- A walk keeps the record, whether it succeeds or not. -/
theorem DeliveredInv.walk (hG : CausalInput G) (hdag : DagStore.HeldFrom G b.dag)
    (hfloor : b.gcFloor = 0) {output ordered : List Digest}
    (h : DeliveredInv G (output ++ ordered) seen) (d : Digest) :
    DeliveredInv G (output ++ (b.walkCausalHistory d seen ordered).2.2)
      (b.walkCausalHistory d seen ordered).2.1 := by
  by_cases hd : b.Complete seen d
  · rw [walkCausalHistory_of_complete (hG.parentsBelow hdag) hd, ← append_assoc]
    exact h.append_history hG hdag hfloor hd
  · rw [walkCausalHistory_of_not_complete (hG.parentsBelow hdag) hd]
    exact h

/-! ### One `advance` -/

theorem DeliveredInv.extendOrder (hG : CausalInput G) (hdag : DagStore.HeldFrom G b.dag)
    (hfloor : b.gcFloor = 0) {output : List Digest} (h : DeliveredInv G output seen)
    (fromRound upToRound : ℕ) (cache : Map ℕ Digest) :
    DeliveredInv G (output ++ (b.extendOrder fromRound upToRound seen cache).1.ordered)
      (b.extendOrder fromRound upToRound seen cache).1.seen := by
  -- the record is kept by every round, whatever its outcome
  have hround : ∀ round (st : Bullshark.OrderState), DeliveredInv G (output ++ st.ordered) st.seen →
      DeliveredInv G (output ++ (b.stepRound upToRound round st).1.ordered)
        (b.stepRound upToRound round st).1.seen := by
    intro round st hst
    rcases b.stepRound_cases upToRound round st with
      ⟨d, cache, -, ⟨seen', ordered', hw, hs⟩ | ⟨-, hs⟩⟩ | ⟨cache, -, hs⟩ | ⟨cache, -, hs⟩
    · have hwalk := hst.walk hG hdag hfloor d
      rw [hw] at hwalk
      rw [hs]
      exact hwalk
    · rw [hs]
      exact hst
    · rw [hs]
      exact hst
    · rw [hs]
      exact hst
  refine b.extendOrderLoop_rule
    (I := fun _ st => DeliveredInv G (output ++ st.ordered) st.seen)
    (Q := fun _ st => DeliveredInv G (output ++ st.ordered) st.seen)
    (fun round st _ hst _ => hround round st hst) (fun round st _ hst _ => hround round st hst)
    (fun _ _ _ hst => hst) le_rfl ?_
  rwa [append_nil]

/-! ### Whole runs -/

/-- The record of a replica that never pruned. -/
structure DeliveryInv (G : Set Certificate) (r : Replica) : Prop where
  held : DagStore.HeldFrom G r.dag
  gcFloor : r.consensus.gcFloor = 0
  delivered : DeliveredInv G r.output r.consensus.seen

theorem deliveryInv_new (G : Set Certificate) (schedule : ValidatorSchedule) :
    DeliveryInv G (Replica.new schedule) where
  held := DagStore.heldFrom_new G
  gcFloor := rfl
  delivered := ⟨nodup_nil, EachAfter.nil, fun x => by simp [Replica.new, ConsensusState.new]⟩

theorem DeliveryInv.step (hG : CausalInput G) {r : Replica} (h : DeliveryInv G r) {e : Event}
    (hinsert : ∀ c, e = .insert c → c ∈ G) (hprune : ∀ g, e ≠ .prune g) :
    DeliveryInv G (r.step e) := by
  cases e with
  | insert c => exact ⟨h.held.insert (hinsert c rfl), h.gcFloor, h.delivered⟩
  | advance =>
    refine ⟨h.held, h.gcFloor, ?_⟩
    exact h.delivered.extendOrder hG (b := ⟨r.dag, r.schedule, r.consensus.gcFloor⟩) h.held
      h.gcFloor _ _ _
  | prune g => exact absurd rfl (hprune g)
  | reschedule schedule => exact ⟨h.held, h.gcFloor, h.delivered⟩

/-- Exactly-once causal delivery: over a run that never prunes, no digest is output twice,
and every digest output is that of an inserted certificate all of whose parents were output
strictly earlier. -/
theorem exactly_once_causal_delivery (schedule : ValidatorSchedule) (events : List Event)
    (hG : CausalInput {c | c ∈ inserted events}) (hprune : ∀ g, Event.prune g ∉ events) :
    ((Replica.new schedule).run events).output.Nodup ∧
      ∀ before x after,
        ((Replica.new schedule).run events).output = before ++ x :: after →
          (∃ c ∈ inserted events, c.digest = x) ∧
            ∀ c ∈ inserted events, c.digest = x → ∀ p ∈ c.vertex.parents, p ∈ before := by
  have hinv : DeliveryInv {c | c ∈ inserted events} ((Replica.new schedule).run events) := by
    refine Run.induction (deliveryInv_new _ schedule) fun r e he h => ?_
    refine h.step hG (fun c hc => ?_) fun g hg => ?_
    · rw [hc] at he
      exact mem_inserted.2 he
    · rw [hg] at he
      exact hprune g he
  refine ⟨hinv.delivered.nodup, fun before x after hout => ?_⟩
  obtain ⟨c, hc, hdigest, hparents⟩ := hinv.delivered.causal hout
  refine ⟨⟨c, hc, hdigest⟩, fun c' hc' hdigest' p hp => ?_⟩
  have hvertex := hG.digest_inj hc' hc (hdigest'.trans hdigest.symm)
  exact hparents p (hvertex ▸ hp)

end Delivery

/-! ### A chain of three rounds -/

section Chain

/-- The digests of the certificates of a single validator in rounds 0, 1 and 2. -/
def chainDigests : List (ℕ × ℕ × Digest) :=
  [(0, 1, 0xa66dfffa7e0b08d529ceb2ea41551561aacbd686e90540ec3220dee561e62685),
   (1, 1, 0x3e46ee5455c9f3fc31c94521baa8cac2a0a02613b06770a45501293050e09499),
   (2, 1, 0xc2cc9d17631aa7c2e32d75f78fd6855221f8d46b2effd658d6977da9a9d789c2)]

/-- SHA3-256 on the inputs of the chain. -/
@[reducible] def chainCrypto : Crypto := .ofTable chainDigests

/-- The certificate of one round of the chain. -/
def chainCertificate (round : ℕ) : Certificate :=
  certificateAt chainDigests round 1 (if round = 0 then [] else [1])

/-- The committee of the chain's only author. -/
def chainSchedule : ValidatorSchedule := .single (.equalStakes 1)

/-- The chain arriving top first, with `advance` called before and after it is complete. -/
def chainEvents : List Event :=
  [.insert (chainCertificate 2), .insert (chainCertificate 1), .advance,
   .insert (chainCertificate 0), .advance]

/-- On the chain nothing is delivered before round 0 arrives; then two certificates are, in
order. -/
theorem exactly_once_causal_delivery_chain :
    let out := (@Replica.run chainCrypto (.new chainSchedule) chainEvents).output
    out = [digestAt chainDigests 0 1, digestAt chainDigests 1 1] ∧ out.Nodup ∧
      ∀ before x after, out = before ++ x :: after →
        (∃ c ∈ inserted chainEvents, @Certificate.digest chainCrypto c = x) ∧
          ∀ c ∈ inserted chainEvents, @Certificate.digest chainCrypto c = x →
            ∀ p ∈ c.vertex.parents, p ∈ before := by
  let := chainCrypto
  refine ⟨by decide +kernel, exactly_once_causal_delivery chainSchedule chainEvents
    ⟨?_, ?_, ?_⟩ ?_⟩
  · have h : ∀ c ∈ inserted chainEvents, ∀ c' ∈ inserted chainEvents,
        c.digest = c'.digest → c.vertex = c'.vertex := by decide +kernel
    exact h
  · have h : ∀ c ∈ inserted chainEvents, c.vertex.round = 0 → c.vertex.parents = [] := by
      decide +kernel
    exact h
  · have h : ∀ c ∈ inserted chainEvents, ∀ c' ∈ inserted chainEvents,
        c'.digest ∈ c.vertex.parents → c'.vertex.round < c.vertex.round := by decide +kernel
    exact h
  · intro g hg
    simp [chainEvents] at hg

end Chain

end QChain
