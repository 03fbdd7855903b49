import QChain.Consensus.Agreement
import QChain.Consensus.Growth

/-!
# Garbage collection and the order

A replica that prunes is compared with one that is given the same certificates and never does.
Pruning below `g` cuts walks off at round `g`, as if the parents of the certificates of that round
had been emitted. The order is the same as long as they have been when the barrier is set, or when
the certificate arrives (`BarrierClosed`). Below the barrier the unpruned replica then finds nothing
to do, and from the barrier on both resolve every round alike and walk the same certificates.
-/

namespace QChain

open Bullshark ConsensusState DagStore List PostOrder Relation

section Pruning

variable [Crypto] {V : ValidatorSet} {G : Set Certificate} {b b' : Bullshark} {upTo : ℕ}

/-! ### One pass -/

/-- What two passes remember agrees from the barrier on, and the parents of certificates at
the barrier are emitted. -/
structure Tracks (b b' : Bullshark) (st st' : Bullshark.OrderState) : Prop where
  seen : ∀ x, (∀ c ∈ b.dag.certs, c.digest = x → b'.gcFloor ≤ c.vertex.round) →
    (x ∈ st'.seen ↔ x ∈ st.seen)
  cache : ∀ k, b'.gcFloor ≤ k → st'.committedCache.lookup k = st.committedCache.lookup k
  held : ∀ k d, st.committedCache.lookup k = some d →
    ∃ c ∈ b.dag.certs, c.digest = d ∧ c.vertex.round = k
  barrier : ∀ c ∈ b.dag.certs, c.vertex.round = b'.gcFloor → 0 < b'.gcFloor →
    ∀ p ∈ c.vertex.parents, p ∈ st.seen

/-- Both passes walk the same certificates. -/
theorem Cut.history_eq (h : Cut V b b') {st st' : Bullshark.OrderState} (hst : Tracks b b' st st')
    {c : Certificate} (hc : c ∈ b.dag.certs) (hround : b'.gcFloor ≤ c.vertex.round) :
    b'.history st'.seen c.digest = b.history st.seen c.digest := by
  have hget : b.dag.get c.digest = some c := hc
  have hget' : b'.dag.get c.digest = some c := h.above c hc hround
  -- whatever the second walk meets is held at the barrier or above
  have hmet : ∀ x, Reach b'.succ st'.seen c.digest x →
      ∃ cx ∈ b'.dag.certs, cx.digest = x ∧ b'.gcFloor ≤ cx.vertex.round := by
    intro x hx
    exact h.exists_of_path (h.above c hc hround) hround (hx.lift id fun _ _ hstep => hstep.2)
  have happend : visit b.succ st.seen (c.vertex.round + 1) c.digest ([] ++ []) =
      [] ++ visit b'.succ st'.seen (c.vertex.round + 1) c.digest [] := by
    apply visit_append (b.dag.holdsFrom b'.gcFloor)
    · intro x hx
      obtain ⟨cx, hcx, rfl, hfloor⟩ := hmet x hx
      rw [hst.seen _ fun c' hc' hdigest => ?_]
      · simp
      · rwa [h.full.certified.eq_of_digest hc' (h.sub hcx) hdigest]
    · intro x hx _
      obtain ⟨cx, hcx, hdigest, hfloor⟩ := hmet x hx
      exact h.succ_eq_filter (h.full.holdsFrom_iff.2 ⟨cx, h.sub hcx, hdigest, hfloor⟩)
    · -- an edge that leaves starts at the barrier
      intro x hx _ p hp hlow
      left
      obtain ⟨cx, hcx, rfl, hfloor⟩ := hmet x hx
      obtain ⟨cx', hgetx, hpos, hmem⟩ := mem_succ hp
      obtain rfl : cx = cx' := Option.mem_unique ((h.sub hcx) : b.dag.get _ = _) hgetx
      obtain ⟨cp, hcp, rfl, hbelow⟩ :=
        h.full.certified.parent_mem cx (h.sub hcx) (by omega) p hmem
      rw [holdsFrom_digest hcp, decide_eq_false_iff_not] at hlow
      exact hst.barrier cx (h.sub hcx) (by omega) (by omega) _ hmem
  rw [Bullshark.history, Bullshark.history, rank_of_get hget,
    rank_of_get hget']
  exact happend.symm

/-- A round from the barrier on does the same in both passes. -/
theorem Cut.tracks_step (h : Cut V b b') (hup : upTo < u64Max) {round : ℕ}
    {st st' : Bullshark.OrderState} (hge : b'.gcFloor ≤ round) (hle : round ≤ upTo)
    (hordered : st'.ordered = st.ordered) (hst : Tracks b b' st st') :
    (b.stepRound upTo round st).2 = (b'.stepRound upTo round st').2 ∧
      (b'.stepRound upTo round st').1.ordered = (b.stepRound upTo round st).1.ordered ∧
      Tracks b b' (b.stepRound upTo round st).1 (b'.stepRound upTo round st').1 := by
  have houtcome := h.fst_cachedOutcome_eq hge hle hup (hst.cache round hge)
  have hheld : ∀ d, (b.cachedOutcome upTo round st.committedCache).1 = .committed d →
      ∃ c ∈ b.dag.certs, c.digest = d ∧ c.vertex.round = round := by
    intro d hd
    cases hlook : st.committedCache.lookup round with
    | some d' =>
      simp only [cachedOutcome, hlook, RoundOutcome.committed.injEq] at hd
      exact hst.held round d (hd ▸ hlook)
    | none =>
      rw [b.fst_cachedOutcome hlook] at hd
      obtain ⟨c, hc, hrest⟩ := h.exists_of_resolve hge hle hup hd
      exact ⟨c, h.sub hc, hrest⟩
  have hzero : b.gcFloor ≤ round := by
    rw [h.full.gcFloor]
    exact Nat.zero_le _
  -- the caches after the round
  have hcache : ∀ k, b'.gcFloor ≤ k →
      (b'.cachedOutcome upTo round st'.committedCache).2.lookup k =
        (b.cachedOutcome upTo round st.committedCache).2.lookup k := by
    intro k hk
    by_cases hkr : k = round
    · rw [hkr, b.lookup_snd_cachedOutcome_self, b'.lookup_snd_cachedOutcome_self, houtcome]
    · rw [b.lookup_snd_cachedOutcome_of_ne hkr, b'.lookup_snd_cachedOutcome_of_ne hkr,
        hst.cache k hk]
  have hheld' : ∀ k d, (b.cachedOutcome upTo round st.committedCache).2.lookup k = some d →
      ∃ c ∈ b.dag.certs, c.digest = d ∧ c.vertex.round = k := by
    intro k d hlook
    by_cases hkr : k = round
    · rw [hkr, b.lookup_snd_cachedOutcome_self] at hlook
      rw [hkr]
      apply hheld
      cases hcase : (b.cachedOutcome upTo round st.committedCache).1 with
      | committed d' =>
        rw [hcase] at hlook
        cases hlook
        rfl
      | skipped | undecided =>
        rw [hcase] at hlook
        cases hlook
    · rw [b.lookup_snd_cachedOutcome_of_ne hkr] at hlook
      exact hst.held k d hlook
  rw [h.full.cut.stepRound_of_held fun d hd => ?_, h.stepRound_of_held fun d hd => ?_, houtcome]
  · cases hcase : (b.cachedOutcome upTo round st.committedCache).1 with
    | committed d =>
      obtain ⟨c, hc, rfl, hround⟩ := hheld d hcase
      have hhistory := h.history_eq hst hc (by omega)
      refine ⟨rfl, ?_, fun x hx => ?_, hcache, hheld', fun c hc hfloor hpos p hp => ?_⟩
      · show st'.ordered ++ b'.history st'.seen c.digest = st.ordered ++ _
        rw [hhistory, hordered]
      · show x ∈ st'.seen ∪ (b'.history st'.seen c.digest).toFinset ↔ x ∈ st.seen ∪ _
        rw [hhistory, Finset.mem_union, Finset.mem_union, hst.seen x hx]
      · exact Finset.mem_union_left _ (hst.barrier c hc hfloor hpos p hp)
    | skipped | undecided => exact ⟨rfl, hordered, hst.seen, hcache, hheld', hst.barrier⟩
  · rw [houtcome] at hd
    obtain ⟨c, hc, hdigest, hround⟩ := hheld d hd
    exact ⟨c, h.above c hc (by omega), hdigest, by omega⟩
  · obtain ⟨c, hc, hdigest, hround⟩ := hheld d hd
    exact ⟨c, hc, hdigest, by omega⟩

/-- The pass above the barrier does what the whole pass does from there on, if that is idle
below. -/
theorem Cut.extendOrder_tracks (h : Cut V b b') (hup : upTo < u64Max)
    (hfloor : b'.gcFloor ≤ upTo + 1) {seen seen' : Finset Digest} {cache cache' : Map ℕ Digest}
    (hst : Tracks b b' ⟨[], seen, cache⟩ ⟨[], seen', cache'⟩)
    (hidle : ∀ r < b'.gcFloor,
      b.stepRound upTo r ⟨[], seen, cache⟩ = (⟨[], seen, cache⟩, true)) :
    let pass := b.extendOrder 0 upTo seen cache
    let pass' := b'.extendOrder b'.gcFloor upTo seen' cache'
    pass.2 = pass'.2 ∧ pass'.1.ordered = pass.1.ordered ∧ Tracks b b' pass.1 pass'.1 := by
  obtain ⟨_, rfl, heq⟩ := b.exists_extendOrderLoop_eq
    (I := fun _ st => st = ⟨[], seen, cache⟩) hfloor (fun r st hr hst => by
      rw [hst, hidle r hr]
      exact ⟨rfl, rfl⟩) (Nat.zero_le _) rfl
  rw [Bullshark.extendOrder, heq]
  refine extendOrderLoop_simulation
    (R := fun round st st' => b'.gcFloor ≤ round ∧ st'.ordered = st.ordered ∧ Tracks b b' st st')
    (Q := fun st st' => st'.ordered = st.ordered ∧ Tracks b b' st st') ?_ ?_ le_rfl
    ⟨le_rfl, rfl, hst⟩
  · intro round st st' hround hR
    obtain ⟨hgo, hnext⟩ := h.tracks_step hup hR.1 hround hR.2.1 hR.2.2
    exact ⟨hgo, fun _ => ⟨by omega, hnext⟩, fun _ => hnext⟩
  · exact fun _ _ _ _ hR => hR.2

/-- Once the order is settled up to the barrier, the rounds below are idle. -/
theorem FullView.stepRound_idle (h : FullView V b) (hG : CertifiedDag V G)
    (hsub : b.dag.certs ⊆ G) {k : ℕ} {output : List Digest} {seen : Finset Digest}
    {cache : Map ℕ Digest} (hset : Settled V G k output seen cache) {r j : ℕ} (hr : r < k)
    (hj : b.Anchored j) (hrj : r ≤ j) :
    b.stepRound b.dag.highestRound r ⟨[], seen, cache⟩ = (⟨[], seen, cache⟩, true) := by
  have hview := h.view_of_subset hsub
  have hle : r ≤ b.dag.highestRound := by
    obtain ⟨w, hjw, hw, -⟩ := hj
    exact hrj.trans (hjw.trans (h.le_highestRound hw))
  cases hlook : cache.lookup r with
  | some d =>
    -- a cached commit is in the order already
    obtain ⟨-, c, rfl, hc⟩ := hset.cache_sound r d hlook
    have hmem : c.digest ∈ seen := by
      rw [hset.mem_seen, hset.output_eq]
      exact mem_order_of_commits hG.toUnequivocal hc hr
    simp only [stepRound, cachedOutcome, hlook,
      walkCausalHistory_of_mem (hview.parentsBelow hG) hmem, if_true]
  | none =>
    have hskip : b.resolve r b.dag.highestRound = .skipped := by
      cases hres : b.resolve r b.dag.highestRound with
      | skipped => rfl
      | undecided => exact absurd hres (h.resolve_ne_undecided hj hrj)
      | committed d =>
        obtain ⟨c, -, -, hc⟩ := hview.commits_of_resolve hG h.highest_lt.le hle hres
        exact absurd hc (hset.settled r hr hlook c)
    simp only [stepRound, cachedOutcome, hlook, hskip]

/-! ### Two replicas -/

/-- A replica that prunes next to one that does not. -/
structure Follows (V : ValidatorSet) (G : Set Certificate) (u p : Replica) : Prop where
  agreement : AgreementInv V G u
  cut : Cut V u.bullshark p.bullshark
  schedule : p.schedule = .single V
  highest : p.dag.highestRound = u.dag.highestRound
  reached : u.dag.highestRound = 0 ∨ ∃ c ∈ u.dag.certs, c.vertex.round = u.dag.highestRound
  floor_le : p.consensus.gcFloor ≤ u.dag.highestRound
  fromRound : p.consensus.fromRound = p.consensus.gcFloor
  finalized : p.consensus.finalizedFloor = u.consensus.finalizedFloor
  finalized_le : u.consensus.finalizedFloor ≤ u.dag.highestRound + 1
  output : p.output = u.output
  tracks : Tracks u.bullshark p.bullshark ⟨[], u.consensus.seen, u.consensus.committedCache⟩
    ⟨[], p.consensus.seen, p.consensus.committedCache⟩
  anchored : ∀ k d, u.consensus.committedCache.lookup k = some d → u.bullshark.Anchored k
  /-- The order has reached the barrier. -/
  below : 0 < p.consensus.gcFloor →
    ∃ c ∈ G, c.vertex.round + 1 = p.consensus.gcFloor ∧ c.digest ∈ u.output

theorem follows_new : Follows V G (.new (.single V)) (.new (.single V)) := by
  have hnone : ∀ c, c ∉ (Replica.new (.single V)).dag.certs := by
    intro c hc
    cases (hc : (none : Option Certificate) = some c)
  have hcommittee := fun r => ValidatorSchedule.single_forRound V r
  have hfull : FullView V (Replica.new (.single V)).bullshark := by
    refine ⟨⟨indexed_new, fun c hc => hc, hcommittee⟩, ?_, rfl,
      (by decide : 0 < u64Max)⟩
    exact ⟨⟨fun c hc => absurd hc (hnone c), fun c hc => absurd hc (hnone c)⟩,
      fun c hc => absurd hc (hnone c), fun c hc => absurd hc (hnone c),
      fun c hc => absurd hc (hnone c)⟩
  exact {
    agreement := agreementInv_new
    cut := hfull.cut
    schedule := rfl
    highest := rfl
    reached := Or.inl rfl
    floor_le := le_rfl
    fromRound := rfl
    finalized := rfl
    finalized_le := Nat.zero_le _
    output := rfl
    tracks := ⟨fun _ _ => Iff.rfl, fun _ _ => rfl, fun _ _ h => (by cases h),
      fun c hc => absurd hc (hnone c)⟩
    anchored := fun _ _ h => (by cases h)
    below := fun h => absurd h (lt_irrefl 0) }

namespace Follows

variable {u p : Replica} (h : Follows V G u p) (hG : CertifiedDag V G)

include h hG

/-- A certificate whose parents are held enters both stores. -/
theorem insert (hmax : ∀ c ∈ G, c.vertex.round < u64Max) {c : Certificate} (hc : c ∈ G)
    (hparents : 0 < c.vertex.round → ∀ d ∈ c.vertex.parents, ∃ c' ∈ u.dag.certs, c'.digest = d)
    (hclosed : 0 < p.consensus.gcFloor → c.vertex.round = p.consensus.gcFloor →
      ∀ d ∈ c.vertex.parents, d ∈ p.output) :
    Follows V G (u.step (.insert c)) (p.step (.insert c)) := by
  have hsub := h.agreement.view.sub
  have hsub' : p.dag.certs ⊆ G := fun c' hc' => hsub (h.cut.sub hc')
  have hmem : ∀ {c'}, c' ∈ (u.dag.insert c).certs ↔ c' = c ∨ c' ∈ u.dag.certs :=
    mem_certs_insert hG.toUnequivocal hsub hc
  have hmem' : ∀ {c'}, c' ∈ (p.dag.insert c).certs ↔ c' = c ∨ c' ∈ p.dag.certs :=
    mem_certs_insert hG.toUnequivocal hsub' hc
  have hhighest : (u.dag.insert c).highestRound = max u.dag.highestRound c.vertex.round :=
    highestRound_insert hG.toUnequivocal hsub hc h.reached
  have hhighest' : (p.dag.insert c).highestRound = max u.dag.highestRound c.vertex.round := by
    rw [← h.highest]
    apply highestRound_insert hG.toUnequivocal hsub' hc
    rw [h.highest]
    refine h.reached.imp_right fun ⟨c', hc', hround⟩ => ⟨c', h.cut.above c' hc' ?_, hround⟩
    rw [hround]
    exact h.floor_le
  have hagreement := h.agreement.insert hG hc
  -- the store stays parent-closed
  have hfull : FullView V (u.step (.insert c)).bullshark := by
    refine ⟨⟨hagreement.view.indexed, fun c hc => hc, hagreement.view.committee⟩,
      hG.of_closed hagreement.view.sub fun c' hc' hround d hd => ?_, h.cut.full.gcFloor, ?_⟩
    · have hheld : ∃ c' ∈ u.dag.certs, c'.digest = d := by
        rcases hmem.1 hc' with rfl | hold
        · exact hparents hround d hd
        · obtain ⟨c'', hc'', hdigest, -⟩ := h.cut.full.certified.parent_mem c' hold hround d hd
          exact ⟨c'', hc'', hdigest⟩
      obtain ⟨c'', hc'', hdigest⟩ := hheld
      exact ⟨c'', hmem.2 (Or.inr hc''), hdigest⟩
    · show (u.dag.insert c).highestRound < u64Max
      rw [hhighest]
      exact max_lt h.cut.full.highest_lt (hmax c hc)
  exact { h with
    agreement := hagreement
    cut := by
      refine ⟨hfull, indexed_insert hG.toUnequivocal h.cut.indexed hsub' hc,
        fun c' hc' => hmem.2 ?_, fun c' hc' hround => hmem'.2 ?_, h.cut.committee⟩
      · exact (hmem'.1 hc').imp_right fun hold => h.cut.sub hold
      · exact (hmem.1 hc').imp_right fun hold => h.cut.above c' hold hround
    highest := hhighest'.trans hhighest.symm
    reached := by
      right
      show ∃ c' ∈ (u.dag.insert c).certs, c'.vertex.round = (u.dag.insert c).highestRound
      rw [hhighest]
      rcases Nat.le_total u.dag.highestRound c.vertex.round with hle | hle
      · exact ⟨c, hmem.2 (Or.inl rfl), (max_eq_right hle).symm⟩
      · rcases h.reached with hzero | ⟨c', hc', hround⟩
        · exact ⟨c, hmem.2 (Or.inl rfl), by omega⟩
        · exact ⟨c', hmem.2 (Or.inr hc'), by rw [hround, max_eq_left hle]⟩
    floor_le := by
      show p.consensus.gcFloor ≤ (u.dag.insert c).highestRound
      rw [hhighest]
      exact h.floor_le.trans (le_max_left _ _)
    finalized_le := by
      show u.consensus.finalizedFloor ≤ (u.dag.insert c).highestRound + 1
      rw [hhighest]
      exact h.finalized_le.trans (Nat.succ_le_succ (le_max_left _ _))
    tracks := by
      refine ⟨fun x hx => h.tracks.seen x fun c' hc' => hx c' (hmem.2 (Or.inr hc')),
        h.tracks.cache, fun k d hlook => ?_, fun c' hc' hround hpos d hd => ?_⟩
      · obtain ⟨c', hc', hrest⟩ := h.tracks.held k d hlook
        exact ⟨c', hmem.2 (Or.inr hc'), hrest⟩
      · rcases hmem.1 hc' with rfl | hold
        · obtain ⟨k, hset⟩ := h.agreement.settled
          exact (hset.mem_seen d).2 (h.output ▸ hclosed hpos hround d hd)
        · exact h.tracks.barrier c' hold hround hpos d hd
    anchored := fun k d hlook => by
      apply h.cut.full.anchored_mono hfull
      · exact fun c' hc' => hmem.2 (Or.inr hc')
      · exact h.anchored k d hlook }

/-- Below the barrier the replica that does not prune has nothing left to do. -/
theorem idle {r : ℕ} (hr : r < p.consensus.gcFloor) :
    u.bullshark.stepRound u.dag.highestRound r
        ⟨[], u.consensus.seen, u.consensus.committedCache⟩ =
      (⟨[], u.consensus.seen, u.consensus.committedCache⟩, true) := by
  obtain ⟨k, hset⟩ := h.agreement.settled
  obtain ⟨c, hc, hround, hmem⟩ := h.below (by omega)
  rw [hset.output_eq] at hmem
  obtain ⟨j, hjk, hle, leader, hleader⟩ := exists_commits_of_mem_order hG hc hmem
  -- the commit that brought the certificate into the order is in the cache
  cases hlook : u.consensus.committedCache.lookup j with
  | none => exact absurd hleader (hset.settled j hjk hlook leader)
  | some d =>
    exact h.cut.full.stepRound_idle hG h.agreement.view.sub hset (by omega)
      (h.anchored j d hlook) (by omega)

omit hG in
theorem upTo_eq : u.upTo = u.dag.highestRound ∧ p.upTo = u.dag.highestRound := by
  have hlt := h.cut.full.highest_lt
  rw [Replica.upTo, Replica.upTo, ConsensusState.upTo, ConsensusState.upTo, h.agreement.schedule,
    h.schedule, ValidatorSchedule.single_resolvableFrontierRound, h.highest]
  exact ⟨min_eq_left hlt.le, min_eq_left hlt.le⟩

/-- Both replicas output the same. -/
theorem advance : Follows V G (u.step .advance) (p.step .advance) := by
  obtain ⟨hupTo, hupTo'⟩ := h.upTo_eq
  have hlt := h.cut.full.highest_lt
  obtain ⟨hstop, hordered, htracks⟩ := h.cut.extendOrder_tracks hlt
    (h.floor_le.trans (Nat.le_succ _)) h.tracks fun r hr => h.idle hG hr
  have hpass : u.bullshark.extendOrder u.consensus.fromRound u.upTo u.consensus.seen
      u.consensus.committedCache = u.bullshark.extendOrder 0 u.dag.highestRound u.consensus.seen
        u.consensus.committedCache := by
    rw [hupTo, h.agreement.fromRound]
  have hpass' : p.bullshark.extendOrder p.consensus.fromRound p.upTo p.consensus.seen
      p.consensus.committedCache = p.bullshark.extendOrder p.consensus.gcFloor
        u.dag.highestRound p.consensus.seen p.consensus.committedCache := by
    rw [hupTo', h.fromRound]
  rw [← hpass, ← hpass'] at hstop hordered htracks
  exact { h with
    agreement := by
      apply h.agreement.advance hG
      rw [Replica.SkipsJustified, hupTo]
      exact h.cut.full.skipsJustified hlt.le
    finalized := by
      show (p.consensus.advance p.dag p.schedule).1.finalizedFloor =
        (u.consensus.advance u.dag u.schedule).1.finalizedFloor
      rw [finalizedFloor_advance, finalizedFloor_advance,
        h.finalized, ← hstop]
    finalized_le := by
      show (u.consensus.advance u.dag u.schedule).1.finalizedFloor ≤ u.dag.highestRound + 1
      rw [finalizedFloor_advance, hpass]
      exact max_le h.finalized_le u.bullshark.snd_extendOrder_le
    output := congrArg₂ (· ++ ·) h.output hordered
    tracks := ⟨htracks.seen, htracks.cache, htracks.held, htracks.barrier⟩
    anchored := by
      show ∀ k d, (u.bullshark.extendOrder u.consensus.fromRound u.upTo u.consensus.seen
        u.consensus.committedCache).1.committedCache.lookup k = some d → _
      rw [hpass]
      exact anchored_extendOrder hlt h.anchored
    below := fun hpos => by
      obtain ⟨c, hc, hround, hmem⟩ := h.below hpos
      exact ⟨c, hc, hround, mem_append_left _ hmem⟩ }

omit hG in
/-- Pruning leaves what is at the barrier or above. -/
theorem prune {g R : ℕ} (hR : 1 ≤ R) (hretains : g ≤ p.consensus.finalizedFloor - R)
    (hclosed : p.consensus.gcFloor < g → ∀ c ∈ p.dag.certificatesInRound g,
      ∀ d ∈ c.vertex.parents, d ∈ p.output) : Follows V G u (p.step (.prune g)) := by
  have hg : g ≤ u.dag.highestRound := by
    have hle := h.finalized_le
    rw [← h.finalized] at hle
    omega
  let forgotten := p.consensus.forgetSeen (p.dag.pruneBelow g).2
  obtain ⟨hgc, hfrom, hfinalized⟩ := forgotten.setGcFloor_eq g
  have hfloor : (p.step (.prune g)).consensus.gcFloor = max p.consensus.gcFloor g := hgc
  -- the certificates of a new barrier round have their parents in the output
  have hparents : p.consensus.gcFloor < g → ∀ c ∈ u.dag.certs, c.vertex.round = g →
      ∀ d ∈ c.vertex.parents, d ∈ u.output := by
    intro hlt c hc hround d hd
    rw [← h.output]
    refine hclosed hlt c (h.cut.indexed.mem_certificatesInRound_iff.2 ⟨?_, hround⟩) d hd
    exact h.cut.above c hc (by rw [hround]; exact hlt.le)
  obtain ⟨k, hset⟩ := h.agreement.settled
  exact { h with
    cut := by
      refine ⟨h.cut.full, indexed_pruneBelow h.cut.indexed g, fun c hc => ?_,
        fun c hc hround => ?_, h.cut.committee⟩
      · exact h.cut.sub ((mem_certs_pruneBelow h.cut.indexed).1 hc).1
      · have hround' : (p.step (.prune g)).consensus.gcFloor ≤ c.vertex.round := hround
        rw [hfloor, max_le_iff] at hround'
        exact (mem_certs_pruneBelow h.cut.indexed).2
          ⟨h.cut.above c hc hround'.1, hround'.2⟩
    floor_le := by
      rw [hfloor]
      exact max_le h.floor_le hg
    fromRound := by
      show (forgotten.setGcFloor g).fromRound = (forgotten.setGcFloor g).gcFloor
      rw [hfrom, hgc]
      exact congrArg (max · g) h.fromRound
    finalized := by
      show (forgotten.setGcFloor g).finalizedFloor = _
      rw [hfinalized, ← h.finalized]
      exact max_eq_left (show g ≤ p.consensus.finalizedFloor by omega)
    tracks := by
      refine ⟨fun x hx => ?_, fun k hk => ?_, h.tracks.held, fun c hc hround hpos d hd => ?_⟩
      · replace hx : ∀ c ∈ u.dag.certs, c.digest = x →
            p.consensus.gcFloor ≤ c.vertex.round ∧ g ≤ c.vertex.round := by
          intro c hc hdigest
          have hround : (p.step (.prune g)).consensus.gcFloor ≤ c.vertex.round := hx c hc hdigest
          rwa [hfloor, max_le_iff] at hround
        have hkept : x ∉ (p.dag.pruneBelow g).2 := by
          intro hremoved
          obtain ⟨c, hget, hround⟩ := (mem_digestsBelow_iff h.cut.indexed).1
            ((mem_removed_pruneBelow p.dag g).1 hremoved).1
          have hheld := hx c (h.cut.sub (h.cut.indexed.mem_certs hget))
            (h.cut.indexed.digest_eq hget)
          omega
        show x ∈ p.consensus.seen \ (p.dag.pruneBelow g).2.toFinset ↔ _
        rw [Finset.mem_sdiff, mem_toFinset, and_iff_left hkept]
        exact h.tracks.seen x fun c hc hdigest => (hx c hc hdigest).1
      · replace hk : (p.step (.prune g)).consensus.gcFloor ≤ k := hk
        rw [hfloor, max_le_iff] at hk
        exact (forgotten.lookup_setGcFloor hk.2).trans (h.tracks.cache k hk.1)
      · replace hround : c.vertex.round = (p.step (.prune g)).consensus.gcFloor := hround
        replace hpos : 0 < (p.step (.prune g)).consensus.gcFloor := hpos
        rw [hfloor] at hround hpos
        rcases Nat.lt_or_ge p.consensus.gcFloor g with hlt | hge
        · rw [max_eq_right hlt.le] at hround
          exact (hset.mem_seen d).2 (hparents hlt c hc hround d hd)
        · rw [max_eq_left hge] at hround hpos
          exact h.tracks.barrier c hc hround hpos d hd
    below := by
      intro hpos
      rw [hfloor] at hpos ⊢
      rcases Nat.lt_or_ge p.consensus.gcFloor g with hlt | hge
      · rw [max_eq_right hlt.le]
        obtain ⟨top, htop, hround⟩ := h.reached.resolve_left (by omega)
        obtain ⟨c, hc, hcround⟩ := h.cut.full.exists_round_eq htop (hround ▸ hg)
        obtain ⟨c', hc', hmem, hbelow⟩ := h.cut.full.exists_parent hc (by omega)
        exact ⟨c', h.agreement.view.sub hc', by omega, hparents hlt c hc hcround _ hmem⟩
      · rw [max_eq_left hge] at hpos ⊢
        exact h.below hpos }

end Follows

/-! ### Whole runs -/

/-- The events of a node that collects certificates of `G`, extends its order and prunes. -/
def Operates (G : Set Certificate) : Event → Prop
  | .insert c => c ∈ G
  | .advance => True
  | .prune _ => True
  | .reschedule _ => False

/-- A certificate is delivered after its parents. -/
def ParentFirst : List Digest → List Event → Prop
  | _, [] => True
  | held, .insert c :: events =>
    (0 < c.vertex.round → ∀ d ∈ c.vertex.parents, d ∈ held) ∧
      ParentFirst (c.digest :: held) events
  | held, _ :: events => ParentFirst held events

/-- Pruning keeps a distance `R` to the finalized floor. -/
def Retains (R : ℕ) (r : Replica) : Event → Prop
  | .prune g => g ≤ r.consensus.finalizedFloor - R
  | _ => True

/-- The parents of every certificate at the barrier have been output: when the barrier is
set, and when a certificate of that round arrives later. -/
def BarrierClosed (r : Replica) : Event → Prop
  | .insert c => 0 < r.consensus.gcFloor → c.vertex.round = r.consensus.gcFloor →
    ∀ d ∈ c.vertex.parents, d ∈ r.output
  | .prune g => r.consensus.gcFloor < g → ∀ c ∈ r.dag.certificatesInRound g,
    ∀ d ∈ c.vertex.parents, d ∈ r.output
  | _ => True

instance decidableParentFirst : ∀ held events, Decidable (ParentFirst held events)
  | _, [] => isTrue trivial
  | held, .insert c :: events =>
    have := decidableParentFirst (c.digest :: held) events
    inferInstanceAs (Decidable (_ ∧ _))
  | held, .advance :: events => decidableParentFirst held events
  | held, .prune _ :: events => decidableParentFirst held events
  | held, .reschedule _ :: events => decidableParentFirst held events

instance (R : ℕ) (r : Replica) : DecidablePred (Retains R r)
  | .insert _ => isTrue trivial
  | .advance => isTrue trivial
  | .prune _ => inferInstanceAs (Decidable (_ ≤ _))
  | .reschedule _ => isTrue trivial

instance (r : Replica) : DecidablePred (BarrierClosed r)
  | .insert _ => inferInstanceAs (Decidable (_ → _ → _))
  | .advance => isTrue trivial
  | .prune _ => inferInstanceAs (Decidable (_ → ∀ c ∈ _, _))
  | .reschedule _ => isTrue trivial

/-- Whether an event is a pruning step. -/
def Event.isPrune : Event → Bool
  | .prune _ => true
  | _ => false

/-- The same run without its pruning steps. -/
def unpruned (events : List Event) : List Event := events.filter fun e => !e.isPrune

theorem Follows.run (hG : CertifiedDag V G) (hmax : ∀ c ∈ G, c.vertex.round < u64Max) {R : ℕ}
    (hR : 1 ≤ R) {events : List Event} (hevents : ∀ e ∈ events, Operates G e) {u p : Replica}
    (h : Follows V G u p) {held : List Digest}
    (hheld : ∀ d ∈ held, ∃ c ∈ u.dag.certs, c.digest = d) (hfirst : ParentFirst held events)
    (hretains : Run.Meets Replica.step (Retains R) p events)
    (hclosed : Run.Meets Replica.step BarrierClosed p events) :
    Follows V G (u.run (unpruned events)) (p.run events) := by
  induction events generalizing u p held with
  | nil => exact h
  | cons e events ih =>
    have hrest := fun e' he' => hevents e' (mem_cons_of_mem e he')
    have hoperates := hevents e (mem_cons_self ..)
    cases e with
    | insert c =>
      have hc : c ∈ G := hoperates
      have hmem : ∀ {c'}, c' ∈ (u.dag.insert c).certs ↔ c' = c ∨ c' ∈ u.dag.certs :=
        mem_certs_insert hG.toUnequivocal h.agreement.view.sub hc
      refine ih hrest (h.insert hG hmax hc (fun hround d hd => ?_) hclosed.1) (fun d hd => ?_)
        hfirst.2 hretains.2 hclosed.2
      · exact hheld d (hfirst.1 hround d hd)
      · rcases mem_cons.1 hd with rfl | hd
        · exact ⟨c, hmem.2 (Or.inl rfl), rfl⟩
        · obtain ⟨c', hc', hdigest⟩ := hheld d hd
          exact ⟨c', hmem.2 (Or.inr hc'), hdigest⟩
    | advance => exact ih hrest (h.advance hG) hheld hfirst hretains.2 hclosed.2
    | prune g =>
      exact ih hrest (h.prune hR hretains.1 hclosed.1) hheld hfirst hretains.2 hclosed.2
    | reschedule schedule => exact hoperates.elim

/-- Garbage collection does not change the order: a replica that prunes, at whatever
moments, with the parents of the certificates at each barrier in its output, outputs what it
would output without pruning. -/
theorem pruning_preserves_order (hG : CertifiedDag V G)
    (hmax : ∀ c ∈ G, c.vertex.round < u64Max) {R : ℕ} (hR : 1 ≤ R) {events : List Event}
    (hevents : ∀ e ∈ events, Operates G e) (hfirst : ParentFirst [] events)
    (hretains : Run.Meets Replica.step (Retains R) (.new (.single V)) events)
    (hclosed : Run.Meets Replica.step BarrierClosed (.new (.single V)) events) :
    ((Replica.new (.single V)).run events).output =
      ((Replica.new (.single V)).run (unpruned events)).output := by
  have hheld : ∀ d ∈ ([] : List Digest), ∃ c ∈ (Replica.new (.single V)).dag.certs,
      c.digest = d := fun d hd => absurd hd not_mem_nil
  exact (follows_new.run hG hmax hR hevents hheld hfirst hretains hclosed).output

end Pruning

/-! ### A slow validator

Validator 4 is slow: nobody lists its certificates of rounds 0 and 1, which list each other,
until its certificate of round 2 is the leader of that round and listed by the others. -/

section SlowValidator

def slowDigests : List (ℕ × ℕ × Digest) :=
  [(0, 1, 0xa66dfffa7e0b08d529ceb2ea41551561aacbd686e90540ec3220dee561e62685),
   (0, 2, 0x2505d57eba3f73748181a6a7243fec174baa9e2891e5cb39fb99738fe63e01ef),
   (0, 3, 0x721fe7603b2f37f99269e738b5f4ca1171d7b6751f65f1999f09b8da4ee76273),
   (0, 4, 0x60a50417790282905854687c8566d013dcbb20178afe5e211059d543e1fbdd24),
   (1, 1, 0x9cf654c8115012453e5e3350b6c9eff674c7a8fc68ca328a97be14b2e9fc393b),
   (1, 2, 0xebd526b1fabe76172998b3a03acca663582cb9874ea752d275284baf1f43f8c3),
   (1, 3, 0xce9b3039df8cd2bcdfc54fd5aed628cedadb557d6fd860e109305f58f7a31cf8),
   (1, 4, 0xb705ccc7002cddf204800617ef5ab107dae856ddfc189f49c5aac8cd848951ff),
   (2, 1, 0xdb8f5a7cf394a4a70ff49797c26381a6ac249436564eb18cbdb0a116cfbbbc77),
   (2, 2, 0xa24e5bc41ae679b38bdd2124e363be4d74cdbe88a1742f05a287660aad36d8cd),
   (2, 3, 0x87cd8820a7082959b0dc0aa5654b14fd7971c4a8602994eca0d2845e949ae9b6),
   (2, 4, 0xb168dd0285e16755fc3d544b87638a117c4020d4711102db78ba2079ee2aa6f6),
   (3, 1, 0x3df415198ac2c80f69f42c87f42bf812bff6c1551e6280a048bcc81b144830f8),
   (3, 2, 0x3a98258e7425d04d6958719c48431cb5aab8acf294ebe98165adf60e3053ccc5),
   (3, 3, 0xdf6713bd3c6418ea74ffa48a7f60655d80ff2cac2fea3e619f65e885cbb55c07),
   (4, 1, 0x13a29ff9b1d95a6e3ce6aeb1cd796ba302c8dd16027c99529eb6067cedc76d01),
   (4, 2, 0x6ebf2846ad15e26183ed88f3f41f8329683d6611c5c20de3d2adb452625bd4c3),
   (4, 3, 0x34d27721beb7ad47bee66a9c0229886288551f6550ff98ba2c1bfb0e71ff1856)]

/-- SHA3-256 on the inputs of the sample. -/
@[reducible] def slowCrypto : Crypto := .ofTable slowDigests

def slowCommittee : ValidatorSet := .equalStakes 4

def slowDag : List Certificate :=
  [(0, 1, []), (0, 2, []), (0, 3, []), (0, 4, []),
   (1, 1, [1, 2, 3]), (1, 2, [1, 2, 3]), (1, 3, [1, 2, 3]), (1, 4, [4, 1, 2]),
   (2, 1, [1, 2, 3]), (2, 2, [1, 2, 3]), (2, 3, [1, 2, 3]), (2, 4, [4, 1, 2]),
   (3, 1, [4, 1, 2]), (3, 2, [4, 1, 2]), (3, 3, [4, 1, 2]),
   (4, 1, [1, 2, 3]), (4, 2, [1, 2, 3]), (4, 3, [1, 2, 3])].map
    fun (round, author, parents) => certificateAt slowDigests round author parents

/-- The first certificates of the sample are delivered and the order is extended; then the
node prunes below round 1, gets the rest and extends the order again. -/
def slowEvents (first : ℕ) : List Event :=
  (slowDag.take first).map .insert ++ [.advance, .prune 1] ++
    (slowDag.drop first).map .insert ++ [.advance]

theorem certifiedDag_slow : @CertifiedDag slowCrypto slowCommittee {c | c ∈ slowDag} :=
  @certifiedDag_of_list slowCrypto _ _ (by decide +kernel) (by decide +kernel)
    (by decide +kernel) (by decide +kernel) (by decide +kernel)

theorem slowEvents_operates (first : ℕ) :
    ∀ e ∈ slowEvents first, Operates {c | c ∈ slowDag} e := by
  intro e he
  simp only [slowEvents, mem_append, mem_map, mem_cons, not_mem_nil,
    or_false] at he
  rcases he with ((⟨c, hc, rfl⟩ | rfl | rfl) | ⟨c, hc, rfl⟩) | rfl
  · exact mem_of_mem_take hc
  · trivial
  · trivial
  · exact mem_of_mem_drop hc
  · trivial

/-- A node that prunes before the leader of round 2 arrives has dropped the slow validator's
certificate of round 0 and outputs the one of round 1 without it. One that does not prune
outputs both. -/
theorem pruning_changes_order :
    let run := fun events => (@Replica.run slowCrypto (.new (.single slowCommittee)) events).output
    @CertifiedDag slowCrypto slowCommittee {c | c ∈ slowDag} ∧
      (∀ c ∈ slowDag, c.vertex.round < u64Max) ∧
      (∀ e ∈ slowEvents 11, Operates {c | c ∈ slowDag} e) ∧
      @ParentFirst slowCrypto [] (slowEvents 11) ∧
      Run.Meets (@Replica.step slowCrypto) (Retains 1) (.new (.single slowCommittee))
        (slowEvents 11) ∧
      digestAt slowDigests 1 4 ∈ run (slowEvents 11) ∧
      digestAt slowDigests 0 4 ∉ run (slowEvents 11) ∧
      run (slowEvents 11) ≠ run (unpruned (slowEvents 11)) := by
  refine ⟨certifiedDag_slow, by decide +kernel, slowEvents_operates 11, by decide +kernel,
    by decide +kernel, by decide +kernel, by decide +kernel, by decide +kernel⟩

/-- A node that prunes below round 1 once the leader of round 2 has committed. -/
theorem pruning_preserves_order_slow :
    let run := fun events => (@Replica.run slowCrypto (.new (.single slowCommittee)) events).output
    (run (slowEvents 15)).length = 12 ∧ run (slowEvents 15) = run (unpruned (slowEvents 15)) := by
  refine ⟨by decide +kernel, ?_⟩
  apply @pruning_preserves_order slowCrypto _ _ certifiedDag_slow
  · show ∀ c ∈ slowDag, c.vertex.round < u64Max
    decide +kernel
  · exact le_refl 1
  · exact slowEvents_operates 15
  · decide +kernel
  · decide +kernel
  · decide +kernel

end SlowValidator

end QChain
