import QChain.Consensus.Verdicts

/-!
# The rule above a barrier

Garbage collection makes a round a barrier: walks and searches treat a certificate at the barrier as
if it had no parents. The rule on a parent-closed DAG (`FullView`) is compared with the rule on what
is left of it above a barrier (`Cut`). From the barrier on the two see the same leaders, the same
support and the same paths, and resolve every round alike.
-/

namespace QChain

open Bullshark PostOrder Relation

variable [Crypto]

/-- The rule over a parent-closed DAG of a fixed committee, without a barrier. -/
structure FullView (V : ValidatorSet) (b : Bullshark) : Prop extends View V b.dag.certs b where
  certified : CertifiedDag V b.dag.certs
  gcFloor : b.gcFloor = 0
  /-- The round after the highest one is still a `u64`. -/
  highest_lt : b.dag.highestRound < u64Max

/-- The second rule sees the DAG of the first above its own barrier, and possibly some of
what lies below. -/
structure Cut (V : ValidatorSet) (b b' : Bullshark) : Prop where
  full : FullView V b
  indexed : b'.dag.Indexed
  sub : b'.dag.certs ⊆ b.dag.certs
  above : ∀ c ∈ b.dag.certs, b'.gcFloor ≤ c.vertex.round → c ∈ b'.dag.certs
  committee : ∀ r, b'.schedule.forRound r = V

/-- A certificate of this digest is held, of round `g` or later. -/
def DagStore.holdsFrom (dag : DagStore) (g : ℕ) (d : Digest) : Bool :=
  (dag.get d).any fun c => decide (g ≤ c.vertex.round)

theorem DagStore.holdsFrom_digest {dag : DagStore} {g : ℕ} {c : Certificate} (hc : c ∈ dag.certs) :
    dag.holdsFrom g c.digest = decide (g ≤ c.vertex.round) := by
  have hget : dag.get c.digest = some c := hc
  rw [holdsFrom, hget, Option.any_some]

namespace FullView

variable {V : ValidatorSet} {b : Bullshark} (h : FullView V b)

include h

/-- A view is cut off by its own barrier at round 0. -/
theorem cut : Cut V b b where
  full := h
  indexed := h.indexed
  sub _ hc := hc
  above _ hc _ := hc
  committee := h.committee

/-- A certificate above round 0 has a parent. -/
theorem exists_parent {c : Certificate} (hc : c ∈ b.dag.certs) (hround : 0 < c.vertex.round) :
    ∃ c' ∈ b.dag.certs, c'.digest ∈ c.vertex.parents ∧ c'.vertex.round + 1 = c.vertex.round := by
  obtain ⟨S, hquorum, hS⟩ := h.certified.parent_quorum c hc hround
  have hpos : 0 < V.stake S := (Nat.succ_pos _).trans_le hquorum
  obtain ⟨a, ha⟩ : S.Nonempty := by
    rw [Finset.nonempty_iff_ne_empty]
    rintro rfl
    exact absurd hpos (lt_irrefl 0)
  obtain ⟨c', hc', hmem, -⟩ := hS a ha
  obtain ⟨c'', hc'', hdigest, hbelow⟩ := h.certified.parent_mem c hc hround _ hmem
  have heq := h.certified.eq_of_digest hc'' hc' hdigest
  subst heq
  exact ⟨c'', hc'', hmem, hbelow⟩

theorem holdsFrom_iff {g : ℕ} {d : Digest} :
    b.dag.holdsFrom g d = true ↔ ∃ c ∈ b.dag.certs, c.digest = d ∧ g ≤ c.vertex.round := by
  rw [DagStore.holdsFrom, Option.any_eq_true]
  constructor
  · rintro ⟨c, hget, hc⟩
    exact ⟨c, h.indexed.mem_certs hget, h.indexed.digest_eq hget, of_decide_eq_true hc⟩
  · rintro ⟨c, hc, rfl, hround⟩
    exact ⟨c, hc, decide_eq_true hround⟩

end FullView

namespace Cut

variable {V : ValidatorSet} {b b' : Bullshark} (h : Cut V b b')

include h

theorem view : View V b.dag.certs b' := ⟨h.indexed, h.sub, h.committee⟩

theorem mem_certs_iff {c : Certificate} (hc : b'.gcFloor ≤ c.vertex.round) :
    c ∈ b'.dag.certs ↔ c ∈ b.dag.certs :=
  ⟨fun hmem => h.sub hmem, fun hmem => h.above c hmem hc⟩

/-- Parents of a certificate above the barrier are held. -/
theorem parent_mem {c : Certificate} (hc : c ∈ b.dag.certs) (hround : b'.gcFloor < c.vertex.round)
    {p : Digest} (hp : p ∈ c.vertex.parents) :
    ∃ c' ∈ b'.dag.certs, c'.digest = p ∧ c'.vertex.round + 1 = c.vertex.round := by
  obtain ⟨c', hc', hdigest, hbelow⟩ := h.full.certified.parent_mem c hc (by omega) p hp
  exact ⟨c', h.above c' hc' (by omega), hdigest, hbelow⟩

/-! ### The direct rule -/

section Round

variable {r : ℕ} (hr : b'.gcFloor ≤ r)

include hr

theorem certificateByAuthor_eq (a : ValidatorId) :
    b'.dag.certificateByAuthor r a = b.dag.certificateByAuthor r a := by
  ext c
  rw [h.indexed.certificateByAuthor_eq_some_iff, h.full.indexed.certificateByAuthor_eq_some_iff]
  refine and_congr_left fun hslot => h.mem_certs_iff ?_
  rwa [hslot.1]

theorem leaderCertificate_eq : b'.leaderCertificate r = b.leaderCertificate r := by
  rw [leaderCertificate, leaderCertificate, h.view.leaderForRound_eq,
    h.full.leaderForRound_eq]
  congr 1
  funext leader
  exact h.certificateByAuthor_eq hr leader

variable (hmax : r < u64Max)

include hmax

/-- The certificates of the next round are the same. -/
theorem mem_nextRound_iff {c : Certificate} (hc : c.vertex.round = satAdd r 1) :
    c ∈ b'.dag.certs ↔ c ∈ b.dag.certs := by
  have hnext : satAdd r 1 = r + 1 := satAdd_of_le hmax
  exact h.mem_certs_iff (by omega)

theorem supportingStake_eq (d : Digest) : b'.supportingStake r d = b.supportingStake r d := by
  rw [h.view.supportingStake_eq, h.full.supportingStake_eq]
  congr 1
  ext a
  rw [h.view.mem_supporters, h.full.mem_supporters]
  refine exists_congr fun c => ⟨?_, ?_⟩
  · rintro ⟨hc, hround, hrest⟩
    exact ⟨h.sub hc, hround, hrest⟩
  · rintro ⟨hc, hround, hrest⟩
    exact ⟨(h.mem_nextRound_iff hr hmax hround).2 hc, hround, hrest⟩

theorem unknownStake_eq : b'.unknownStake r = b.unknownStake r := by
  rw [h.view.unknownStake_eq, h.full.unknownStake_eq]
  congr 1
  ext a
  rw [h.view.mem_unknown, h.full.mem_unknown]
  refine and_congr_right fun _ => forall_congr' fun c => ⟨?_, ?_⟩
  · intro hall hc hround
    exact hall ((h.mem_nextRound_iff hr hmax hround).2 hc) hround
  · exact fun hall hc hround => hall (h.sub hc) hround

/-- The parents of the next round's certificates are all held. -/
theorem knownSupportIsPermanentlyZero_eq_true : b'.knownSupportIsPermanentlyZero r = true := by
  have hnext : satAdd r 1 = r + 1 := satAdd_of_le hmax
  simp only [knownSupportIsPermanentlyZero, List.all_eq_true]
  intro c hc p hp
  obtain ⟨hmem, hround⟩ := h.view.mem_nextRoundCerts.1 hc
  obtain ⟨c', hc', rfl, -⟩ := h.parent_mem (h.sub hmem) (by omega) hp
  exact (b'.dag.contains_iff).2 ⟨c', hc'⟩

theorem directStatus_eq : b'.directStatus r = b.directStatus r := by
  have hzero := h.full.cut.knownSupportIsPermanentlyZero_eq_true
    (by rw [h.full.gcFloor]; exact Nat.zero_le r) hmax
  simp only [directStatus, h.view.leaderForRound_eq, h.full.leaderForRound_eq,
    h.committee, h.full.committee, h.certificateByAuthor_eq hr, h.supportingStake_eq hr hmax,
    h.unknownStake_eq hr hmax, h.knownSupportIsPermanentlyZero_eq_true hr hmax, hzero]

end Round

/-! ### The witness -/

theorem ultimateWitnessLoop_eq {upTo : ℕ} (hup : upTo < u64Max) {r : ℕ} (hr : b'.gcFloor ≤ r)
    (fuel : ℕ) : b'.ultimateWitnessLoop upTo fuel r = b.ultimateWitnessLoop upTo fuel r := by
  induction fuel generalizing r with
  | zero => rfl
  | succ fuel ih =>
    rw [ultimateWitnessLoop, ultimateWitnessLoop]
    by_cases hle : r ≤ upTo
    · have hnext : satAdd r 1 = r + 1 := satAdd_of_le (by omega)
      rw [if_pos hle, if_pos hle, h.directStatus_eq hr (by omega), ih (by omega)]
    · rw [if_neg hle, if_neg hle]

theorem ultimateWitness_eq {upTo : ℕ} (hup : upTo < u64Max) {r : ℕ} (hr : b'.gcFloor ≤ r) :
    b'.ultimateWitness r upTo = b.ultimateWitness r upTo :=
  h.ultimateWitnessLoop_eq hup hr _

/-! ### Reachability -/

variable {c : Certificate}

/-- Above the barrier one only meets what is held, at the barrier or above it. -/
theorem exists_of_path (hc : c ∈ b'.dag.certs)
    (hround : b'.gcFloor ≤ c.vertex.round) {v : Digest} (hp : b'.Path c.digest v) :
    ∃ c' ∈ b'.dag.certs, c'.digest = v ∧ b'.gcFloor ≤ c'.vertex.round := by
  induction hp with
  | refl => exact ⟨c, hc, rfl, hround⟩
  | tail _ hstep ih =>
    obtain ⟨cx, hget, hx, hp⟩ := mem_succ hstep
    obtain ⟨c', hc', hdigest, hbelow⟩ :=
      h.parent_mem (h.sub (h.indexed.mem_certs hget)) hx hp
    exact ⟨c', hc', hdigest, by omega⟩

theorem not_meetsMissing (hc : c ∈ b'.dag.certs)
    (hround : b'.gcFloor ≤ c.vertex.round) : ¬ b'.MeetsMissing c.digest := by
  rintro ⟨v, hp, hnone⟩
  obtain ⟨c', hc', rfl, -⟩ := h.exists_of_path hc hround hp
  have hget : b'.dag.get c'.digest = some c' := hc'
  rw [hnone] at hget
  cases hget

/-- Links that end at the barrier or above it stay above it on the way. -/
theorem path_of_parentLinks {w v : Digest}
    (hp : ReflTransGen (ParentLink b.dag.certs) w v) :
    ∀ c ∈ b.dag.certs, c.digest = v → b'.gcFloor ≤ c.vertex.round → b'.Path w v := by
  induction hp with
  | refl => exact fun _ _ _ _ => Bullshark.Path.refl w
  | tail _ hlink ih =>
    rintro c hc rfl hround
    obtain ⟨cx, hcx, rfl, hpos, hmem⟩ := hlink
    obtain ⟨c', hc', hdigest, hbelow⟩ := h.full.certified.parent_mem cx hcx hpos _ hmem
    have heq := h.full.certified.eq_of_digest hc' hc hdigest
    subst heq
    have hget : b'.dag.get cx.digest = some cx := h.above cx hcx (by omega)
    refine (ih cx hcx rfl (by omega)).tail ?_
    rw [succ_of_get hget (by omega), List.mem_insertionSort]
    exact hmem

theorem path_iff {w t : Certificate} (hw : w ∈ b.dag.certs) (ht : t ∈ b.dag.certs)
    (hround : b'.gcFloor ≤ t.vertex.round) :
    b'.Path w.digest t.digest ↔ b.Path w.digest t.digest := by
  constructor
  · intro hp
    have hmissing := h.full.cut.not_meetsMissing hw (by rw [h.full.gcFloor]; exact Nat.zero_le _)
    exact h.full.path_of_parentLinks h.full.certified h.full.gcFloor hmissing
      (h.view.parentLinks_of_path hp)
  · intro hp
    exact h.path_of_parentLinks (h.full.parentLinks_of_path hp) t ht rfl hround

/-- The search is exact where nothing is missing. -/
theorem reaches_eq_decide {w : Certificate} (hw : w ∈ b'.dag.certs)
    (hround : b'.gcFloor ≤ w.vertex.round) (t : Digest) [Decidable (b'.Path w.digest t)] :
    b'.reaches w.digest t = some (decide (b'.Path w.digest t)) := by
  cases hreach : b'.reaches w.digest t with
  | none => exact absurd (meetsMissing_of_reaches hreach).2 (h.not_meetsMissing hw hround)
  | some answer =>
    cases answer with
    | true => rw [decide_eq_true (reaches_eq_some_true_iff.1 hreach)]
    | false => rw [decide_eq_false (not_path_of_reaches hreach).1]

theorem reaches_eq {w t : Certificate} (hw : w ∈ b.dag.certs) (ht : t ∈ b.dag.certs)
    (hwround : b'.gcFloor ≤ w.vertex.round) (hround : b'.gcFloor ≤ t.vertex.round) :
    b'.reaches w.digest t.digest = b.reaches w.digest t.digest := by
  classical
  have hzero : b.gcFloor ≤ w.vertex.round := by
    rw [h.full.gcFloor]
    exact Nat.zero_le _
  rw [h.reaches_eq_decide (h.above w hw hwround) hwround, h.full.cut.reaches_eq_decide hw hzero]
  simp only [h.path_iff hw ht hround]

/-! ### The fate of a round -/

/-- Rounds from the barrier on are resolved alike. -/
theorem resolve_eq {r upTo : ℕ} (hr : b'.gcFloor ≤ r) (hle : r ≤ upTo) (hup : upTo < u64Max) :
    b'.resolve r upTo = b.resolve r upTo := by
  have hnext : satAdd r 1 = r + 1 := satAdd_of_le (by omega)
  have hdirect := h.directStatus_eq hr (hle.trans_lt hup)
  have hleader := h.leaderCertificate_eq hr
  have hwitness := h.ultimateWitness_eq hup (r := satAdd r 1) (by omega)
  by_cases hskip : b.directStatus r = .skipped
  · rw [hskip] at hdirect
    cases hc : b.leaderCertificate r with
    | none =>
      rw [hc] at hleader
      rw [resolve_of_absent hdirect hleader, resolve_of_absent hskip hc]
    | some t =>
      rw [hc] at hleader
      cases hw : b.ultimateWitness (satAdd r 1) upTo with
      | none =>
        rw [hw] at hwitness
        rw [resolve_of_no_witness hdirect hleader hwitness,
          resolve_of_no_witness hskip hc hw]
      | some w =>
        rw [hw] at hwitness
        -- the leader and its witness are both at the barrier or above
        obtain ⟨htmem, htround⟩ := h.full.leaderCertificate_eq_some_iff.1 hc
        obtain ⟨k, hk, -, hcommit, -⟩ := ultimateWitness_eq_some hup.le hw
        obtain ⟨cw, hcw, rfl, hanchor⟩ := h.full.directCommit_of_committed hcommit
        have hwround : cw.vertex.round = k := hanchor.1.2.1
        have htround : t.vertex.round = r := htround.2.1
        rw [resolve_of_witness hdirect hleader hwitness,
          resolve_of_witness hskip hc hw,
          h.reaches_eq hcw htmem (by omega) (by omega)]
  · rw [resolve_of_ne_skipped hskip, resolve_of_ne_skipped (by rwa [hdirect]),
      hdirect]

/-! ### Walks -/

/-- Nothing is missing above the barrier. -/
theorem complete (hc : c ∈ b'.dag.certs) (hround : b'.gcFloor ≤ c.vertex.round)
    (seen : Finset Digest) : b'.Complete seen c.digest := by
  intro v hv
  have hp : b'.Path c.digest v := hv.lift id fun _ _ hstep => hstep.2
  obtain ⟨c', hc', rfl, -⟩ := h.exists_of_path hc hround hp
  exact Or.inr ⟨c', hc'⟩

/-- At the barrier or above it, a walk follows the edges that do not leave that part. -/
theorem succ_eq_filter {d : Digest} (hd : b.dag.holdsFrom b'.gcFloor d = true) :
    b'.succ d = (b.succ d).filter (b.dag.holdsFrom b'.gcFloor) := by
  obtain ⟨c, hc, rfl, hround⟩ := h.full.holdsFrom_iff.1 hd
  have hget : b.dag.get c.digest = some c := hc
  have hget' : b'.dag.get c.digest = some c := h.above c hc hround
  rcases Nat.eq_or_lt_of_le hround with heq | hlt
  · -- at the barrier every parent is below
    rw [succ_of_round_le hget' heq.ge]
    symm
    rw [List.filter_eq_nil_iff]
    intro p hp hfrom
    obtain ⟨c', hget₁, hpos, hmem⟩ := mem_succ hp
    obtain rfl : c = c' := Option.mem_unique hget hget₁
    obtain ⟨cp, hcp, rfl, hbelow⟩ := h.full.certified.parent_mem c hc (by omega) p hmem
    rw [DagStore.holdsFrom_digest hcp, decide_eq_true_eq] at hfrom
    omega
  · -- above it every parent is kept
    rw [succ_of_get hget' hlt,
      succ_of_get hget (by rw [h.full.gcFloor]; omega)]
    symm
    rw [List.filter_eq_self]
    intro p hp
    rw [List.mem_insertionSort] at hp
    obtain ⟨cp, hcp, rfl, hbelow⟩ := h.parent_mem hc hlt hp
    rw [DagStore.holdsFrom_digest (h.sub hcp), decide_eq_true_eq]
    omega

/-! ### One round of a pass -/

section Pass

variable {r upTo : ℕ} {cache cache' : Map ℕ Digest}

/-- With the same entry for the round in both caches its outcome is the same. -/
theorem fst_cachedOutcome_eq (hr : b'.gcFloor ≤ r) (hle : r ≤ upTo) (hup : upTo < u64Max)
    (hlook : cache'.lookup r = cache.lookup r) :
    (b'.cachedOutcome upTo r cache').1 = (b.cachedOutcome upTo r cache).1 := by
  cases hc : cache.lookup r with
  | some d => simp only [cachedOutcome, hlook, hc]
  | none =>
    rw [hc] at hlook
    rw [b.fst_cachedOutcome hc, b'.fst_cachedOutcome hlook, h.resolve_eq hr hle hup]

/-- The leader a round from the barrier on commits is held. -/
theorem exists_of_resolve (hr : b'.gcFloor ≤ r) (hle : r ≤ upTo) (hup : upTo < u64Max)
    {d : Digest} (hres : b.resolve r upTo = .committed d) :
    ∃ c ∈ b'.dag.certs, c.digest = d ∧ c.vertex.round = r := by
  obtain ⟨c, hc, hdigest, hcommits⟩ :=
    h.full.commits_of_resolve h.full.certified hup.le hle hres
  have hround : c.vertex.round = r := hcommits.leaderCert.2.1
  exact ⟨c, h.above c hc (by omega), hdigest, hround⟩

/-- A pass stops at undecided rounds only: what it commits it can walk. -/
theorem stepRound_of_held {st : Bullshark.OrderState}
    (hheld : ∀ d, (b'.cachedOutcome upTo r st.committedCache).1 = .committed d →
      ∃ c ∈ b'.dag.certs, c.digest = d ∧ b'.gcFloor ≤ c.vertex.round) :
    b'.stepRound upTo r st =
      match (b'.cachedOutcome upTo r st.committedCache).1 with
      | .committed d =>
        (⟨st.ordered ++ b'.history st.seen d, st.seen ∪ (b'.history st.seen d).toFinset,
          (b'.cachedOutcome upTo r st.committedCache).2⟩, true)
      | .skipped =>
        ({ st with committedCache := (b'.cachedOutcome upTo r st.committedCache).2 }, true)
      | .undecided =>
        ({ st with committedCache := (b'.cachedOutcome upTo r st.committedCache).2 }, false) := by
  rcases hoc : b'.cachedOutcome upTo r st.committedCache with ⟨outcome, cache⟩
  cases outcome with
  | committed d =>
    obtain ⟨c, hc, rfl, hround⟩ := hheld d (by rw [hoc])
    have hbelow := h.view.parentsBelow h.full.certified
    simp only [stepRound, hoc,
      walkCausalHistory_of_complete hbelow (h.complete hc hround st.seen), if_true]
  | skipped | undecided => simp only [stepRound, hoc]

end Pass

end Cut

/-- No edge leads from below a round back up. -/
theorem FullView.holdsFrom_of_mem_succ {V : ValidatorSet} {b : Bullshark} (h : FullView V b)
    {g : ℕ} {d p : Digest} (hp : p ∈ b.succ d) (hfrom : b.dag.holdsFrom g p = true) :
    b.dag.holdsFrom g d = true := by
  obtain ⟨c, hget, hpos, hmem⟩ := mem_succ hp
  have hc := h.indexed.mem_certs hget
  obtain ⟨cp, hcp, rfl, hbelow⟩ := h.certified.parent_mem c hc (by omega) p hmem
  rw [DagStore.holdsFrom_digest hcp, decide_eq_true_eq] at hfrom
  exact h.holdsFrom_iff.2 ⟨c, hc, h.indexed.digest_eq hget, by omega⟩

end QChain
