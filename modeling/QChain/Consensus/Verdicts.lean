import QChain.Consensus.CertifiedDag
import QChain.Consensus.Reachability

/-!
# Verdicts on a partial view

The verdicts of a replica on the certificates it holds, against the certified DAG they are part of:
a direct commit is one of the DAG, a direct skip says that no leader certificate of the round ever
commits directly, and a reachability answer is final. That an absent leader reached by the witness
stays skipped is not among these facts; where it matters, the history has to be held.
-/

namespace QChain

open Bullshark List Option PostOrder Relation

variable [Crypto]

/-- The outcome is a commit. -/
def RoundOutcome.isCommitted : RoundOutcome → Bool
  | .committed _ => true
  | _ => false

omit [Crypto] in
theorem RoundOutcome.isCommitted_iff {o : RoundOutcome} :
    o.isCommitted = true ↔ ∃ d, o = .committed d := by
  cases o with
  | committed d => exact ⟨fun _ => ⟨d, rfl⟩, fun _ => rfl⟩
  | skipped | undecided => exact ⟨fun h => (by cases h), fun ⟨d, hd⟩ => (by cases hd)⟩

namespace Bullshark

/-! ### Reading the direct verdict -/

section DirectStatus

variable {b : Bullshark} {r : ℕ}

/-- The authors whose known certificate of the next round lists the digest. -/
def supporters (b : Bullshark) (r : ℕ) (d : Digest) : Finset ValidatorId :=
  (((b.nextRoundCerts r).filter fun c => d ∈ c.vertex.parents).map (·.vertex.author)).toFinset

/-- The members whose certificate of the next round is not known. -/
def unknown (b : Bullshark) (r : ℕ) : Finset ValidatorId :=
  ((b.schedule.forRound (satAdd r 1)).idsSorted.filter fun id =>
    id ∉ (b.nextRoundCerts r).map (·.vertex.author)).toFinset

theorem directStatus_eq_committed_iff {d : Digest} :
    b.directStatus r = .committed d ↔
      ∃ c, b.leaderCertificate r = some c ∧ c.digest = d ∧
        (b.schedule.forRound r).quorumThreshold ≤ b.supportingStake r d := by
  unfold directStatus leaderCertificate
  cases b.leaderForRound r with
  | none => simp
  | some leader =>
    cases hc : b.dag.certificateByAuthor r leader with
    | none =>
      simp only [bind_some, hc]
      split_ifs <;> simp
    | some c =>
      simp only [bind_some, hc, Option.some.injEq, exists_eq_left']
      split_ifs with hq hs
      · simp only [RoundOutcome.committed.injEq]
        constructor
        · rintro rfl
          exact ⟨rfl, hq⟩
        · exact fun h => h.1
      all_goals
        constructor
        · intro h
          cases h
        · rintro ⟨rfl, hq'⟩
          exact absurd hq' hq

/-- A skip: there is no leader, or its support cannot reach the quorum any more, or it is not
held and no known certificate of the next round can list it. -/
theorem directStatus_eq_skipped_iff :
    b.directStatus r = .skipped ↔
      b.leaderForRound r = none ∨
        (∃ c, b.leaderCertificate r = some c ∧
          b.supportingStake r c.digest + b.unknownStake r <
            (b.schedule.forRound r).quorumThreshold) ∨
        (b.leaderCertificate r = none ∧
          b.unknownStake r < (b.schedule.forRound r).quorumThreshold ∧
          ∀ c ∈ b.nextRoundCerts r, ∀ p ∈ c.vertex.parents, ∃ c', b.dag.get p = some c') := by
  have hzero : b.knownSupportIsPermanentlyZero r = true ↔
      ∀ c ∈ b.nextRoundCerts r, ∀ p ∈ c.vertex.parents, ∃ c', b.dag.get p = some c' := by
    simp only [knownSupportIsPermanentlyZero, List.all_eq_true, b.dag.contains_iff]
  rw [← hzero]
  unfold directStatus leaderCertificate
  cases b.leaderForRound r with
  | none => simp
  | some leader =>
    cases hc : b.dag.certificateByAuthor r leader with
    | none =>
      simp only [bind_some, hc]
      split_ifs with hskip
      · simp [hskip]
      · simp [hskip]
    | some c =>
      have hle := (b.schedule.forRound r).quorumThreshold_le
      simp only [bind_some, hc, Option.some.injEq, exists_eq_left', reduceCtorEq, false_and,
        or_false, false_or]
      unfold satAdd
      split_ifs
      · simp only [false_iff]
        omega
      · simp only [true_iff]
        omega
      · simp only [false_iff]
        omega

end DirectStatus

/-! ### The witness search -/

section Witness

variable {b : Bullshark} {r upTo : ℕ}

theorem ultimateWitness_of_lt (h : upTo < r) : b.ultimateWitness r upTo = none := by
  have hzero : upTo + 1 - r = 0 := by omega
  rw [ultimateWitness, hzero]
  rfl

theorem ultimateWitness_of_committed {d : Digest} (hr : r ≤ upTo)
    (h : b.directStatus r = .committed d) : b.ultimateWitness r upTo = some d := by
  obtain ⟨fuel, hfuel⟩ : ∃ fuel, upTo + 1 - r = fuel + 1 := ⟨upTo - r, by omega⟩
  rw [ultimateWitness, hfuel, ultimateWitnessLoop, if_pos hr]
  simp only [h]

/-- The search passes over a skipped round. -/
theorem ultimateWitness_succ_of_skipped (hlt : r < u64Max) (h : b.directStatus r = .skipped) :
    b.ultimateWitness r upTo = b.ultimateWitness (r + 1) upTo := by
  rcases Nat.lt_or_ge upTo r with hr | hr
  · rw [ultimateWitness_of_lt hr, ultimateWitness_of_lt (by omega)]
  · obtain ⟨fuel, hfuel⟩ : ∃ fuel, upTo + 1 - r = fuel + 1 := ⟨upTo - r, by omega⟩
    have hfuel' : upTo + 1 - (r + 1) = fuel := by omega
    have hnext : satAdd r 1 = r + 1 := satAdd_of_le hlt
    rw [ultimateWitness, ultimateWitness, hfuel, hfuel', ultimateWitnessLoop, if_pos hr]
    simp only [h, hnext]

/-- At the last `u64` the next round is the same one, and so is the search. -/
theorem ultimateWitness_of_skipped (hup : upTo ≤ u64Max) (hr : r ≤ upTo)
    (h : b.directStatus r = .skipped) :
    b.ultimateWitness r upTo = b.ultimateWitness (satAdd r 1) upTo := by
  rcases Nat.lt_or_ge r u64Max with hlt | hge
  · have hnext : satAdd r 1 = r + 1 := satAdd_of_le hlt
    rw [hnext, ultimateWitness_succ_of_skipped hlt h]
  · have hnext : satAdd r 1 = r := by
      unfold satAdd
      omega
    rw [hnext]

/-- The first committed round after skipped ones is what the search finds. -/
theorem ultimateWitness_of_first {w : ℕ} {d : Digest} (hw : w ≤ upTo) (hwmax : w ≤ u64Max)
    (hr : r ≤ w) (hd : b.directStatus w = .committed d)
    (hskip : ∀ k, r ≤ k → k < w → b.directStatus k = .skipped) :
    b.ultimateWitness r upTo = some d := by
  -- downwards from `w`
  induction hr using Nat.decreasingInduction with
  | self => exact ultimateWitness_of_committed hw hd
  | of_succ k hk ih =>
    rw [ultimateWitness_succ_of_skipped (by omega) (hskip k le_rfl hk)]
    exact ih fun j hj hjw => hskip j (by omega) hjw

theorem ultimateWitnessLoop_eq_some (hup : upTo ≤ u64Max) {fuel : ℕ} {w : Digest}
    (h : b.ultimateWitnessLoop upTo fuel r = some w) :
    ∃ k, r ≤ k ∧ k ≤ upTo ∧ b.directStatus k = .committed w ∧
      ∀ j, r ≤ j → j < k → b.directStatus j = .skipped := by
  induction fuel generalizing r with
  | zero => cases h
  | succ fuel ih =>
    rw [ultimateWitnessLoop] at h
    split_ifs at h with hr
    cases hd : b.directStatus r with
    | committed d =>
      simp only [hd] at h
      cases h
      exact ⟨r, le_rfl, hr, hd, fun j hj hjk => by omega⟩
    | undecided => simp [hd] at h
    | skipped =>
      simp only [hd] at h
      obtain ⟨k, hk, hku, hcommit, hskip⟩ := ih h
      have hnext : satAdd r 1 = r + 1 ∨ satAdd r 1 = r := by
        unfold satAdd
        omega
      refine ⟨k, by omega, hku, hcommit, fun j hj hjk => ?_⟩
      by_cases hjr : j = r
      · rw [hjr, hd]
      · exact hskip j (by omega) hjk

/-- The witness is the leader of the first directly committed round, all rounds before it
being skipped. -/
theorem ultimateWitness_eq_some (hup : upTo ≤ u64Max) {w : Digest}
    (h : b.ultimateWitness r upTo = some w) :
    ∃ k, r ≤ k ∧ k ≤ upTo ∧ b.directStatus k = .committed w ∧
      ∀ j, r ≤ j → j < k → b.directStatus j = .skipped :=
  ultimateWitnessLoop_eq_some hup h

/-- With all rounds up to a directly committed one decided, a witness is found under every
bound from there on. -/
theorem exists_ultimateWitness_eq {r w : ℕ} (hw : w ≤ u64Max) (hrw : r < w)
    (hdecided : ∀ k ≤ w, b.directStatus k ≠ .undecided)
    (hcommit : (b.directStatus w).isCommitted) :
    ∃ d, ∀ upTo, w ≤ upTo → b.ultimateWitness (r + 1) upTo = some d := by
  -- the first committed round after `r`
  have hex : ∃ k, r < k ∧ (b.directStatus k).isCommitted := ⟨w, hrw, hcommit⟩
  have hfirst := Nat.find_spec hex
  have hle : Nat.find hex ≤ w := Nat.find_min' hex ⟨hrw, hcommit⟩
  obtain ⟨d, hd⟩ := RoundOutcome.isCommitted_iff.1 hfirst.2
  refine ⟨d, fun upTo hup => ultimateWitness_of_first (hle.trans hup) (hle.trans hw)
    hfirst.1 hd fun k hrk hk => ?_⟩
  have hnot := Nat.find_min hex hk
  have hundecided := hdecided k (by omega)
  cases hstatus : b.directStatus k with
  | committed d' =>
    refine absurd ⟨hrk, ?_⟩ hnot
    rw [hstatus]
    rfl
  | skipped => rfl
  | undecided => exact absurd hstatus hundecided

end Witness

/-! ### Resolving a round -/

section Resolve

variable {b : Bullshark} {r upTo : ℕ}

theorem resolve_of_ne_skipped (h : b.directStatus r ≠ .skipped) :
    b.resolve r upTo = b.directStatus r := by
  unfold resolve
  cases hd : b.directStatus r with
  | committed d | undecided => rfl
  | skipped => exact absurd hd h

/-- Without the leader's certificate a skip is not looked at any further. -/
theorem resolve_of_absent (h : b.directStatus r = .skipped)
    (habsent : b.leaderCertificate r = none) : b.resolve r upTo = .skipped := by
  simp [resolve, h, habsent]

theorem resolve_of_no_witness {c : Certificate} (h : b.directStatus r = .skipped)
    (hc : b.leaderCertificate r = some c)
    (hw : b.ultimateWitness (satAdd r 1) upTo = none) : b.resolve r upTo = .undecided := by
  simp [resolve, h, hc, hw]

theorem resolve_of_witness {c : Certificate} {w : Digest} (h : b.directStatus r = .skipped)
    (hc : b.leaderCertificate r = some c)
    (hw : b.ultimateWitness (satAdd r 1) upTo = some w) :
    b.resolve r upTo =
      match b.reaches w c.digest with
      | some true => .committed c.digest
      | some false => .skipped
      | none => .undecided := by
  simp only [resolve, h, hc, hw]
  rfl

/-- A resolved commit is direct, or a leader that the witness reaches. -/
theorem resolve_eq_committed {d : Digest} (h : b.resolve r upTo = .committed d) :
    b.directStatus r = .committed d ∨
      (b.directStatus r = .skipped ∧ ∃ c w, b.leaderCertificate r = some c ∧ c.digest = d ∧
        b.ultimateWitness (satAdd r 1) upTo = some w ∧ b.Path w d) := by
  by_cases hd : b.directStatus r = .skipped
  · right
    cases hc : b.leaderCertificate r with
    | none =>
      rw [resolve_of_absent hd hc] at h
      cases h
    | some c =>
      cases hw : b.ultimateWitness (satAdd r 1) upTo with
      | none =>
        rw [resolve_of_no_witness hd hc hw] at h
        cases h
      | some w =>
        rw [resolve_of_witness hd hc hw] at h
        split at h
        · next hreach =>
          cases h
          exact ⟨hd, c, w, rfl, rfl, rfl, reaches_eq_some_true_iff.1 hreach⟩
        · cases h
        · cases h
  · left
    rwa [resolve_of_ne_skipped hd] at h

/-- A resolved skip is a direct skip without leader certificate, or one whose leader the
witness does not reach, its history being held. -/
theorem resolve_eq_skipped (h : b.resolve r upTo = .skipped) :
    b.directStatus r = .skipped ∧
      (b.leaderCertificate r = none ∨
        ∃ c w, b.leaderCertificate r = some c ∧
          b.ultimateWitness (satAdd r 1) upTo = some w ∧
          ¬ b.Path w c.digest ∧ ¬ b.MeetsMissing w) := by
  by_cases hd : b.directStatus r = .skipped
  · refine ⟨hd, ?_⟩
    cases hc : b.leaderCertificate r with
    | none => exact Or.inl rfl
    | some c =>
      right
      cases hw : b.ultimateWitness (satAdd r 1) upTo with
      | none =>
        rw [resolve_of_no_witness hd hc hw] at h
        cases h
      | some w =>
        rw [resolve_of_witness hd hc hw] at h
        split at h
        · cases h
        · next hreach =>
          obtain ⟨hpath, hmiss⟩ := not_path_of_reaches hreach
          exact ⟨c, w, rfl, rfl, hpath, hmiss⟩
        · cases h
  · rw [resolve_of_ne_skipped hd] at h
    exact absurd h hd

/-- The history of `w` is held as far down as round `r`: every digest reached through held
certificates above that round. -/
def HistoryHeld (b : Bullshark) (r : ℕ) (w : Digest) : Prop :=
  ∀ d, ReflTransGen (fun x y => ∃ c, b.dag.get x = some c ∧ r < c.vertex.round ∧
    y ∈ c.vertex.parents) w d → ∃ c, b.dag.get d = some c

/-- Wherever a round up to `upTo` is skipped for want of its leader's certificate and its
witness is known, the history of the witness is held down to that round. -/
def SkipsJustified (b : Bullshark) (upTo : ℕ) : Prop :=
  ∀ r ≤ upTo, b.directStatus r = .skipped → b.leaderCertificate r = none →
    ∀ w, b.ultimateWitness (satAdd r 1) upTo = some w → b.HistoryHeld r w

end Resolve

end Bullshark

/-! ### Views -/

/-- The rule is evaluated on part of a certified DAG, under its committee. -/
structure View (V : ValidatorSet) (G : Set Certificate) (b : Bullshark) : Prop where
  indexed : b.dag.Indexed
  sub : b.dag.certs ⊆ G
  committee : ∀ r, b.schedule.forRound r = V

namespace View

variable {V : ValidatorSet} {G : Set Certificate} {b : Bullshark} (h : View V G b)

include h

theorem leaderForRound_eq (r : ℕ) : b.leaderForRound r = leaderOf V r := by
  simp only [leaderForRound, leaderOf, h.committee]

variable {c : Certificate} {r : ℕ} {d : Digest}

theorem leaderCertificate_eq_some_iff :
    b.leaderCertificate r = some c ↔ c ∈ b.dag.certs ∧ LeaderCert V G r c := by
  unfold Bullshark.leaderCertificate LeaderCert
  rw [h.leaderForRound_eq]
  cases leaderOf V r with
  | none => simp
  | some leader =>
    simp only [bind_some, h.indexed.certificateByAuthor_eq_some_iff, Option.some.injEq]
    constructor
    · rintro ⟨hc, hr, rfl⟩
      exact ⟨hc, h.sub hc, hr, rfl⟩
    · rintro ⟨hc, -, hr, ha⟩
      exact ⟨hc, hr, ha.symm⟩

theorem mem_nextRoundCerts :
    c ∈ b.nextRoundCerts r ↔ c ∈ b.dag.certs ∧ c.vertex.round = satAdd r 1 :=
  h.indexed.mem_certificatesInRound_iff

theorem supportingStake_eq (r : ℕ) (d : Digest) :
    b.supportingStake r d = V.stake (b.supporters r d) := by
  have hnodup : (((b.nextRoundCerts r).filter fun c => d ∈ c.vertex.parents).map
      (·.vertex.author)).Nodup :=
    (h.indexed.nodup_authors _).sublist (filter_sublist.map _)
  rw [supportingStake, Bullshark.supporters, ValidatorSet.stake,
    sum_toFinset _ hnodup, List.map_map, h.committee]
  rfl

theorem unknownStake_eq (r : ℕ) : b.unknownStake r = V.stake (b.unknown r) := by
  rw [unknownStake, Bullshark.unknown, ValidatorSet.stake,
    sum_toFinset _ ((ValidatorSet.idsSorted_nodup _).filter _), h.committee r]

theorem mem_supporters {a : ValidatorId} :
    a ∈ b.supporters r d ↔ ∃ c ∈ b.dag.certs, c.vertex.round = satAdd r 1 ∧
      c.vertex.author = a ∧ d ∈ c.vertex.parents := by
  simp only [Bullshark.supporters, List.mem_toFinset, List.mem_map, mem_filter,
    h.mem_nextRoundCerts, decide_eq_true_eq]
  constructor
  · rintro ⟨c, ⟨⟨hc, hr⟩, hd⟩, ha⟩
    exact ⟨c, hc, hr, ha, hd⟩
  · rintro ⟨c, hc, hr, ha, hd⟩
    exact ⟨c, ⟨⟨hc, hr⟩, hd⟩, ha⟩

theorem mem_unknown {a : ValidatorId} : a ∈ b.unknown r ↔ a ∈ V.members ∧
      ∀ c ∈ b.dag.certs, c.vertex.round = satAdd r 1 → c.vertex.author ≠ a := by
  simp only [Bullshark.unknown, List.mem_toFinset, mem_filter, decide_eq_true_eq,
    ValidatorSet.mem_idsSorted, h.committee, List.mem_map, h.mem_nextRoundCerts, not_exists,
    not_and, and_imp]

/-! ### The direct rule -/

theorem directCommit_of_committed (hd : b.directStatus r = .committed d) :
    ∃ c ∈ b.dag.certs, c.digest = d ∧ DirectCommit V G r c := by
  obtain ⟨c, hc, rfl, hq⟩ := Bullshark.directStatus_eq_committed_iff.1 hd
  obtain ⟨hheld, hleader⟩ := h.leaderCertificate_eq_some_iff.1 hc
  refine ⟨c, hheld, rfl, hleader, b.supporters r c.digest, ?_, fun a ha => ?_⟩
  · rwa [← h.supportingStake_eq, ← h.committee r]
  · obtain ⟨c', hc', hr, ha, hp⟩ := h.mem_supporters.1 ha
    exact ⟨c', h.sub hc', hr, ha, hp⟩

/-- A supporter in the DAG is a known supporter, or its certificate is not known yet. -/
theorem mem_supporters_or_unknown (hG : DagStore.Unequivocal G)
    (hauthor : ∀ c ∈ G, c.vertex.author ∈ V.members) (hc : c ∈ G) (hr : c.vertex.round = satAdd r 1)
    (hd : d ∈ c.vertex.parents) :
    c.vertex.author ∈ b.supporters r d ∨ c.vertex.author ∈ b.unknown r := by
  by_cases hknown : ∃ c' ∈ b.dag.certs, c'.vertex.round = satAdd r 1 ∧
      c'.vertex.author = c.vertex.author
  · obtain ⟨c', hc', hr', ha⟩ := hknown
    have heq : c' = c := hG.slot_unique (h.sub hc') hc (hr'.trans hr.symm) ha
    subst heq
    exact Or.inl (h.mem_supporters.2 ⟨c', hc', hr', rfl, hd⟩)
  · refine Or.inr (h.mem_unknown.2 ⟨hauthor c hc, fun c' hc' hr' ha => ?_⟩)
    exact hknown ⟨c', hc', hr', ha⟩

/-- A skipped round never commits directly, whatever else the DAG holds. -/
theorem not_directCommit_of_skipped (hG : DagStore.Unequivocal G)
    (hauthor : ∀ c ∈ G, c.vertex.author ∈ V.members) (hs : b.directStatus r = .skipped)
    (c : Certificate) :
    ¬ DirectCommit V G r c := by
  rintro ⟨hleader, S, hq, hS⟩
  rcases Bullshark.directStatus_eq_skipped_iff.1 hs with
    hnone | ⟨c₀, hc₀, hlt⟩ | ⟨habsent, hlt, hheld⟩
  · rw [h.leaderForRound_eq, hleader.2.2] at hnone
    cases hnone
  · -- the leader is known, and known and possible support together stay below the quorum
    obtain ⟨-, hleader₀⟩ := h.leaderCertificate_eq_some_iff.1 hc₀
    have heq := hleader₀.unique hG hleader
    subst heq
    have hsub : S ⊆ b.supporters r c₀.digest ∪ b.unknown r := by
      intro a ha
      obtain ⟨c', hc', hr, rfl, hp⟩ := hS a ha
      exact Finset.mem_union.2 (h.mem_supporters_or_unknown hG hauthor hc' hr hp)
    have hle := (V.stake_mono hsub).trans (V.stake_union_le _ _)
    rw [h.supportingStake_eq, h.unknownStake_eq, h.committee] at hlt
    omega
  · -- the leader is not held, so no known certificate of the next round lists it
    have hsub : S ⊆ b.unknown r := by
      intro a ha
      obtain ⟨c', hc', hr, rfl, hp⟩ := hS a ha
      rcases h.mem_supporters_or_unknown hG hauthor hc' hr hp with hsupp | hunk
      · obtain ⟨c'', hc'', hr'', ha'', hp''⟩ := h.mem_supporters.1 hsupp
        obtain ⟨l, hl⟩ := hheld c'' (h.mem_nextRoundCerts.2 ⟨hc'', hr''⟩) _ hp''
        have hlc := h.indexed.mem_certs hl
        have heq := hG.eq_of_digest (h.sub hlc) hleader.1 (h.indexed.digest_eq hl)
        rw [heq] at hlc
        rw [h.leaderCertificate_eq_some_iff.2 ⟨hlc, hleader⟩] at habsent
        cases habsent
      · exact hunk
    have hle := V.stake_mono hsub
    rw [h.unknownStake_eq, h.committee] at hlt
    omega

/-- The witness of a skipped round is the first anchor after it. -/
theorem firstAnchor_of_ultimateWitness (hG : CertifiedDag V G) {upTo : ℕ} {w : Digest}
    (hup : upTo ≤ u64Max) (hr : r ≤ upTo) (hs : b.directStatus r = .skipped)
    (hw : b.ultimateWitness (satAdd r 1) upTo = some w) :
    ∃ c ∈ b.dag.certs, c.digest = w ∧ FirstAnchor V G r c := by
  rw [← Bullshark.ultimateWitness_of_skipped hup hr hs] at hw
  obtain ⟨k, hk, -, hcommit, hskip⟩ := Bullshark.ultimateWitness_eq_some hup hw
  obtain ⟨c, hc, hdigest, hdirect⟩ := h.directCommit_of_committed hcommit
  have hlt : r < k := by
    rcases Nat.eq_or_lt_of_le hk with rfl | hlt
    · rw [hs] at hcommit
      cases hcommit
    · exact hlt
  refine ⟨c, hc, hdigest, k, hlt, hdirect, fun j hj hjk => ?_⟩
  exact h.not_directCommit_of_skipped hG.toUnequivocal hG.author_mem (hskip j hj.le hjk)

/-! ### Reachability -/

theorem parentsBelow (hG : CertifiedDag V G) : b.ParentsBelow := by
  intro d c hget hround p hp c' hget'
  have hc := h.sub (h.indexed.mem_certs hget)
  have hc' := h.sub (h.indexed.mem_certs hget')
  obtain ⟨c'', hc'', hdigest, hr⟩ := hG.parent_mem c hc (by omega) p hp
  rw [hG.eq_of_digest hc' hc'' ((h.indexed.digest_eq hget').trans hdigest.symm)]
  omega

theorem parentLinks_of_path {x y : Digest} (hp : b.Path x y) :
    ReflTransGen (ParentLink G) x y := by
  induction hp with
  | refl => exact ReflTransGen.refl
  | tail _ hstep ih =>
    obtain ⟨c, hget, hround, hmem⟩ := mem_succ hstep
    have hc := h.indexed.mem_certs hget
    exact ih.tail ⟨c, h.sub hc, h.indexed.digest_eq hget, by omega, hmem⟩

/-- With nothing missing and the barrier at round 0, links of the DAG are paths of the view. -/
theorem path_of_parentLinks (hG : CertifiedDag V G) (hfloor : b.gcFloor = 0) {x y : Digest}
    (hheld : ¬ b.MeetsMissing x) (hp : ReflTransGen (ParentLink G) x y) : b.Path x y := by
  induction hp with
  | refl => exact Bullshark.Path.refl x
  | tail _ hlink ih =>
    obtain ⟨c, hc, rfl, hround, hmem⟩ := hlink
    refine ih.tail ?_
    cases hget : b.dag.get c.digest with
    | none => exact absurd ⟨_, ih, hget⟩ hheld
    | some c' =>
      have heq := hG.eq_of_digest (h.sub (h.indexed.mem_certs hget)) hc (h.indexed.digest_eq hget)
      subst heq
      rw [succ_of_get hget (by omega), mem_insertionSort]
      exact hmem

/-- Down to round `r`, links of the DAG stay within a held history. -/
theorem get_of_parentLinks (hG : CertifiedDag V G) {w : Digest} (hheld : b.HistoryHeld r w)
    (hc : c ∈ G) (hr : r ≤ c.vertex.round) (hp : ReflTransGen (ParentLink G) w c.digest) :
    b.dag.get c.digest = some c := by
  -- along the path rounds fall by one, so every step above `c` starts above round `r`
  have hreach : ∀ y, ReflTransGen (ParentLink G) w y → ∀ c ∈ G, c.digest = y →
      r ≤ c.vertex.round →
      ReflTransGen (fun x y => ∃ c, b.dag.get x = some c ∧ r < c.vertex.round ∧
        y ∈ c.vertex.parents) w y := by
    intro y hy
    induction hy with
    | refl => exact fun _ _ _ _ => ReflTransGen.refl
    | tail _ hlink ih =>
      rintro c hc rfl hr
      obtain ⟨c', hc', rfl, hround, hmem⟩ := hlink
      obtain ⟨c'', hc'', hdigest, hround'⟩ := hG.parent_mem c' hc' hround _ hmem
      have heq := hG.eq_of_digest hc'' hc hdigest
      subst heq
      have hpath := ih c' hc' rfl (by omega)
      obtain ⟨held, hget⟩ := hheld _ hpath
      have heq := hG.eq_of_digest (h.sub (h.indexed.mem_certs hget)) hc' (h.indexed.digest_eq hget)
      subst heq
      exact hpath.tail ⟨held, hget, by omega, hmem⟩
  obtain ⟨held, hget⟩ := hheld _ (hreach _ hp c hc rfl hr)
  have heq := hG.eq_of_digest (h.sub (h.indexed.mem_certs hget)) hc (h.indexed.digest_eq hget)
  rwa [heq] at hget

/-! ### The fate of a round -/

/-- A commit the view resolves is a commit of the DAG. -/
theorem commits_of_resolve (hG : CertifiedDag V G) {upTo : ℕ} (hup : upTo ≤ u64Max) (hr : r ≤ upTo)
    (hres : b.resolve r upTo = .committed d) :
    ∃ c ∈ b.dag.certs, c.digest = d ∧ Commits V G r c := by
  rcases Bullshark.resolve_eq_committed hres with hd | ⟨hs, c, w, hc, rfl, hw, hpath⟩
  · obtain ⟨c, hc, hdigest, hdirect⟩ := h.directCommit_of_committed hd
    exact ⟨c, hc, hdigest, Or.inl hdirect⟩
  · obtain ⟨hheld, hleader⟩ := h.leaderCertificate_eq_some_iff.1 hc
    obtain ⟨a, -, rfl, hanchor⟩ := h.firstAnchor_of_ultimateWitness hG hup hr hs hw
    exact ⟨c, hheld, rfl, Or.inr ⟨hleader, a, hanchor, h.parentLinks_of_path hpath⟩⟩

/-- A justified skip with a known witness is final. -/
theorem not_commits_of_resolve (hG : CertifiedDag V G) (hfloor : b.gcFloor = 0) {upTo : ℕ}
    (hup : upTo ≤ u64Max) (hr : r ≤ upTo) (hjust : b.SkipsJustified upTo)
    (hres : b.resolve r upTo = .skipped) :
    (∀ c, ¬ Commits V G r c) ∨
      (b.directStatus r = .skipped ∧ b.ultimateWitness (satAdd r 1) upTo = none) := by
  obtain ⟨hs, hcases⟩ := Bullshark.resolve_eq_skipped hres
  cases hw : b.ultimateWitness (satAdd r 1) upTo with
  | none => exact Or.inr ⟨hs, rfl⟩
  | some w =>
    left
    obtain ⟨a, ha, rfl, hanchor⟩ := h.firstAnchor_of_ultimateWitness hG hup hr hs hw
    rintro c (hdirect | ⟨hleader, a', hanchor', hlinks⟩)
    · exact h.not_directCommit_of_skipped hG.toUnequivocal hG.author_mem hs c hdirect
    · have heq := hanchor'.unique hG.toUnequivocal hanchor
      subst heq
      rcases hcases with habsent | ⟨c', w', hc', hw', hpath, hmiss⟩
      · -- the held history would contain the leader
        have hget := h.get_of_parentLinks hG (hjust r hr hs habsent _ hw) hleader.1
          hleader.2.1.ge hlinks
        rw [h.leaderCertificate_eq_some_iff.2 ⟨hget, hleader⟩] at habsent
        cases habsent
      · rw [hw] at hw'
        cases hw'
        obtain ⟨-, hleader'⟩ := h.leaderCertificate_eq_some_iff.1 hc'
        have heq := hleader'.unique hG.toUnequivocal hleader
        subst heq
        exact hpath (h.path_of_parentLinks hG hfloor hmiss hlinks)

end View

end QChain
