import QChain.Consensus.Bullshark
import QChain.Graph.PostOrder

/-!
# The order of a certified DAG

What the ordering rule is for, stated without stores and verdicts. A certified DAG is a set of
certificates, one per round and author, whose parents are quorums of the round before. A leader
certificate commits if a quorum of the next round lists it, or if the next leader to do so reaches
it. The order walks the committed leaders by round, each with the post-order of its history.
-/

namespace QChain

open List PostOrder Relation

variable [Crypto]

/-- The leader of a round under a fixed committee. -/
def leaderOf (V : ValidatorSet) (round : ℕ) : Option ValidatorId :=
  if V.idsSorted.isEmpty then none
  else V.idsSorted[(Crypto.sha3 (toLeBytes 8 round)).firstU64Le % V.idsSorted.length]?

/-- The certificates of a fixed committee: one per round and author, told apart by their
digests, and above round 0 listing certificates of the round before, by authors with quorum
stake. -/
structure CertifiedDag (V : ValidatorSet) (G : Set Certificate) : Prop
    extends DagStore.Unequivocal G where
  author_mem : ∀ c ∈ G, c.vertex.author ∈ V.members
  parent_mem : ∀ c ∈ G, 0 < c.vertex.round → ∀ p ∈ c.vertex.parents,
    ∃ c' ∈ G, c'.digest = p ∧ c'.vertex.round + 1 = c.vertex.round
  parent_quorum : ∀ c ∈ G, 0 < c.vertex.round → ∃ S : Finset ValidatorId,
    V.quorumThreshold ≤ V.stake S ∧
      ∀ a ∈ S, ∃ c' ∈ G, c'.digest ∈ c.vertex.parents ∧ c'.vertex.author = a

/-- A finite DAG is checked certificate by certificate. -/
theorem certifiedDag_of_list {V : ValidatorSet} {l : List Certificate}
    (hslot : ∀ c ∈ l, ∀ c' ∈ l, c.vertex.round = c'.vertex.round →
      c.vertex.author = c'.vertex.author → c = c')
    (hdigest : ∀ c ∈ l, ∀ c' ∈ l, c.digest = c'.digest → c.vertex = c'.vertex)
    (hauthor : ∀ c ∈ l, c.vertex.author ∈ V.members)
    (hparent : ∀ c ∈ l, 0 < c.vertex.round → ∀ p ∈ c.vertex.parents,
      ∃ c' ∈ l, c'.digest = p ∧ c'.vertex.round + 1 = c.vertex.round)
    (hquorum : ∀ c ∈ l, 0 < c.vertex.round → V.quorumThreshold ≤ V.stake
      ((l.filter fun c' => c'.digest ∈ c.vertex.parents).map fun c' => c'.vertex.author).toFinset) :
    CertifiedDag V {c | c ∈ l} := by
  refine ⟨⟨fun c hc c' hc' => hslot c hc c' hc', fun c hc c' hc' => hdigest c hc c' hc'⟩,
    hauthor, hparent, fun c hc hround => ⟨_, hquorum c hc hround, fun a ha => ?_⟩⟩
  rw [mem_toFinset, mem_map] at ha
  obtain ⟨c', hc', rfl⟩ := ha
  rw [mem_filter, decide_eq_true_eq] at hc'
  exact ⟨c', hc'.1, hc'.2, rfl⟩

/-- A parent-closed part of a certified DAG is one. -/
theorem CertifiedDag.of_closed {V : ValidatorSet} {G H : Set Certificate} (hG : CertifiedDag V G)
    (hsub : H ⊆ G) (hclosed : ∀ c ∈ H, 0 < c.vertex.round → ∀ p ∈ c.vertex.parents,
      ∃ c' ∈ H, c'.digest = p) : CertifiedDag V H where
  toUnequivocal := hG.toUnequivocal.mono hsub
  author_mem c hc := hG.author_mem c (hsub hc)
  parent_mem c hc hround p hp := by
    obtain ⟨c', hc', rfl⟩ := hclosed c hc hround p hp
    obtain ⟨c'', hc'', hdigest, hbelow⟩ := hG.parent_mem c (hsub hc) hround _ hp
    exact ⟨c', hc', rfl, hG.eq_of_digest hc'' (hsub hc') hdigest ▸ hbelow⟩
  parent_quorum c hc hround := by
    obtain ⟨S, hquorum, hS⟩ := hG.parent_quorum c (hsub hc) hround
    refine ⟨S, hquorum, fun a ha => ?_⟩
    obtain ⟨c', hc', hmem, hauthor⟩ := hS a ha
    obtain ⟨c'', hc'', hdigest⟩ := hclosed c hc hround _ hmem
    have heq := hG.eq_of_digest (hsub hc'') hc' hdigest
    exact ⟨c', heq ▸ hc'', hmem, hauthor⟩

section Rules

variable (V : ValidatorSet) (G : Set Certificate) (round : ℕ) (c : Certificate)

/-- The certificate of a round's leader. -/
def LeaderCert : Prop :=
  c ∈ G ∧ c.vertex.round = round ∧ leaderOf V round = some c.vertex.author

/-- A leader certificate listed by a quorum of the next round. -/
def DirectCommit : Prop :=
  LeaderCert V G round c ∧ ∃ S : Finset ValidatorId, V.quorumThreshold ≤ V.stake S ∧
    ∀ a ∈ S, ∃ c' ∈ G, c'.vertex.round = satAdd round 1 ∧ c'.vertex.author = a ∧
      c.digest ∈ c'.vertex.parents

/-- The first directly committed leader after a round. -/
def FirstAnchor : Prop :=
  ∃ w, round < w ∧ DirectCommit V G w c ∧
    ∀ k, round < k → k < w → ∀ c', ¬ DirectCommit V G k c'

/-- A parent link from a certificate above round 0. -/
def ParentLink (x y : Digest) : Prop :=
  ∃ c ∈ G, c.digest = x ∧ 0 < c.vertex.round ∧ y ∈ c.vertex.parents

/-- The round's leader certificate commits: directly, or reached from the next anchor. -/
def Commits : Prop :=
  DirectCommit V G round c ∨
    (LeaderCert V G round c ∧
      ∃ w, FirstAnchor V G round w ∧ ReflTransGen (ParentLink G) w.digest c.digest)

end Rules

section Order

variable {V : ValidatorSet} {G : Set Certificate} {c : Certificate} {round : ℕ}

theorem Commits.leaderCert (h : Commits V G round c) : LeaderCert V G round c := by
  rcases h with h | h
  · exact h.1
  · exact h.1

theorem LeaderCert.unique (hG : DagStore.Unequivocal G) {c' : Certificate}
    (h : LeaderCert V G round c) (h' : LeaderCert V G round c') :
    c = c' := by
  refine hG.slot_unique h.1 h'.1 (h.2.1.trans h'.2.1.symm) ?_
  exact Option.mem_unique h.2.2 h'.2.2

theorem FirstAnchor.unique (hG : DagStore.Unequivocal G) {c' : Certificate}
    (h : FirstAnchor V G round c) (h' : FirstAnchor V G round c') :
    c = c' := by
  obtain ⟨w, hw, hc, hfirst⟩ := h
  obtain ⟨w', hw', hc', hfirst'⟩ := h'
  have heq : w = w' := by
    rcases Nat.lt_trichotomy w w' with hlt | heq | hgt
    · exact absurd hc (hfirst' w hw hlt c)
    · exact heq
    · exact absurd hc' (hfirst w' hw' hgt c')
  subst heq
  exact hc.1.unique hG hc'.1

open Classical in
/-- The certificate of the DAG with a given digest. -/
noncomputable def certOf (G : Set Certificate) (d : Digest) : Option Certificate :=
  if h : ∃ c ∈ G, c.digest = d then some h.choose else none

theorem certOf_digest (hG : DagStore.Unequivocal G) (hc : c ∈ G) : certOf G c.digest = some c := by
  have hex : ∃ c' ∈ G, c'.digest = c.digest := ⟨c, hc, rfl⟩
  have hspec := hex.choose_spec
  rw [certOf, dif_pos hex]
  exact congrArg some (hG.eq_of_digest hspec.1 hc hspec.2)

/-- The parents the order visits from a digest, in digest order. -/
noncomputable def parentsOf (G : Set Certificate) (d : Digest) : List Digest :=
  match certOf G d with
  | none => []
  | some c => if c.vertex.round = 0 then [] else c.vertex.parents.insertionSort (· ≤ ·)

open Classical in
/-- One round of the order: the history of its leader, if it commits. -/
noncomputable def orderRound (V : ValidatorSet) (G : Set Certificate) (round : ℕ)
    (out : List Digest) : List Digest :=
  if h : ∃ c, Commits V G round c then
    visit (parentsOf G) ∅ (round + 1) h.choose.digest out
  else out

/-- The total order of the leaders below a round. -/
noncomputable def order (V : ValidatorSet) (G : Set Certificate) : ℕ → List Digest
  | 0 => []
  | k + 1 => orderRound V G k (order V G k)

theorem order_succ_of_commits (hG : DagStore.Unequivocal G) {k : ℕ} (h : Commits V G k c) :
    order V G (k + 1) = visit (parentsOf G) ∅ (k + 1) c.digest (order V G k) := by
  have hex : ∃ c, Commits V G k c := ⟨c, h⟩
  have heq : hex.choose = c := hex.choose_spec.leaderCert.unique hG h.leaderCert
  rw [order, orderRound, dif_pos hex, heq]

theorem order_succ_of_not_commits {k : ℕ} (h : ∀ c, ¬ Commits V G k c) :
    order V G (k + 1) = order V G k := by
  have hno : ¬ ∃ c, Commits V G k c := fun ⟨c, hc⟩ => h c hc
  rw [order, orderRound, dif_neg hno]

theorem order_mono_succ (k : ℕ) : order V G k <+: order V G (k + 1) := by
  rw [order, orderRound]
  split
  · exact prefix_visit _ _ _
  · exact prefix_refl _

/-- The order only grows. -/
theorem order_mono {k m : ℕ} (h : k ≤ m) : order V G k <+: order V G m := by
  induction m with
  | zero =>
    obtain rfl : k = 0 := by omega
    exact prefix_refl _
  | succ m ih =>
    rcases Nat.lt_or_ge m k with hlt | hge
    · obtain rfl : k = m + 1 := by omega
      exact prefix_refl _
    · exact (ih hge).trans (order_mono_succ m)

/-- A committed leader is in the order from its round on. -/
theorem mem_order_of_commits (hG : DagStore.Unequivocal G) {k m : ℕ} (h : Commits V G k c)
    (hkm : k < m) :
    c.digest ∈ order V G m := by
  refine (order_mono (Nat.succ_le_of_lt hkm)).subset ?_
  rw [order_succ_of_commits hG h]
  exact (mem_visit_self (Nat.succ_pos k) c.digest _).resolve_left (Finset.notMem_empty _)

/-- The round of a digest's certificate. -/
noncomputable def roundOf (G : Set Certificate) (d : Digest) : ℕ :=
  ((certOf G d).map (·.vertex.round)).getD 0

theorem roundOf_digest (hG : DagStore.Unequivocal G) (hc : c ∈ G) :
    roundOf G c.digest = c.vertex.round := by
  rw [roundOf, certOf_digest hG hc]
  rfl

/-- Parents are of the round before. -/
theorem ranked_parentsOf (hG : CertifiedDag V G) : Ranked (parentsOf G) (roundOf G) := by
  intro d p hp
  unfold parentsOf at hp
  cases hcert : certOf G d with
  | none => simp [hcert] at hp
  | some c =>
    have hex : ∃ c ∈ G, c.digest = d := by
      by_contra hno
      rw [certOf, dif_neg hno] at hcert
      cases hcert
    have hc : c ∈ G := by
      rw [certOf, dif_pos hex, Option.some.injEq] at hcert
      exact hcert ▸ hex.choose_spec.1
    simp only [hcert] at hp
    split_ifs at hp with hround
    · cases hp
    · rw [mem_insertionSort] at hp
      obtain ⟨c', hc', rfl, hbelow⟩ := hG.parent_mem c hc (by omega) p hp
      rw [roundOf_digest hG.toUnequivocal hc', roundOf, hcert]
      show c'.vertex.round < c.vertex.round
      omega

/-- What is in the order is in the history of a leader that committed. -/
theorem exists_commits_of_mem_order (hG : CertifiedDag V G) {k : ℕ} (hc : c ∈ G)
    (hmem : c.digest ∈ order V G k) :
    ∃ j < k, c.vertex.round ≤ j ∧ ∃ c', Commits V G j c' := by
  induction k with
  | zero => cases hmem
  | succ k ih =>
    by_cases hex : ∃ c', Commits V G k c'
    · obtain ⟨leader, hleader⟩ := hex
      rw [order_succ_of_commits hG.toUnequivocal hleader] at hmem
      rcases reach_of_mem_visit hmem with hmem | ⟨-, hreach⟩
      · obtain ⟨j, hj, hround⟩ := ih hmem
        exact ⟨j, by omega, hround⟩
      · have hle := rank_le_of_reach (ranked_parentsOf hG) hreach
        rw [roundOf_digest hG.toUnequivocal hc,
          roundOf_digest hG.toUnequivocal hleader.leaderCert.1, hleader.leaderCert.2.1] at hle
        exact ⟨k, Nat.lt_succ_self k, hle, leader, hleader⟩
    · rw [order_succ_of_not_commits fun c' hc' => hex ⟨c', hc'⟩] at hmem
      obtain ⟨j, hj, hround⟩ := ih hmem
      exact ⟨j, by omega, hround⟩

end Order

end QChain
