import QChain.Consensus.DagStore

/-!
# The Bullshark ordering rule

`Bullshark` of `qchain-consensus/src/bullshark.rs`: leader election, the direct
commit rule, the indirect rule through a later witness, and the post-order walk that
turns a committed leader into newly ordered digests.

The loops of the source are structural here. The walks carry the number of stack
frames they can ever pop, the loops over rounds the number of rounds left; that these
bounds are never what stops them is proved where the functions are specified. The
stake sums are sums of naturals: they run over distinct members, so they stay within
the `u64` range whenever the committee's total does.
-/

namespace QChain

variable [Crypto]

/-- The outcome of resolving one round's leader slot. -/
inductive RoundOutcome where
  | committed (digest : Digest)
  | skipped
  | undecided
  deriving DecidableEq

/-- The ordering rule over one store, one schedule and one GC barrier. -/
structure Bullshark where
  dag : DagStore
  schedule : ValidatorSchedule
  gcFloor : ℕ

namespace Bullshark

variable (b : Bullshark) (round : ℕ)

/-- Leader selection: a hash of the round number picks a committee member. -/
def leaderForRound : Option ValidatorId :=
  let ids := (b.schedule.forRound round).idsSorted
  if ids.isEmpty then none
  else ids[(Crypto.sha3 (toLeBytes 8 round)).firstU64Le % ids.length]?

/-! ### The direct rule -/

/-- The known certificates of the next round. -/
def nextRoundCerts : List Certificate :=
  b.dag.certificatesInRound (satAdd round 1)

/-- Stake, under the committee of `round`, of the members of the next round's
committee whose certificate for that round is not known. -/
def unknownStake : ℕ :=
  (((b.schedule.forRound (satAdd round 1)).idsSorted.filter fun id =>
      id ∉ (b.nextRoundCerts round).map (·.vertex.author)).map
    (b.schedule.forRound round).stakeOf).sum

/-- Stake of the next round's certificates that list `digest` as a parent. -/
def supportingStake (digest : Digest) : ℕ :=
  (((b.nextRoundCerts round).filter fun c => digest ∈ c.vertex.parents).map
    fun c => (b.schedule.forRound round).stakeOf c.vertex.author).sum

/-- Every parent of every known certificate of the next round is held. -/
def knownSupportIsPermanentlyZero : Bool :=
  (b.nextRoundCerts round).all fun c => c.vertex.parents.all b.dag.contains

/-- The certificate of the round's leader, if it is held. -/
def leaderCertificate : Option Certificate :=
  (b.leaderForRound round).bind fun leader => b.dag.certificateByAuthor round leader

/-- The three-way verdict of the direct rule on a round's leader. -/
def directStatus : RoundOutcome :=
  match b.leaderForRound round with
  | none => .skipped
  | some leader =>
    let quorum := (b.schedule.forRound round).quorumThreshold
    match b.dag.certificateByAuthor round leader with
    | some leaderCert =>
      if quorum ≤ b.supportingStake round leaderCert.digest then
        .committed leaderCert.digest
      else if satAdd (b.supportingStake round leaderCert.digest) (b.unknownStake round) < quorum
        then .skipped
      else .undecided
    | none =>
      if b.unknownStake round < quorum ∧ b.knownSupportIsPermanentlyZero round then .skipped
      else .undecided

/-! ### The causal walk -/

/-- A frame of the explicit stack. -/
inductive WalkStep where
  | enter (digest : Digest)
  | exit (digest : Digest)

/-- What one walk buffers until its root turns out to be fully present. -/
structure WalkState where
  localOrdered : List Digest
  localSeen : Finset Digest
  memo : Map Digest Bool

namespace WalkState

/-- The state a walk starts in. -/
def init : WalkState := ⟨[], ∅, ∅⟩

/-- Emit a digest into the local buffer. -/
def emit (st : WalkState) (digest : Digest) : WalkState where
  localOrdered := st.localOrdered ++ [digest]
  localSeen := insert digest st.localSeen
  memo := st.memo.insert digest true

/-- Record a digest as unresolved. -/
def fail (st : WalkState) (digest : Digest) : WalkState :=
  { st with memo := st.memo.insert digest false }

end WalkState

/-- The loop of `walk_causal_history`; the head of the list is the top of the stack. -/
def walkLoop (seen : Finset Digest) : ℕ → List WalkStep → WalkState → WalkState
  | 0, _, st => st
  | _ + 1, [], st => st
  | fuel + 1, .enter digest :: stack, st =>
    if digest ∈ seen ∨ digest ∈ st.memo then walkLoop seen fuel stack st
    else
      match b.dag.get digest with
      | none => walkLoop seen fuel stack (st.fail digest)
      | some cert =>
        if cert.vertex.round ≤ b.gcFloor then walkLoop seen fuel stack (st.emit digest)
        else
          -- parents pop in sorted order, the exit frame after all of them
          walkLoop seen fuel
            ((cert.vertex.parents.insertionSort (· ≤ ·)).map .enter ++ .exit digest :: stack) st
  | fuel + 1, .exit digest :: stack, st =>
    if digest ∈ seen ∨ digest ∈ st.memo then walkLoop seen fuel stack st
    else
      match b.dag.get digest with
      -- the source expects a digest present at its entry to be present at its exit
      | none => walkLoop seen fuel stack st
      | some cert =>
        if ∀ p ∈ cert.vertex.parents, p ∈ seen ∨ p ∈ st.localSeen then
          walkLoop seen fuel stack (st.emit digest)
        else walkLoop seen fuel stack (st.fail digest)

/-- The number of frames a walk can pop: the root, and for each certificate held its
parents and its exit. -/
def walkFuel : ℕ :=
  1 + (b.dag.byDigest.values.map fun c => 1 + c.vertex.parents.length).sum

/-- Post-order walk of a certificate's causal history. The buffered order is merged
only if the whole history is present; returns that verdict, `seen` and `ordered`. -/
def walkCausalHistory (root : Digest) (seen : Finset Digest) (ordered : List Digest) :
    Bool × Finset Digest × List Digest :=
  let st := b.walkLoop seen b.walkFuel [.enter root] .init
  if root ∈ seen ∨ root ∈ st.localSeen then
    (true, seen ∪ st.localSeen, ordered ++ st.localOrdered)
  else (false, seen, ordered)

/-! ### The indirect rule -/

/-- The loop of `reaches`: the stack, the visited digests, and whether a missing
certificate was met. -/
def reachesLoop (target : Digest) : ℕ → List Digest → Finset Digest → Bool → Option Bool
  | 0, _, _, _ => none
  | _ + 1, [], _, undecided => if undecided then none else some false
  | fuel + 1, node :: stack, visited, undecided =>
    if node = target then some true
    else if node ∈ visited then reachesLoop target fuel stack visited undecided
    else
      match b.dag.get node with
      | none => reachesLoop target fuel stack (insert node visited) true
      | some cert =>
        if cert.vertex.round ≤ b.gcFloor then
          reachesLoop target fuel stack (insert node visited) undecided
        else
          reachesLoop target fuel (cert.vertex.parents.reverse ++ stack) (insert node visited)
            undecided

/-- The number of frames `reaches` can pop, and one more for the empty stack. -/
def reachesFuel : ℕ :=
  2 + (b.dag.byDigest.values.map fun c => c.vertex.parents.length).sum

/-- Whether `target` is reachable from `start` by parent links; `none` if a missing
certificate leaves that open. -/
def reaches (start target : Digest) : Option Bool :=
  b.reachesLoop target b.reachesFuel [start] ∅ false

/-- The loop of `ultimate_witness`. -/
def ultimateWitnessLoop (upToRound : ℕ) : ℕ → ℕ → Option Digest
  | 0, _ => none
  | fuel + 1, round =>
    if round ≤ upToRound then
      match b.directStatus round with
      | .committed digest => some digest
      | .skipped => ultimateWitnessLoop upToRound fuel (satAdd round 1)
      | .undecided => none
    else none

/-- The first directly committed leader from `round` on, unless an undecided round
comes first. -/
def ultimateWitness (round upToRound : ℕ) : Option Digest :=
  b.ultimateWitnessLoop upToRound (upToRound + 1 - round) round

/-- The fate of a round: by the direct rule, else by reachability from the witness. -/
def resolve (round upToRound : ℕ) : RoundOutcome :=
  match b.directStatus round with
  | .skipped =>
    match (b.leaderCertificate round).map (·.digest) with
    | none => .skipped
    | some target =>
      match b.ultimateWitness (satAdd round 1) upToRound with
      | none => .undecided
      | some witness =>
        match b.reaches witness target with
        | some true => .committed target
        | some false => .skipped
        | none => .undecided
  | direct => direct

/-! ### Extending the order -/

/-- What `extend_order` threads through the rounds. -/
structure OrderState where
  ordered : List Digest
  seen : Finset Digest
  committedCache : Map ℕ Digest

/-- The outcome of a round, from the cache if it holds one, and the cache with a new
commit recorded. -/
def cachedOutcome (upToRound round : ℕ) (cache : Map ℕ Digest) : RoundOutcome × Map ℕ Digest :=
  match cache.lookup round with
  | some digest => (.committed digest, cache)
  | none =>
    match b.resolve round upToRound with
    | .committed digest => (.committed digest, cache.insert round digest)
    | outcome => (outcome, cache)

/-- The loop of `extend_order`. -/
def extendOrderLoop (upToRound : ℕ) : ℕ → ℕ → OrderState → OrderState × ℕ
  | 0, round, st => (st, round)
  | fuel + 1, round, st =>
    if round ≤ upToRound then
      let (outcome, cache) := b.cachedOutcome upToRound round st.committedCache
      match outcome with
      | .committed digest =>
        let (resolved, seen, ordered) := b.walkCausalHistory digest st.seen st.ordered
        if resolved then
          extendOrderLoop upToRound fuel (round + 1) ⟨ordered, seen, cache⟩
        else ({ st with committedCache := cache }, round)
      | .skipped => extendOrderLoop upToRound fuel (round + 1) { st with committedCache := cache }
      | .undecided => ({ st with committedCache := cache }, round)
    else (st, round)

/-- Extend the total order over the leader rounds `fromRound ..= upToRound`, stopping
at the first round that is undecided or cannot be walked yet. -/
def extendOrder (fromRound upToRound : ℕ) (seen : Finset Digest) (cache : Map ℕ Digest) :
    OrderState × ℕ :=
  b.extendOrderLoop upToRound (upToRound + 1 - fromRound) fromRound ⟨[], seen, cache⟩

/-! ### Extending the order, one round at a time -/

variable {upToRound round : ℕ} {cache : Map ℕ Digest} {st : OrderState}

theorem cachedOutcome_eq_committed {cache' : Map ℕ Digest} {digest : Digest}
    (h : b.cachedOutcome upToRound round cache = (.committed digest, cache')) :
    (cache.lookup round = some digest ∧ cache' = cache) ∨
      (cache.lookup round = none ∧ b.resolve round upToRound = .committed digest ∧
        cache' = cache.insert round digest) := by
  unfold cachedOutcome at h
  cases hlook : cache.lookup round with
  | some d =>
    simp only [hlook, Prod.mk.injEq, RoundOutcome.committed.injEq] at h
    exact Or.inl ⟨congrArg some h.1, h.2.symm⟩
  | none =>
    cases hres : b.resolve round upToRound with
    | committed d =>
      simp only [hlook, hres, Prod.mk.injEq, RoundOutcome.committed.injEq] at h
      exact Or.inr ⟨rfl, congrArg _ h.1, by rw [← h.2, h.1]⟩
    | skipped | undecided => simp [hlook, hres] at h

/-- Outcomes other than a commit come from resolving the round and leave the cache alone. -/
theorem cachedOutcome_eq_of_ne_committed {cache' : Map ℕ Digest} {outcome : RoundOutcome}
    (hne : ∀ digest, outcome ≠ .committed digest)
    (h : b.cachedOutcome upToRound round cache = (outcome, cache')) :
    cache.lookup round = none ∧ b.resolve round upToRound = outcome ∧ cache' = cache := by
  unfold cachedOutcome at h
  cases hlook : cache.lookup round with
  | some d =>
    simp only [hlook, Prod.mk.injEq] at h
    exact absurd h.1.symm (hne d)
  | none =>
    cases hres : b.resolve round upToRound with
    | committed d =>
      simp only [hlook, hres, Prod.mk.injEq] at h
      exact absurd h.1.symm (hne d)
    | skipped | undecided =>
      simp only [hlook, hres, Prod.mk.injEq] at h
      exact ⟨rfl, h.1, h.2.symm⟩

theorem fst_cachedOutcome (h : cache.lookup round = none) :
    (b.cachedOutcome upToRound round cache).1 = b.resolve round upToRound := by
  unfold cachedOutcome
  cases hres : b.resolve round upToRound <;> simp [h]

theorem lookup_snd_cachedOutcome_of_ne {k : ℕ} (hne : k ≠ round) :
    (b.cachedOutcome upToRound round cache).2.lookup k = cache.lookup k := by
  unfold cachedOutcome
  cases hlook : cache.lookup round with
  | some d => rfl
  | none =>
    cases hres : b.resolve round upToRound with
    | committed d => simp [hne]
    | skipped | undecided => rfl

/-- The cache records the outcome of the round if it is a commit. -/
theorem lookup_snd_cachedOutcome_self (upToRound round : ℕ) (cache : Map ℕ Digest) :
    (b.cachedOutcome upToRound round cache).2.lookup round =
      match (b.cachedOutcome upToRound round cache).1 with
      | .committed digest => some digest
      | _ => none := by
  unfold cachedOutcome
  cases hlook : cache.lookup round with
  | some d => exact hlook
  | none =>
    cases hres : b.resolve round upToRound with
    | committed d => exact AList.lookup_insert _
    | skipped | undecided => exact hlook

/-- What `extend_order` does in one round, and whether it goes on to the next. -/
def stepRound (upToRound round : ℕ) (st : OrderState) : OrderState × Bool :=
  let (outcome, cache) := b.cachedOutcome upToRound round st.committedCache
  match outcome with
  | .committed digest =>
    let (resolved, seen, ordered) := b.walkCausalHistory digest st.seen st.ordered
    if resolved then (⟨ordered, seen, cache⟩, true)
    else ({ st with committedCache := cache }, false)
  | .skipped => ({ st with committedCache := cache }, true)
  | .undecided => ({ st with committedCache := cache }, false)

/-- What one round does: it walks the committed leader, skips, or stops. -/
theorem stepRound_cases (upToRound round : ℕ) (st : OrderState) :
    (∃ digest cache, b.cachedOutcome upToRound round st.committedCache =
        (.committed digest, cache) ∧
      ((∃ seen ordered, b.walkCausalHistory digest st.seen st.ordered = (true, seen, ordered) ∧
          b.stepRound upToRound round st = (⟨ordered, seen, cache⟩, true)) ∨
        ((b.walkCausalHistory digest st.seen st.ordered).1 = false ∧
          b.stepRound upToRound round st = ({ st with committedCache := cache }, false)))) ∨
    (∃ cache, b.cachedOutcome upToRound round st.committedCache = (.skipped, cache) ∧
      b.stepRound upToRound round st = ({ st with committedCache := cache }, true)) ∨
    (∃ cache, b.cachedOutcome upToRound round st.committedCache = (.undecided, cache) ∧
      b.stepRound upToRound round st = ({ st with committedCache := cache }, false)) := by
  rcases hoc : b.cachedOutcome upToRound round st.committedCache with ⟨outcome, cache⟩
  cases outcome with
  | committed digest =>
    refine Or.inl ⟨digest, cache, rfl, ?_⟩
    rcases hw : b.walkCausalHistory digest st.seen st.ordered with ⟨resolved, seen, ordered⟩
    cases resolved with
    | true => exact Or.inl ⟨seen, ordered, rfl, by simp [stepRound, hoc, hw]⟩
    | false => exact Or.inr ⟨rfl, by simp [stepRound, hoc, hw]⟩
  | skipped => exact Or.inr (Or.inl ⟨cache, rfl, by simp [stepRound, hoc]⟩)
  | undecided => exact Or.inr (Or.inr ⟨cache, rfl, by simp [stepRound, hoc]⟩)

theorem committedCache_stepRound (upToRound round : ℕ) (st : OrderState) :
    (b.stepRound upToRound round st).1.committedCache =
      (b.cachedOutcome upToRound round st.committedCache).2 := by
  rcases b.stepRound_cases upToRound round st with
    ⟨digest, cache, hoc, ⟨seen, ordered, -, hs⟩ | ⟨-, hs⟩⟩ | ⟨cache, hoc, hs⟩ | ⟨cache, hoc, hs⟩
  all_goals rw [hs, hoc]

/-- The loop goes on only from a round that is decided. -/
theorem cachedOutcome_ne_undecided (h : (b.stepRound upToRound round st).2 = true) :
    (b.cachedOutcome upToRound round st.committedCache).1 ≠ .undecided := by
  intro hundecided
  rw [stepRound] at h
  simp only [hundecided] at h
  cases h

theorem extendOrderLoop_succ (upToRound fuel round : ℕ) (st : OrderState) :
    b.extendOrderLoop upToRound (fuel + 1) round st =
      if round ≤ upToRound then
        if (b.stepRound upToRound round st).2 then
          b.extendOrderLoop upToRound fuel (round + 1) (b.stepRound upToRound round st).1
        else ((b.stepRound upToRound round st).1, round)
      else (st, round) := by
  rw [extendOrderLoop]
  by_cases hround : round ≤ upToRound
  · rw [if_pos hround, if_pos hround]
    rcases b.stepRound_cases upToRound round st with
      ⟨digest, cache, hoc, ⟨seen, ordered, hw, hs⟩ | ⟨hw, hs⟩⟩ | ⟨cache, hoc, hs⟩ | ⟨cache, hoc, hs⟩
    · simp [hoc, hw, hs]
    · simp [hoc, hw, hs]
    · simp [hoc, hs]
    · simp [hoc, hs]
  · rw [if_neg hround, if_neg hround]

/-- An invariant of the rounds passed gives what holds where the loop stops: at a round
that is not settled, or after the last one. -/
theorem extendOrderLoop_rule {I Q : ℕ → OrderState → Prop}
    (step : ∀ round st, round ≤ upToRound → I round st →
      (b.stepRound upToRound round st).2 = true →
        I (round + 1) (b.stepRound upToRound round st).1)
    (stop : ∀ round st, round ≤ upToRound → I round st →
      (b.stepRound upToRound round st).2 = false → Q round (b.stepRound upToRound round st).1)
    (done : ∀ round st, upToRound < round → I round st → Q round st) {fuel : ℕ}
    (hfuel : upToRound + 1 - round ≤ fuel) (h : I round st) :
    Q (b.extendOrderLoop upToRound fuel round st).2
      (b.extendOrderLoop upToRound fuel round st).1 := by
  induction fuel generalizing round st with
  | zero => exact done round st (by omega) h
  | succ fuel ih =>
    rw [extendOrderLoop_succ]
    by_cases hround : round ≤ upToRound
    · rw [if_pos hround]
      cases hgo : (b.stepRound upToRound round st).2 with
      | true =>
        exact ih (by omega) (step round st hround h hgo)
      | false =>
        exact stop round st hround h hgo
    · rw [if_neg hround]
      exact done round st (by omega) h

/-- Two passes whose rounds stay related stop at the same round. -/
theorem extendOrderLoop_simulation {b b' : Bullshark} {R : ℕ → OrderState → OrderState → Prop}
    {Q : OrderState → OrderState → Prop}
    (step : ∀ round st st', round ≤ upToRound → R round st st' →
      (b.stepRound upToRound round st).2 = (b'.stepRound upToRound round st').2 ∧
        (((b.stepRound upToRound round st).2 = true → R (round + 1)
            (b.stepRound upToRound round st).1 (b'.stepRound upToRound round st').1) ∧
          ((b.stepRound upToRound round st).2 = false → Q
            (b.stepRound upToRound round st).1 (b'.stepRound upToRound round st').1)))
    (done : ∀ round st st', upToRound < round → R round st st' → Q st st') {fuel : ℕ}
    {st' : OrderState} (hfuel : upToRound + 1 - round ≤ fuel) (h : R round st st') :
    (b.extendOrderLoop upToRound fuel round st).2 =
        (b'.extendOrderLoop upToRound fuel round st').2 ∧
      Q (b.extendOrderLoop upToRound fuel round st).1
        (b'.extendOrderLoop upToRound fuel round st').1 := by
  induction fuel generalizing round st st' with
  | zero => exact ⟨rfl, done round st st' (by omega) h⟩
  | succ fuel ih =>
    rw [extendOrderLoop_succ, extendOrderLoop_succ]
    by_cases hround : round ≤ upToRound
    · obtain ⟨heq, hgo, hstop⟩ := step round st st' hround h
      rw [if_pos hround, if_pos hround, ← heq]
      cases hcase : (b.stepRound upToRound round st).2 with
      | true =>
        exact ih (by omega) (hgo hcase)
      | false =>
        exact ⟨rfl, hstop hcase⟩
    · rw [if_neg hround, if_neg hround]
      exact ⟨rfl, done round st st' (by omega) h⟩

/-- A pass that goes on at every round below `g` comes by there. -/
theorem exists_extendOrderLoop_eq {I : ℕ → OrderState → Prop} {g : ℕ} (hg : g ≤ upToRound + 1)
    (step : ∀ round st, round < g → I round st → (b.stepRound upToRound round st).2 = true ∧
      I (round + 1) (b.stepRound upToRound round st).1) (hround : round ≤ g) (h : I round st) :
    ∃ st', I g st' ∧ b.extendOrderLoop upToRound (upToRound + 1 - round) round st =
      b.extendOrderLoop upToRound (upToRound + 1 - g) g st' := by
  obtain ⟨n, hn⟩ : ∃ n, g = round + n := ⟨g - round, by omega⟩
  induction n generalizing round st with
  | zero =>
    obtain rfl : g = round := hn
    exact ⟨st, h, rfl⟩
  | succ n ih =>
    obtain ⟨hgo, hnext⟩ := step round st (by omega) h
    obtain ⟨st', hst', heq⟩ := ih (by omega) hnext (by omega)
    refine ⟨st', hst', ?_⟩
    have hfuel : upToRound + 1 - round = (upToRound + 1 - (round + 1)) + 1 := by omega
    rw [hfuel, extendOrderLoop_succ, if_pos (by omega), if_pos hgo, heq]

/-! ### How far a pass gets -/

theorem snd_extendOrder_le {seen : Finset Digest} :
    (b.extendOrder 0 upToRound seen cache).2 ≤ upToRound + 1 := by
  apply b.extendOrderLoop_rule (I := fun round _ => round ≤ upToRound + 1)
    (Q := fun round _ => round ≤ upToRound + 1)
  · intro round st hround _ _
    omega
  · intro round st hround h _
    exact h
  · intro round st _ h
    exact h
  · exact le_rfl
  · exact Nat.zero_le _

/-- A pass that starts without cached commits gets past a round only by resolving it. -/
theorem resolve_ne_undecided_of_lt {seen : Finset Digest} {r : ℕ}
    (hr : r < (b.extendOrder 0 upToRound seen ∅).2) :
    b.resolve r upToRound ≠ .undecided := by
  let I : ℕ → OrderState → Prop := fun round st =>
    (∀ k, round ≤ k → st.committedCache.lookup k = none) ∧
      ∀ k < round, b.resolve k upToRound ≠ .undecided
  let Q : ℕ → OrderState → Prop := fun round _ => ∀ k < round, b.resolve k upToRound ≠ .undecided
  have hQ : Q (b.extendOrder 0 upToRound seen ∅).2 (b.extendOrder 0 upToRound seen ∅).1 := by
    apply b.extendOrderLoop_rule (I := I) (Q := Q)
    · intro round st _ hI hgo
      refine ⟨fun k hk => ?_, fun k hk => ?_⟩
      · -- the cache gains at most this round, which is passed
        rw [committedCache_stepRound, lookup_snd_cachedOutcome_of_ne _ (by omega)]
        exact hI.1 k (by omega)
      · rcases Nat.lt_succ_iff_lt_or_eq.1 hk with hk | rfl
        · exact hI.2 k hk
        · rw [← fst_cachedOutcome _ (hI.1 k le_rfl)]
          exact b.cachedOutcome_ne_undecided hgo
    · intro round st _ hI _
      exact hI.2
    · intro round st _ hI
      exact hI.2
    · exact le_rfl
    · exact ⟨fun k _ => AList.lookup_empty k, fun k hk => absurd hk (Nat.not_lt_zero k)⟩
  exact hQ r hr

end Bullshark

end QChain
