import QChain.Consensus.Quorum
import QChain.Core.Transaction
import QChain.System.Run

/-!
# Committees by epoch

`ValidatorSchedule` of `qchain-consensus/src/schedule.rs`: the committee in effect for a round is
that of the highest installed epoch not above the round's epoch. That epoch 0 is always installed is
a field. The frontier epoch bounds how far rounds may be resolved; `u64Max` stands for no bound.
-/

namespace QChain

open AList Map Option

/-- `DEFAULT_EPOCH_ROUNDS`. -/
def defaultEpochRounds : ℕ := 1024

/-- The committee of every epoch, and how far it is known. -/
structure ValidatorSchedule where
  epochRounds : ℕ
  committees : Map ℕ ValidatorSet
  frontierEpoch : ℕ
  /-- The bootstrap committee is always present. -/
  base_mem : 0 ∈ committees

namespace ValidatorSchedule

/-- A schedule with one committee for every round. -/
def single (set : ValidatorSet) : ValidatorSchedule where
  epochRounds := defaultEpochRounds
  committees := AList.insert 0 set ∅
  frontierEpoch := u64Max
  base_mem := (mem_insert _).2 (Or.inl rfl)

/-- A rotating schedule of which only the bootstrap committee is known. The source
asserts `epoch_rounds > 0`. -/
def new (epochRounds : ℕ) (bootstrap : ValidatorSet) : ValidatorSchedule where
  epochRounds := epochRounds
  committees := AList.insert 0 bootstrap ∅
  frontierEpoch := 0
  base_mem := (mem_insert _).2 (Or.inl rfl)

variable (s : ValidatorSchedule) (epoch : ℕ)

/-- Raise the resolvable frontier; a lower value is ignored. -/
def setFrontierEpoch : ValidatorSchedule :=
  if s.frontierEpoch < epoch then { s with frontierEpoch := epoch } else s

/-- The last round that may be resolved: the final round of the frontier epoch. -/
def resolvableFrontierRound : ℕ :=
  if s.frontierEpoch = u64Max then u64Max
  else satMul (satAdd s.frontierEpoch 1) s.epochRounds - 1

/-- Which epoch a round falls in. -/
def epochOf (round : ℕ) : ℕ := round / s.epochRounds

/-- Install or replace the committee that takes effect at the start of `epoch`. -/
def installEpoch (committee : ValidatorSet) : ValidatorSchedule :=
  { s with
    committees := s.committees.insert epoch committee
    base_mem := (mem_insert _).2 (Or.inr s.base_mem) }

/-- The committee of the highest installed epoch `≤ epoch`. -/
def forEpoch : ValidatorSet :=
  ((s.committees.lookupLE epoch).get (lookupLE_isSome s.base_mem epoch)).2

/-- The committee in effect for `round`. -/
def forRound (round : ℕ) : ValidatorSet := s.forEpoch (s.epochOf round)

/-- Whether `id` is a member of any installed committee. -/
def isKnownInAnyCommittee (id : ValidatorId) : Bool :=
  s.committees.values.any fun c => (c.get id).isSome

/-- Drop the committees that no round from `floorRound` on resolves to; epoch 0
stays. Returns the epoch whose committee is in effect at `floorRound`. -/
def pruneEpochsBelow (floorRound : ℕ) : ValidatorSchedule × ℕ :=
  if s.epochRounds = 0 then (s, 0)
  else
    let anchor := ((s.committees.lookupLE (floorRound / s.epochRounds)).map (·.1)).getD 0
    ({ s with
        committees := s.committees.retain fun e _ => e = 0 || decide (anchor ≤ e)
        base_mem := by
          obtain ⟨v, hv⟩ := mem_iff_lookup.1 s.base_mem
          refine mem_iff_lookup.2 ⟨v, ?_⟩
          rwa [lookup_retain_of_pos (by simp)] }, anchor)

/-! ### Which committee a round resolves to -/

theorem forEpoch_eq_iff {epoch : ℕ} {set : ValidatorSet} :
    s.forEpoch epoch = set ↔
      ∃ e ≤ epoch, s.committees.lookup e = some set ∧
        ∀ i, e < i → i ≤ epoch → i ∉ s.committees := by
  have hsome := lookupLE_isSome s.base_mem epoch
  obtain ⟨⟨e, set'⟩, he⟩ := isSome_iff_exists.1 hsome
  have hval : s.forEpoch epoch = set' := by simp [forEpoch, he]
  rw [hval]
  constructor
  · rintro rfl
    obtain ⟨hle, hlook, hno⟩ := lookupLE_eq_some_iff.1 he
    exact ⟨e, hle, hlook, hno⟩
  · rintro ⟨e', hle, hlook, hno⟩
    have he' := lookupLE_eq_some_iff.2 ⟨hle, hlook, hno⟩
    rw [he'] at he
    cases he
    rfl

/-- An epoch resolves to a committee that was installed at or below it. -/
theorem exists_lookup_forEpoch :
    ∃ e ≤ epoch, s.committees.lookup e = some (s.forEpoch epoch) ∧
      ∀ i, e < i → i ≤ epoch → i ∉ s.committees :=
  s.forEpoch_eq_iff.1 rfl

/-- Installing an epoch does not change which committee lower epochs resolve to. -/
theorem forEpoch_installEpoch_of_lt {epoch e : ℕ} {committee : ValidatorSet} (h : e < epoch) :
    (s.installEpoch epoch committee).forEpoch e = s.forEpoch e := by
  obtain ⟨e', hle, hlook, hno⟩ := s.exists_lookup_forEpoch e
  refine (forEpoch_eq_iff _).2 ⟨e', hle, ?_, fun i hi hie hmem => ?_⟩
  · have hne : e' ≠ epoch := by omega
    simpa [installEpoch, Map.lookup_insert_eq, hne] using hlook
  · rcases (mem_insert _).1 hmem with rfl | hmem
    · omega
    · exact hno i hi hie hmem

@[simp] theorem forEpoch_setFrontierEpoch (epoch e : ℕ) :
    (s.setFrontierEpoch epoch).forEpoch e = s.forEpoch e := by
  unfold setFrontierEpoch
  split_ifs <;> rfl

theorem epochRounds_setFrontierEpoch :
    (s.setFrontierEpoch epoch).epochRounds = s.epochRounds := by
  unfold setFrontierEpoch
  split_ifs <;> rfl

@[simp] theorem single_forRound (set : ValidatorSet) (round : ℕ) :
    (single set).forRound round = set := by
  refine (forEpoch_eq_iff _).2
    ⟨0, Nat.zero_le _, lookup_insert _, fun i hi _ hmem => ?_⟩
  rcases (mem_insert _).1 hmem with rfl | hmem
  · omega
  · exact absurd hmem (notMem_empty i)

@[simp] theorem single_resolvableFrontierRound (set : ValidatorSet) :
    (single set).resolvableFrontierRound = u64Max := by
  simp [resolvableFrontierRound, single]

/-- The committees from one in effect on decide, and what is asked of them. -/
theorem forEpoch_eq_of_lookup_eq {γ : Type*} (f : ValidatorSet → γ) {s t : ValidatorSchedule}
    {anchor epoch : ℕ} (hmem : anchor ∈ s.committees) (hle : anchor ≤ epoch)
    (h : ∀ e, anchor ≤ e → (t.committees.lookup e).map f = (s.committees.lookup e).map f) :
    f (t.forEpoch epoch) = f (s.forEpoch epoch) := by
  obtain ⟨e, he, hlook, hno⟩ := s.exists_lookup_forEpoch epoch
  have hanchor : anchor ≤ e := by
    by_contra hlt
    exact hno anchor (not_le.1 hlt) hle hmem
  have hsame := h e hanchor
  rw [hlook, map_some] at hsame
  obtain ⟨set, hset, hf⟩ := map_eq_some_iff.1 hsame
  rw [← hf]
  congr 1
  refine t.forEpoch_eq_iff.2 ⟨e, he, hset, fun i hi hie hmem => hno i hi hie ?_⟩
  rw [← lookup_isSome, ← Option.isSome_map] at hmem ⊢
  rwa [← h i (hanchor.trans hi.le)]

/-- The anchor is the epoch in effect at the floor, and what lies between epoch 0 and it is gone. -/
theorem pruneEpochsBelow_spec (floorRound : ℕ) :
    (s.pruneEpochsBelow floorRound).1.epochRounds = s.epochRounds ∧
      (s.pruneEpochsBelow floorRound).2 ∈ s.committees ∧
      (s.pruneEpochsBelow floorRound).2 ≤ floorRound / s.epochRounds ∧
      ∀ e, (s.pruneEpochsBelow floorRound).1.committees.lookup e =
        if e = 0 ∨ (s.pruneEpochsBelow floorRound).2 ≤ e then s.committees.lookup e else none := by
  unfold pruneEpochsBelow
  split_ifs with hzero
  · exact ⟨rfl, s.base_mem, Nat.zero_le _, fun e => (if_pos (.inr (Nat.zero_le e))).symm⟩
  · obtain ⟨⟨anchor, set⟩, hanchor⟩ := isSome_iff_exists.1
      (lookupLE_isSome s.base_mem (floorRound / s.epochRounds))
    obtain ⟨hle, hlook, -⟩ := lookupLE_eq_some_iff.1 hanchor
    simp only [hanchor]
    refine ⟨trivial, mem_iff_lookup.2 ⟨_, hlook⟩, hle, fun e => ?_⟩
    split_ifs with he
    · exact lookup_retain_of_pos fun _ => by simpa using he
    · exact lookup_retain_of_neg fun _ => by simpa using he

/-- Pruning keeps the committee of every round from its floor on. -/
theorem forRound_pruneEpochsBelow {floorRound round : ℕ} (h : floorRound ≤ round) :
    (s.pruneEpochsBelow floorRound).1.forRound round = s.forRound round := by
  obtain ⟨hrounds, hmem, hle, hlookup⟩ := s.pruneEpochsBelow_spec floorRound
  rw [forRound, epochOf, hrounds]
  refine forEpoch_eq_of_lookup_eq id hmem (hle.trans (Nat.div_le_div_right h)) fun e he => ?_
  rw [hlookup, if_pos (.inr he)]

/-! ### Rotation -/

/-- No committee is installed beyond the frontier. -/
def Bounded : Prop := ∀ epoch ∈ s.committees, epoch ≤ s.frontierEpoch

/-- The epochs up to the frontier are as before; later ones may have been installed. -/
structure Grows (s t : ValidatorSchedule) : Prop where
  epochRounds : t.epochRounds = s.epochRounds
  frontier : s.frontierEpoch ≤ t.frontierEpoch
  lookup : ∀ epoch ≤ s.frontierEpoch, t.committees.lookup epoch = s.committees.lookup epoch

theorem Grows.refl (s : ValidatorSchedule) : Grows s s := ⟨rfl, le_rfl, fun _ _ => rfl⟩

theorem Grows.trans {s t u : ValidatorSchedule} (h : Grows s t) (h' : Grows t u) : Grows s u :=
  ⟨h'.epochRounds.trans h.epochRounds, h.frontier.trans h'.frontier, fun epoch he =>
    (h'.lookup epoch (he.trans h.frontier)).trans (h.lookup epoch he)⟩

variable (committee : ValidatorSet)

/-- What the ratchet does: install the epoch after the frontier and move the frontier there. -/
def rotate : ValidatorSchedule :=
  (s.installEpoch (s.frontierEpoch + 1) committee).setFrontierEpoch (s.frontierEpoch + 1)

theorem frontierEpoch_rotate :
    (s.rotate committee).frontierEpoch = s.frontierEpoch + 1 := by
  have hlt : (s.installEpoch (s.frontierEpoch + 1) committee).frontierEpoch <
      s.frontierEpoch + 1 := Nat.lt_succ_self _
  rw [rotate, setFrontierEpoch, if_pos hlt]

theorem committees_rotate :
    (s.rotate committee).committees = s.committees.insert (s.frontierEpoch + 1) committee := by
  unfold rotate setFrontierEpoch
  split_ifs <;> rfl

theorem grows_rotate : Grows s (s.rotate committee) where
  epochRounds := epochRounds_setFrontierEpoch _ _
  frontier := by
    rw [frontierEpoch_rotate]
    exact Nat.le_succ _
  lookup epoch he := by
    rw [committees_rotate, Map.lookup_insert_eq, if_neg (by omega)]

/-- Rounds of the epochs up to the frontier keep their committee. -/
theorem forRound_rotate {committee : ValidatorSet} {round : ℕ}
    (h : s.epochOf round ≤ s.frontierEpoch) :
    (s.rotate committee).forRound round = s.forRound round := by
  have hepoch : (s.rotate committee).epochOf round = s.epochOf round := by
    rw [epochOf, epochOf, (s.grows_rotate committee).epochRounds]
  rw [forRound, hepoch, rotate, forEpoch_setFrontierEpoch]
  exact s.forEpoch_installEpoch_of_lt (Nat.lt_succ_of_le h)

theorem Bounded.rotate {s : ValidatorSchedule} (h : s.Bounded) (committee : ValidatorSet) :
    (s.rotate committee).Bounded := by
  intro epoch hmem
  rw [committees_rotate] at hmem
  rw [frontierEpoch_rotate]
  rcases (mem_insert _).1 hmem with rfl | hmem
  · exact le_rfl
  · exact (h epoch hmem).trans (Nat.le_succ _)

end ValidatorSchedule

namespace ValidatorSet

/-- What a committee is asked for: its entries, its ids in order and its total stake. -/
def view (s : ValidatorSet) : (ValidatorId → Option ValidatorInfo) × List ValidatorId × ℕ :=
  (s.get, s.idsSorted, s.totalStake)

/-- The order of the entries in memory does not show. -/
theorem view_eq_of_get {s t : ValidatorSet} (h : ∀ id, s.get id = t.get id) : s.view = t.view := by
  have hperm : s.validators.entries.Perm t.validators.entries :=
    toFinmap_eq.1 (Finmap.ext_lookup h)
  have hids : s.idsSorted.Perm t.idsSorted :=
    ((List.perm_insertionSort _ _).trans (hperm.map _)).trans (List.perm_insertionSort _ _).symm
  have hcomm : RightCommutative fun acc (v : ValidatorInfo) => satAdd acc v.stake :=
    ⟨fun acc v w => by unfold satAdd; omega⟩
  refine Prod.ext (funext h) (Prod.ext ?_ ?_)
  · exact hids.eq_of_pairwise' (List.pairwise_insertionSort _ _) (List.pairwise_insertionSort _ _)
  · show s.totalStake = t.totalStake
    rw [s.totalStake_eq, t.totalStake_eq]
    exact (hperm.map _).foldl_eq _

end ValidatorSet

namespace ValidatorSchedule

/-- `PersistedValidator`. -/
structure PersistedValidator where
  id : ValidatorId
  pubkeyBundle : PublicKeyBundle
  stake : ℕ
  deriving DecidableEq

/-- The entries of a committee in the order of their ids. -/
def persisted (committee : ValidatorSet) : List PersistedValidator :=
  committee.idsSorted.filterMap fun id =>
    (committee.get id).map fun info => ⟨id, info.pubkeyBundle, info.stake⟩

/-- The entries of some ids are collected under their own ids. -/
theorem lookup_collect_filterMap (committee : ValidatorSet) (ids : List ValidatorId)
    (id : ValidatorId) :
    (ValidatorSet.collect ((ids.filterMap fun id => (committee.get id).map fun info =>
      (⟨id, info.pubkeyBundle, info.stake⟩ : PersistedValidator)).map
      fun p => ⟨p.id, p.pubkeyBundle, p.stake⟩)).lookup id =
      if id ∈ ids then committee.get id else none := by
  induction ids using List.reverseRecOn with
  | nil => rfl
  | append_singleton ids id' ih =>
    cases hget : committee.get id' with
    | none =>
      rw [List.filterMap_append]
      simp only [List.filterMap_cons, hget, List.filterMap_nil, map_none, List.append_nil, ih]
      by_cases hid : id = id' <;> simp [hid, hget]
    | some info =>
      obtain rfl := committee.id_eq hget
      rw [List.filterMap_append, List.map_append]
      simp only [List.filterMap_cons, hget, List.filterMap_nil, map_some, List.map_cons,
        List.map_nil, ValidatorSet.collect_concat, Map.lookup_insert_eq, ih]
      by_cases hid : id = info.id <;> simp [hid, hget]

/-! ### The committee log

The node writes every committee it installs to a log on disk, removes from it what pruning drops,
and at a restart installs what the log holds. -/

section Log

variable (toVec : List PersistedValidator → List UInt8)
  (fromSlice : List UInt8 → Option (List PersistedValidator))

/-- `serialize_committee`. -/
def serializeCommittee (committee : ValidatorSet) : List UInt8 := toVec (persisted committee)

/-- `deserialize_committee`. -/
def deserializeCommittee (bytes : List UInt8) : Option ValidatorSet :=
  (fromSlice bytes).map fun entries => .new (entries.map fun p => ⟨p.id, p.pubkeyBundle, p.stake⟩)

/-- A committee that is written and read back answers as before. -/
theorem exists_deserializeCommittee {committee : ValidatorSet}
    (hborsh : fromSlice (toVec (persisted committee)) = some (persisted committee)) :
    ∃ set, deserializeCommittee fromSlice (serializeCommittee toVec committee) = some set ∧
      set.view = committee.view := by
  refine ⟨_, congrArg (Option.map _) hborsh, ValidatorSet.view_eq_of_get fun id => ?_⟩
  refine (lookup_collect_filterMap committee committee.idsSorted id).trans ?_
  split_ifs with hid
  · rfl
  · rw [committee.mem_idsSorted, committee.mem_members] at hid
    exact (Option.eq_none_iff_forall_ne_some.2 fun info h => hid ⟨info, h⟩).symm

/-- `prune_committee_log_below`. -/
def pruneCommitteeLogBelow (log : Map ℕ (List UInt8)) (anchor : ℕ) : Map ℕ (List UInt8) :=
  if anchor ≤ 1 then log else log.retain fun e _ => decide (e < 1) || decide (anchor ≤ e)

/-- Install one entry of the log; an entry that does not decode is skipped. -/
def installEntry (s : ValidatorSchedule) (entry : Σ _ : ℕ, List UInt8) : ValidatorSchedule :=
  (deserializeCommittee fromSlice entry.2).elim s (s.installEpoch entry.1)

/-- The schedule of a restarted node. -/
def reload (epochRounds : ℕ) (bootstrap : ValidatorSet) (log : Map ℕ (List UInt8)) :
    ValidatorSchedule :=
  (log.entries.foldl (installEntry fromSlice) (new epochRounds bootstrap)).setFrontierEpoch
    (((log.entries.filter fun entry =>
      (deserializeCommittee fromSlice entry.2).isSome).map Sigma.fst).max?.getD 0)

/-- What happens to the schedule of a node. -/
inductive LogEvent
  | install (epoch : ℕ) (committee : ValidatorSet)
  | prune (floorRound : ℕ)

/-- The schedule of a node, what it would be without pruning, and the log. -/
structure Logged where
  schedule : ValidatorSchedule
  unpruned : ValidatorSchedule
  log : Map ℕ (List UInt8)

namespace Logged

def new (epochRounds : ℕ) (bootstrap : ValidatorSet) : Logged :=
  ⟨.new epochRounds bootstrap, .new epochRounds bootstrap, ∅⟩

def step (st : Logged) : LogEvent → Logged
  | .install epoch committee =>
    ⟨st.schedule.installEpoch epoch committee, st.unpruned.installEpoch epoch committee,
      st.log.insert epoch (serializeCommittee toVec committee)⟩
  | .prune floorRound =>
    let (schedule, anchor) := st.schedule.pruneEpochsBelow floorRound
    ⟨schedule, st.unpruned, pruneCommitteeLogBelow st.log anchor⟩

end Logged

theorem lookup_installEntry (s : ValidatorSchedule) (epoch : ℕ) (stored : List UInt8) :
    (installEntry fromSlice s ⟨epoch, stored⟩).epochRounds = s.epochRounds ∧
      ∀ e, (installEntry fromSlice s ⟨epoch, stored⟩).committees.lookup e =
        if e = epoch then (deserializeCommittee fromSlice stored).or (s.committees.lookup e)
        else s.committees.lookup e := by
  unfold installEntry
  cases deserializeCommittee fromSlice stored with
  | none => simp
  | some committee => simp [installEpoch, Map.lookup_insert_eq]

theorem lookup_foldl_installEntry {entries : List (Σ _ : ℕ, List UInt8)}
    (hentries : entries.NodupKeys) (s : ValidatorSchedule) :
    (entries.foldl (installEntry fromSlice) s).epochRounds = s.epochRounds ∧
      ∀ e, (entries.foldl (installEntry fromSlice) s).committees.lookup e =
        ((entries.dlookup e).bind (deserializeCommittee fromSlice)).or (s.committees.lookup e) := by
  induction entries generalizing s with
  | nil => exact ⟨rfl, fun e => rfl⟩
  | cons entry entries ih =>
    obtain ⟨epoch, stored⟩ := entry
    rw [List.nodupKeys_cons] at hentries
    have hentry := lookup_installEntry fromSlice s epoch stored
    obtain ⟨hrounds, hlookup⟩ := ih hentries.2 (installEntry fromSlice s ⟨epoch, stored⟩)
    refine ⟨hrounds.trans hentry.1, fun e => ?_⟩
    rw [List.foldl_cons, hlookup, hentry.2]
    by_cases he : e = epoch
    · subst he
      rw [List.dlookup_eq_none.2 hentries.1, if_pos rfl, List.dlookup_cons_eq]
      rfl
    · rw [if_neg he, List.dlookup_cons_ne _ _ he]

theorem lookup_pruneCommitteeLogBelow (log : Map ℕ (List UInt8)) (anchor e : ℕ) :
    (pruneCommitteeLogBelow log anchor).lookup e =
      if e = 0 ∨ anchor ≤ e then log.lookup e else none := by
  unfold pruneCommitteeLogBelow
  split_ifs with hone hkept hkept
  · rfl
  · omega
  · exact lookup_retain_of_pos fun _ => by simpa using hkept
  · exact lookup_retain_of_neg fun _ => by simpa using hkept

theorem lookup_new (epochRounds : ℕ) (bootstrap : ValidatorSet) (e : ℕ) :
    (new epochRounds bootstrap).committees.lookup e = if e = 0 then some bootstrap else none :=
  Map.lookup_insert_eq _ _ _ _

variable {toVec fromSlice} {epochRounds round : ℕ} {bootstrap : ValidatorSet} {st : Logged}

/-- What pruning with floors up to a round leaves: from some epoch in effect below the round on the
schedule is as without pruning, and the log answers as the schedule. -/
structure Logged.Mirrors (fromSlice : List UInt8 → Option (List PersistedValidator))
    (epochRounds : ℕ) (bootstrap : ValidatorSet) (round : ℕ) (st : Logged) : Prop where
  schedule_rounds : st.schedule.epochRounds = epochRounds
  unpruned_rounds : st.unpruned.epochRounds = epochRounds
  anchored : ∃ anchor ∈ st.unpruned.committees, anchor ≤ round / epochRounds ∧
    ∀ e, anchor ≤ e → st.schedule.committees.lookup e = st.unpruned.committees.lookup e
  log_eq : ∀ e, (((st.log.lookup e).bind (deserializeCommittee fromSlice)).or
    ((ValidatorSchedule.new epochRounds bootstrap).committees.lookup e)).map ValidatorSet.view =
      (st.schedule.committees.lookup e).map ValidatorSet.view

namespace Logged.Mirrors

theorem install (h : st.Mirrors fromSlice epochRounds bootstrap round) (epoch : ℕ)
    {committee : ValidatorSet}
    (hborsh : fromSlice (toVec (persisted committee)) = some (persisted committee)) :
    (st.step toVec (.install epoch committee)).Mirrors fromSlice epochRounds bootstrap round where
  schedule_rounds := h.schedule_rounds
  unpruned_rounds := h.unpruned_rounds
  anchored := by
    obtain ⟨anchor, hmem, hle, hsame⟩ := h.anchored
    refine ⟨anchor, (mem_insert _).2 (.inr hmem), hle, fun e he => ?_⟩
    simp only [step, installEpoch, Map.lookup_insert_eq, hsame e he]
  log_eq e := by
    simp only [step, installEpoch, Map.lookup_insert_eq]
    split_ifs
    · obtain ⟨set, hset, hview⟩ := exists_deserializeCommittee toVec fromSlice hborsh
      rw [bind_some, hset, some_or, map_some, map_some, hview]
    · exact h.log_eq e

theorem prune (h : st.Mirrors fromSlice epochRounds bootstrap round) {floorRound : ℕ}
    (hfloor : floorRound ≤ round) :
    (st.step toVec (.prune floorRound)).Mirrors fromSlice epochRounds bootstrap round := by
  obtain ⟨hrounds, hmem, hle, hlookup⟩ := st.schedule.pruneEpochsBelow_spec floorRound
  show Mirrors fromSlice epochRounds bootstrap round ⟨(st.schedule.pruneEpochsBelow floorRound).1,
    st.unpruned, pruneCommitteeLogBelow st.log (st.schedule.pruneEpochsBelow floorRound).2⟩
  generalize st.schedule.pruneEpochsBelow floorRound = pruned at *
  rw [h.schedule_rounds] at hle
  refine ⟨hrounds.trans h.schedule_rounds, h.unpruned_rounds, ?_, fun e => ?_⟩
  · -- the higher one of the two anchors
    obtain ⟨anchor, hanchor, hanchorLe, hsame⟩ := h.anchored
    refine ⟨max anchor pruned.2, ?_, max_le hanchorLe (hle.trans (Nat.div_le_div_right hfloor)),
      fun e he => ?_⟩
    · rcases max_choice anchor pruned.2 with hmax | hmax
      · rwa [hmax]
      · rwa [hmax, mem_iff_lookup, ← hsame _ (max_eq_right_iff.1 hmax), ← mem_iff_lookup]
    · rw [hlookup, if_pos (.inr (le_of_max_le_right he)), hsame e (le_of_max_le_left he)]
  · rw [hlookup, lookup_pruneCommitteeLogBelow]
    split_ifs with hkept
    · exact h.log_eq e
    · rw [lookup_new, if_neg fun hzero => hkept (.inl hzero)]
      rfl

end Logged.Mirrors

theorem mirrors_run {events : List LogEvent}
    (hborsh : ∀ epoch committee, .install epoch committee ∈ events →
      fromSlice (toVec (persisted committee)) = some (persisted committee))
    (hround : ∀ floorRound, .prune floorRound ∈ events → floorRound ≤ round) :
    (Run.run (Logged.step toVec) (.new epochRounds bootstrap) events).Mirrors fromSlice epochRounds
      bootstrap round := by
  refine Run.induction ?_ fun st e he h => ?_
  · refine ⟨rfl, rfl, ⟨0, base_mem _, Nat.zero_le _, fun _ _ => rfl⟩, fun e => ?_⟩
    simp [Logged.new]
  · cases e with
    | install epoch committee => exact h.install epoch (hborsh epoch committee he)
    | prune floorRound => exact h.prune (hround floorRound he)

/-- Pruning is invisible: whatever committees are installed and whatever floors are pruned below,
every round from the floors on has the committee it has without pruning. After a restart from the
log it has one with the same entries, the same order of ids and the same total stake. -/
theorem pruning_invisible {events : List LogEvent}
    (hborsh : ∀ epoch committee, .install epoch committee ∈ events →
      fromSlice (toVec (persisted committee)) = some (persisted committee))
    (hround : ∀ floorRound, .prune floorRound ∈ events → floorRound ≤ round) :
    let st := Run.run (Logged.step toVec) (.new epochRounds bootstrap) events
    let reloaded := (reload fromSlice epochRounds bootstrap st.log).forRound round
    st.schedule.forRound round = st.unpruned.forRound round ∧
      (∀ id, reloaded.get id = (st.unpruned.forRound round).get id) ∧
      reloaded.idsSorted = (st.unpruned.forRound round).idsSorted ∧
      reloaded.totalStake = (st.unpruned.forRound round).totalStake := by
  intro st reloaded
  have h : st.Mirrors fromSlice epochRounds bootstrap round := mirrors_run hborsh hround
  obtain ⟨anchor, hmem, hle, hsame⟩ := h.anchored
  have hschedule : st.schedule.forRound round = st.unpruned.forRound round := by
    rw [forRound, forRound, epochOf, epochOf, h.schedule_rounds, h.unpruned_rounds]
    exact forEpoch_eq_of_lookup_eq id hmem hle fun e he => by rw [hsame e he]
  obtain ⟨hrounds, hlookup⟩ := lookup_foldl_installEntry fromSlice st.log.nodupKeys
    (ValidatorSchedule.new epochRounds bootstrap)
  have hreload : reloaded.view = (st.schedule.forRound round).view := by
    show (forRound (reload ..) _).view = _
    rw [forRound, forRound, epochOf, epochOf, h.schedule_rounds, reload, forEpoch_setFrontierEpoch,
      epochRounds_setFrontierEpoch, hrounds]
    exact forEpoch_eq_of_lookup_eq ValidatorSet.view (base_mem _) (Nat.zero_le _) fun e _ =>
      (congrArg _ (hlookup e)).trans (h.log_eq e)
  rw [hschedule] at hreload
  obtain ⟨hget, hrest⟩ := Prod.mk.inj hreload
  obtain ⟨hids, htotal⟩ := Prod.mk.inj hrest
  exact ⟨hschedule, congrFun hget, hids, htotal⟩

end Log

/-- The binary form of the entries of a committee, and how it is read. -/
def borshToVec (entries : List PersistedValidator) : List UInt8 :=
  (Borsh.toVec (entries.map fun p => (p.id, p.pubkeyBundle, (Word.ofNat p.stake : U64)))).getD []

def borshFromSlice (bytes : List UInt8) : Option (List PersistedValidator) :=
  (Borsh.fromSlice bytes : Option (List (Pubkey × PublicKeyBundle × U64))).map
    (·.map fun p => ⟨p.1, p.2.1, p.2.2⟩)

/-- Epochs 2 and 4 are installed, the first is dropped, and a later epoch is installed. -/
theorem pruning_invisible_gap :
    let st := Run.run (Logged.step borshToVec) (.new 1024 (.equalStakes 1))
      [.install 2 (.equalStakes 2), .install 4 (.equalStakes 4), .prune 5120,
        .install 7 (.equalStakes 7)]
    let reloaded := (reload borshFromSlice 1024 (.equalStakes 1) st.log).forRound 6144
    2 ∉ st.schedule.committees ∧ 2 ∉ st.log ∧
      st.schedule.forRound 6144 = st.unpruned.forRound 6144 ∧
      (∀ id, reloaded.get id = (st.unpruned.forRound 6144).get id) ∧
      reloaded.idsSorted = (st.unpruned.forRound 6144).idsSorted ∧
      reloaded.totalStake = (st.unpruned.forRound 6144).totalStake := by
  refine ⟨by decide, by decide +kernel, pruning_invisible (fun epoch committee h => ?_)
    fun floorRound h => ?_⟩
  · simp only [List.mem_cons, LogEvent.install.injEq, reduceCtorEq, false_or, List.not_mem_nil,
      or_false] at h
    obtain ⟨-, rfl⟩ | ⟨-, rfl⟩ | ⟨-, rfl⟩ := h
    · decide +kernel
    · decide +kernel
    · decide +kernel
  · simp at h
    omega

end ValidatorSchedule

end QChain
