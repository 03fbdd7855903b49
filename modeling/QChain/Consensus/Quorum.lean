import Mathlib
import QChain.Core.Dag
import QChain.Data.Map
import QChain.Math.WeightedQuorum

/-!
# Stake-weighted validator sets

`ValidatorSet` of `qchain-consensus/src/quorum.rs`. The set is built from a list
that may repeat a validator; the map keeps the last entry of each, and the total
stake is the saturating sum over that map. Both facts are fields of the
structure, so every set met later has them.
-/

namespace QChain

open scoped BigOperators

/-- A committee member. -/
structure ValidatorInfo where
  id : ValidatorId
  pubkeyBundle : PublicKeyBundle
  stake : ℕ
  deriving DecidableEq

/-- The saturating sum of the stakes of a map of validators. -/
def saturatingStake (validators : Map ValidatorId ValidatorInfo) : ℕ :=
  validators.values.foldl (fun acc v => satAdd acc v.stake) 0

/-- A committee, keyed by validator id. -/
structure ValidatorSet where
  validators : Map ValidatorId ValidatorInfo
  totalStake : ℕ
  /-- Every entry is filed under its own id. -/
  id_eq : ∀ ⦃id info⦄, validators.lookup id = some info → info.id = id
  /-- The total is computed from the map, so a repeated entry counts once. -/
  totalStake_eq : totalStake = saturatingStake validators

namespace ValidatorSet

theorem eq_of_entries {s t : ValidatorSet} (h : s.validators.entries = t.validators.entries) :
    s = t := by
  have hmap : s.validators = t.validators := AList.ext h
  have htotal : s.totalStake = t.totalStake := by rw [s.totalStake_eq, t.totalStake_eq, hmap]
  cases s
  cases t
  cases hmap
  cases htotal
  rfl

instance : DecidableEq ValidatorSet := fun s t =>
  decidable_of_iff (s.validators.entries = t.validators.entries)
    ⟨eq_of_entries, fun h => by rw [h]⟩

variable (validators : List ValidatorInfo)

/-- Collecting `(v.id, v)` pairs into a map: the last entry of an id wins. -/
def collect : Map ValidatorId ValidatorInfo :=
  validators.foldl (fun m v => m.insert v.id v) ∅

theorem collect_concat (v : ValidatorInfo) :
    collect (validators ++ [v]) = (collect validators).insert v.id v := by
  simp [collect]

theorem collect_id_eq ⦃id : ValidatorId⦄
    ⦃info : ValidatorInfo⦄ (h : (collect validators).lookup id = some info) :
    info.id = id := by
  induction validators using List.reverseRecOn with
  | nil => simp [collect] at h
  | append_singleton vs v ih =>
    rw [collect_concat, Map.lookup_insert_eq] at h
    split_ifs at h with hid
    · cases h
      exact hid.symm
    · exact ih h

/-- `ValidatorSet::new`. -/
def new : ValidatorSet where
  validators := collect validators
  totalStake := saturatingStake (collect validators)
  id_eq := collect_id_eq validators
  totalStake_eq := rfl

/-- The committee of the validators `1..n` with one unit of stake each. -/
def equalStakes (n : ℕ) : ValidatorSet :=
  new ((List.range n).map fun i => ⟨Fin.ofNat _ (i + 1), hybridBundle, 1⟩)

variable (s : ValidatorSet)

/-- Minimum stake of a quorum: the smallest integer above two thirds of the total. -/
def quorumThreshold : ℕ := 2 * s.totalStake / 3 + 1

/-- The entry of a member. -/
def get (id : ValidatorId) : Option ValidatorInfo := s.validators.lookup id

/-- The stake of a validator, `0` for an outsider. -/
def stakeOf (id : ValidatorId) : ℕ := ((s.get id).map (·.stake)).getD 0

/-- Member ids in byte order, the basis of leader election. -/
def idsSorted : List ValidatorId := s.validators.keys.insertionSort (· ≤ ·)

/-- Number of members. -/
def len : ℕ := s.validators.entries.length

/-- The members as a finite set. -/
def members : Finset ValidatorId := s.validators.keys.toFinset

variable {id : ValidatorId}

theorem mem_members : id ∈ s.members ↔ ∃ info, s.get id = some info := by
  rw [members, List.mem_toFinset, ← AList.mem_keys, Map.mem_iff_lookup]
  rfl

theorem mem_idsSorted : id ∈ s.idsSorted ↔ id ∈ s.members := by
  rw [idsSorted, List.mem_insertionSort, members, List.mem_toFinset]

theorem idsSorted_nodup : s.idsSorted.Nodup :=
  (List.perm_insertionSort _ _).nodup_iff.2 s.validators.keys_nodup

theorem stakeOf_of_get {info : ValidatorInfo} (h : s.get id = some info) :
    s.stakeOf id = info.stake := by
  simp [stakeOf, h]

theorem stakeOf_eq_zero (h : id ∉ s.members) : s.stakeOf id = 0 := by
  have hnone : s.get id = none := by
    rw [Option.eq_none_iff_forall_ne_some]
    exact fun info hinfo => h (s.mem_members.2 ⟨info, hinfo⟩)
  simp [stakeOf, hnone]

/-! ### Total stake -/

/-- The stake carried by a set of validators. -/
def stake (ids : Finset ValidatorId) : ℕ := ∑ id ∈ ids, s.stakeOf id

theorem stake_union_le (a b : Finset ValidatorId) : s.stake (a ∪ b) ≤ s.stake a + s.stake b :=
  WeightedQuorum.sum_union_le a b

theorem stake_mono {a b : Finset ValidatorId} (h : a ⊆ b) : s.stake a ≤ s.stake b :=
  Finset.sum_le_sum_of_subset h

/-- Outsiders carry no stake. -/
theorem stake_inter_members (ids : Finset ValidatorId) :
    s.stake (ids ∩ s.members) = s.stake ids := by
  refine Finset.sum_subset Finset.inter_subset_left fun id hid hnot => ?_
  exact s.stakeOf_eq_zero fun hmem => hnot (Finset.mem_inter.2 ⟨hid, hmem⟩)

theorem foldl_satAdd_of_le (stakes : List ℕ) (acc : ℕ) (h : acc + stakes.sum ≤ u64Max) :
    stakes.foldl satAdd acc = acc + stakes.sum := by
  induction stakes generalizing acc with
  | nil => simp
  | cons x xs ih =>
    rw [List.sum_cons] at h ⊢
    rw [List.foldl_cons, satAdd_of_le (by omega), ih _ (by omega), Nat.add_assoc]

theorem saturatingStake_eq_foldl (m : Map ValidatorId ValidatorInfo) :
    saturatingStake m = (m.values.map (·.stake)).foldl satAdd 0 := by
  rw [saturatingStake, List.foldl_map]

/-- The sum over the entries is the stake of the set of members. -/
theorem sum_values_eq_stake_members :
    (s.validators.values.map (·.stake)).sum = s.stake s.members := by
  have hkeys : s.validators.values.map (·.stake) = s.validators.keys.map s.stakeOf := by
    rw [Map.values, AList.keys, List.keys, List.map_map, List.map_map]
    refine List.map_congr_left fun e he => ?_
    have hget : s.get e.1 = some e.2 := Map.lookup_eq_some_iff_mem.2 he
    exact (s.stakeOf_of_get hget).symm
  rw [hkeys, stake, members, List.sum_toFinset _ s.validators.keys_nodup]

/-- As long as the stakes fit a `u64`, the recorded total is their sum. -/
theorem totalStake_eq_stake_members (h : s.stake s.members ≤ u64Max) :
    s.totalStake = s.stake s.members := by
  rw [s.totalStake_eq, saturatingStake_eq_foldl,
    foldl_satAdd_of_le _ _ (by rwa [Nat.zero_add, sum_values_eq_stake_members]),
    Nat.zero_add, sum_values_eq_stake_members]

theorem foldl_satAdd_le (stakes : List ℕ) {acc : ℕ} (h : acc ≤ u64Max) :
    stakes.foldl satAdd acc ≤ u64Max := by
  induction stakes generalizing acc with
  | nil => exact h
  | cons x xs ih => exact ih (min_le_right _ _)

/-- Saturation keeps the threshold a `u64`. -/
theorem quorumThreshold_le : s.quorumThreshold ≤ u64Max := by
  have htotal : s.totalStake ≤ u64Max := by
    rw [s.totalStake_eq, saturatingStake_eq_foldl]
    exact foldl_satAdd_le _ (Nat.zero_le _)
  have hmax : u64Max = 2 ^ 64 - 1 := rfl
  unfold quorumThreshold
  omega

end ValidatorSet

end QChain
