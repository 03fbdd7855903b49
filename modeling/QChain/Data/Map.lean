import Mathlib

/-!
# Finite maps

Mathlib's association lists with distinct keys at a constant value type, with the operations hash
maps and ordered maps are used through: this file adds `values`, `retain` and `lookupLE`, and
characterises each of them by `AList.lookup`. A map's iteration order is not part of its meaning.
-/

namespace QChain

open AList List

variable {κ υ : Type*}

/-- A finite map from `κ` to `υ`. -/
abbrev Map (κ υ : Type*) := AList (fun _ : κ => υ)

namespace Map

/-- The values of a map, in iteration order. -/
def values (m : Map κ υ) : List υ := m.entries.map (·.2)

variable [DecidableEq κ] {m : Map κ υ} {k : κ} {v : υ}

theorem lookup_eq_some_iff_mem :
    m.lookup k = some v ↔ (⟨k, v⟩ : Sigma fun _ : κ => υ) ∈ m.entries :=
  mem_lookup_iff

theorem mem_values : v ∈ m.values ↔ ∃ k, m.lookup k = some v := by
  constructor
  · intro h
    obtain ⟨⟨k, w⟩, hmem, rfl⟩ := mem_map.1 h
    exact ⟨k, lookup_eq_some_iff_mem.2 hmem⟩
  · rintro ⟨k, hk⟩
    exact mem_map.2 ⟨⟨k, v⟩, lookup_eq_some_iff_mem.1 hk, rfl⟩

theorem mem_iff_lookup : k ∈ m ↔ ∃ v, m.lookup k = some v := by
  rw [← lookup_isSome, Option.isSome_iff_exists]

/-- Lookup after an insertion, as a single case split. -/
theorem lookup_insert_eq (m : Map κ υ) (k k' : κ) (v : υ) :
    (m.insert k v).lookup k' = if k' = k then some v else m.lookup k' := by
  split_ifs with h
  · subst h
    exact lookup_insert m
  · exact lookup_insert_ne h

/-- Lookup after a removal, as a single case split. -/
theorem lookup_erase_eq (m : Map κ υ) (k k' : κ) :
    (m.erase k).lookup k' = if k' = k then none else m.lookup k' := by
  split_ifs with h
  · subst h
    exact lookup_erase k' m
  · exact lookup_erase_ne h

/-- `entry(k).or_insert(v)`: an entry that is there stays. -/
def orInsert (m : Map κ υ) (k : κ) (v : υ) : Map κ υ := if k ∈ m then m else m.insert k v

/-! ### Retaining entries -/

/-- `retain`: the entries satisfying `p`. -/
def retain (p : κ → υ → Bool) (m : Map κ υ) : Map κ υ where
  entries := m.entries.filter fun e => p e.1 e.2
  nodupKeys := List.NodupKeys.sublist filter_sublist m.nodupKeys

theorem lookup_retain (p : κ → υ → Bool) (m : Map κ υ) (k : κ) :
    (m.retain p).lookup k = (m.lookup k).filter (p k) := by
  ext v
  rw [lookup_eq_some_iff_mem, retain, mem_filter, ← lookup_eq_some_iff_mem]
  simp [Option.filter_eq_some_iff]

theorem lookup_retain_of_pos {p : κ → υ → Bool} (h : ∀ v, p k v = true) :
    (m.retain p).lookup k = m.lookup k := by
  rw [lookup_retain]
  cases m.lookup k with
  | none => rfl
  | some v => simp [Option.filter, h]

theorem lookup_retain_of_neg {p : κ → υ → Bool} (h : ∀ v, p k v = false) :
    (m.retain p).lookup k = none := by
  rw [lookup_retain]
  cases m.lookup k with
  | none => rfl
  | some v => simp [Option.filter, h]

/-! ### The greatest key below a bound -/

/-- The value at the greatest key `≤ k`, the `range(..=k).next_back()` of an
ordered map, with that key. -/
def lookupLE (m : Map ℕ υ) : ℕ → Option (ℕ × υ)
  | 0 => (m.lookup 0).map (0, ·)
  | k + 1 =>
    match m.lookup (k + 1) with
    | some v => some (k + 1, v)
    | none => lookupLE m k

theorem lookupLE_of_lookup {m : Map ℕ υ} {k : ℕ} (h : m.lookup k = some v) :
    lookupLE m k = some (k, v) := by
  cases k with
  | zero | succ k => simp [lookupLE, h]

theorem lookupLE_eq_some_iff {m : Map ℕ υ} {k j : ℕ} : lookupLE m k = some (j, v) ↔
      j ≤ k ∧ m.lookup j = some v ∧ ∀ i, j < i → i ≤ k → i ∉ m := by
  induction k with
  | zero =>
    constructor
    · intro h
      obtain ⟨w, hw, hjv⟩ := Option.map_eq_some_iff.1 h
      cases hjv
      exact ⟨le_rfl, hw, fun i hi hi' => absurd hi (by omega)⟩
    · rintro ⟨hj, hv, -⟩
      obtain rfl : j = 0 := by omega
      simp [lookupLE, hv]
  | succ k ih =>
    cases hk : m.lookup (k + 1) with
    | some w =>
      rw [lookupLE_of_lookup hk]
      constructor
      · intro h
        cases h
        exact ⟨le_rfl, hk, fun i hi hi' => absurd hi (by omega)⟩
      · rintro ⟨hj, hv, hno⟩
        -- the entry at `k + 1` itself leaves no room for a lower key
        have hjk : j = k + 1 := by
          by_contra hne
          exact hno (k + 1) (by omega) le_rfl (mem_iff_lookup.2 ⟨w, hk⟩)
        subst hjk
        rw [hk] at hv
        cases hv
        rfl
    | none =>
      have hnone : lookupLE m (k + 1) = lookupLE m k := by simp [lookupLE, hk]
      rw [hnone, ih]
      constructor
      · rintro ⟨hj, hv, hno⟩
        refine ⟨by omega, hv, fun i hi hi' => ?_⟩
        rcases Nat.lt_or_ge k i with hki | hik
        · obtain rfl : i = k + 1 := by omega
          exact lookup_eq_none.1 hk
        · exact hno i hi hik
      · rintro ⟨hj, hv, hno⟩
        have hjk : j ≠ k + 1 := fun hjk => by
          rw [hjk, hk] at hv
          cases hv
        exact ⟨by omega, hv, fun i hi hi' => hno i hi (by omega)⟩

/-- A map with an entry at `0` has a greatest key below every bound. -/
theorem lookupLE_isSome {m : Map ℕ υ} (h : 0 ∈ m) (k : ℕ) : (lookupLE m k).isSome := by
  induction k with
  | zero =>
    obtain ⟨v, hv⟩ := mem_iff_lookup.1 h
    simp [lookupLE, hv]
  | succ k ih =>
    cases hk : m.lookup (k + 1) with
    | some v => simp [lookupLE, hk]
    | none => simpa [lookupLE, hk] using ih

/-! ### Weight outside a set of keys -/

/-- The total weight of the entries whose key is not in `out`: what a traversal that
marks keys has left to do. -/
def weightOutside (f : υ → ℕ) (m : Map κ υ) (out : κ → Prop) [DecidablePred out] : ℕ :=
  ((m.entries.filter fun e => ¬ out e.1).map fun e => f e.2).sum

section Weight

variable (f : υ → ℕ) (m : Map κ υ) {out out' : κ → Prop} [DecidablePred out] [DecidablePred out']

omit [DecidableEq κ] in
theorem weightOutside_of_forall_not (h : ∀ k, ¬ out k) :
    weightOutside f m out = (m.values.map f).sum := by
  have hall : m.entries.filter (fun e => ¬ out e.1) = m.entries :=
    filter_eq_self.2 fun e _ => by simp [h e.1]
  rw [weightOutside, hall, values, map_map]
  rfl

omit [DecidableEq κ] in
theorem sum_filter_not_anti (h : ∀ k, out k → out' k) (l : List (Sigma fun _ : κ => υ)) :
    ((l.filter fun e => ¬ out' e.1).map fun e => f e.2).sum ≤
      ((l.filter fun e => ¬ out e.1).map fun e => f e.2).sum := by
  refine List.Sublist.sum_le_sum (List.Sublist.map _ ?_) fun _ _ => Nat.zero_le _
  refine monotone_filter_right _ fun e he => ?_
  simp only [decide_eq_true_eq] at he ⊢
  exact fun hout => he (h e.1 hout)

omit [DecidableEq κ] in
theorem weightOutside_anti (h : ∀ k, out k → out' k) :
    weightOutside f m out' ≤ weightOutside f m out :=
  sum_filter_not_anti f h m.entries

/-- Marking a key pays for its entry. -/
theorem weightOutside_add_le (hk : m.lookup k = some v) (hout : ¬ out k) (hout' : out' k)
    (h : ∀ k, out k → out' k) :
    weightOutside f m out' + f v ≤ weightOutside f m out := by
  have hmem := lookup_eq_some_iff_mem.1 hk
  obtain ⟨l, r, hlr⟩ := append_of_mem hmem
  have hl := sum_filter_not_anti f h l
  have hr := sum_filter_not_anti f h r
  simp only [weightOutside, hlr, filter_append, filter_cons, hout, hout', not_true,
    not_false_eq_true, decide_true, decide_false, if_true, Bool.false_eq_true, if_false,
    map_append, map_cons, sum_append, sum_cons]
  omega

end Weight

end Map

end QChain
