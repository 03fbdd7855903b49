import Mathlib

/-!
# Extensional finite maps

Mathlib's `Finmap` at a constant value type: lookup after each operation as one case split,
the operation that changes every value, and the total of a weight over all values. Two maps
with the same lookups are equal, so a map says what a table holds and not how it was built.
-/

namespace Finmap

variable {κ υ : Type*} [DecidableEq κ]

/-- Lookup after an insertion, as a single case split. -/
theorem lookup_insert_eq (m : Finmap fun _ : κ => υ) (k k' : κ) (v : υ) :
    (m.insert k v).lookup k' = if k' = k then some v else m.lookup k' := by
  split_ifs with h
  · subst h
    exact lookup_insert m
  · exact lookup_insert_of_ne m h

variable {m : Finmap fun _ : κ => υ} {ω : Type*} {f : κ → υ → Option ω} {k : κ} {v : υ}

/-- Writing what is there changes nothing. -/
theorem insert_of_lookup (h : m.lookup k = some v) : m.insert k v = m := by
  apply ext_lookup
  intro k'
  rw [lookup_insert_eq]
  split_ifs with hk
  · rw [hk, h]
  · rfl

/-- Several writes leave other keys as they were. -/
theorem lookup_foldl_insert_of_notMem {α : Type*} {key : α → κ} {val : α → υ} {l : List α}
    (h : k ∉ l.map key) (m : Finmap fun _ : κ => υ) :
    (l.foldl (fun m a => m.insert (key a) (val a)) m).lookup k = m.lookup k := by
  induction l generalizing m with
  | nil => rfl
  | cons a l ih =>
    rw [List.map_cons, List.mem_cons, not_or] at h
    rw [List.foldl_cons, ih h.2, lookup_insert_eq, if_neg h.1]

/-- Several writes at different keys are all there in the end. -/
theorem lookup_foldl_insert_of_mem {α : Type*} {key : α → κ} {val : α → υ} {l : List α} {a : α}
    (hnodup : (l.map key).Nodup) (ha : a ∈ l) (m : Finmap fun _ : κ => υ) :
    (l.foldl (fun m a => m.insert (key a) (val a)) m).lookup (key a) = some (val a) := by
  induction l generalizing m with
  | nil => cases ha
  | cons b l ih =>
    rw [List.map_cons, List.nodup_cons] at hnodup
    rw [List.foldl_cons]
    rcases List.mem_cons.1 ha with rfl | ha
    · rw [lookup_foldl_insert_of_notMem hnodup.1, lookup_insert_eq, if_pos rfl]
    · exact ih hnodup.2 ha _

/-- Lookup in a union: the first map wins. -/
theorem lookup_union_eq (m m' : Finmap fun _ : κ => υ) (k : κ) :
    (m ∪ m').lookup k = (m.lookup k).or (m'.lookup k) := by
  cases h : m.lookup k with
  | none =>
    rw [lookup_union_right (lookup_eq_none.1 h), Option.none_or]
  | some v =>
    rw [lookup_union_left (mem_of_lookup_eq_some h), h, Option.some_or]

/-! ### Changing every value -/

omit [DecidableEq κ] in
theorem keys_map_entries (f : κ → υ → υ) (entries : Multiset (Sigma fun _ : κ => υ)) :
    (entries.map fun e => (⟨e.1, f e.1 e.2⟩ : Sigma fun _ : κ => υ)).keys = entries.keys := by
  rw [Multiset.keys, Multiset.map_map]
  rfl

/-- Every value replaced by a function of its key and of itself. -/
def mapValues (f : κ → υ → υ) (m : Finmap fun _ : κ => υ) : Finmap fun _ : κ => υ where
  entries := m.entries.map fun e => ⟨e.1, f e.1 e.2⟩
  nodupKeys := by
    rw [← Multiset.nodup_keys, keys_map_entries]
    exact Multiset.nodup_keys.2 m.nodupKeys

theorem lookup_eq_some_iff_mem :
    m.lookup k = some v ↔ (⟨k, v⟩ : Sigma fun _ : κ => υ) ∈ m.entries := by
  induction m using Finmap.induction_on with
  | H a =>
    rw [lookup_toFinmap]
    exact AList.mem_lookup_iff

@[simp] theorem lookup_mapValues (f : κ → υ → υ) (m : Finmap fun _ : κ => υ) (k : κ) :
    (m.mapValues f).lookup k = (m.lookup k).map (f k) := by
  ext w
  rw [lookup_eq_some_iff_mem, mapValues, Multiset.mem_map, Option.map_eq_some_iff]
  constructor
  · rintro ⟨⟨k', v⟩, hmem, heq⟩
    obtain ⟨rfl, rfl⟩ := Sigma.mk.inj_iff.1 heq
    exact ⟨v, lookup_eq_some_iff_mem.2 hmem, rfl⟩
  · rintro ⟨v, hv, rfl⟩
    exact ⟨⟨k, v⟩, lookup_eq_some_iff_mem.1 hv, rfl⟩

/-- The entries whose keys satisfy a condition. -/
def filterKeys (p : κ → Prop) [DecidablePred p] (m : Finmap fun _ : κ => υ) :
    Finmap fun _ : κ => υ where
  entries := m.entries.filter fun e => p e.1
  nodupKeys := by
    have hle := Multiset.map_le_map (f := Sigma.fst) (Multiset.filter_le (fun e => p e.1) m.entries)
    exact Multiset.nodup_keys.1 (Multiset.nodup_of_le hle (Multiset.nodup_keys.2 m.nodupKeys))

omit [DecidableEq κ] in
theorem keys_filterMap_le (f : κ → υ → Option ω) (entries : Multiset (Sigma fun _ : κ => υ)) :
    (entries.filterMap fun e => (f e.1 e.2).map (Sigma.mk (β := fun _ => ω) e.1)).keys ≤
      entries.keys := by
  induction entries using Multiset.induction_on with
  | empty => exact le_refl _
  | cons e entries ih =>
    rw [Multiset.keys_cons]
    cases h : f e.1 e.2 with
    | none =>
      rw [Multiset.filterMap_cons_none _ _ (by rw [h]; rfl)]
      exact ih.trans (Multiset.le_cons_self _ _)
    | some w =>
      rw [Multiset.filterMap_cons_some _ _ _ (by rw [h]; rfl), Multiset.keys_cons]
      exact Multiset.cons_le_cons _ ih

/-- What a partial function of key and value makes of the values. -/
def filterMapValues {ω : Type*} (f : κ → υ → Option ω) (m : Finmap fun _ : κ => υ) :
    Finmap fun _ : κ => ω where
  entries := m.entries.filterMap fun e => (f e.1 e.2).map (Sigma.mk e.1)
  nodupKeys := Multiset.nodup_keys.1
    (Multiset.nodup_of_le (keys_filterMap_le f m.entries) (Multiset.nodup_keys.2 m.nodupKeys))

@[simp] theorem lookup_filterMapValues (f : κ → υ → Option ω) (m : Finmap fun _ : κ => υ) (k : κ) :
    (m.filterMapValues f).lookup k = (m.lookup k).bind (f k) := by
  ext w
  rw [lookup_eq_some_iff_mem, filterMapValues, Multiset.mem_filterMap, Option.bind_eq_some_iff]
  constructor
  · rintro ⟨⟨k', v⟩, hmem, heq⟩
    obtain ⟨w', hw', heq⟩ := Option.map_eq_some_iff.1 heq
    obtain ⟨rfl, rfl⟩ := Sigma.mk.inj_iff.1 heq
    exact ⟨v, lookup_eq_some_iff_mem.2 hmem, hw'⟩
  · rintro ⟨v, hv, hw⟩
    exact ⟨⟨k, v⟩, lookup_eq_some_iff_mem.1 hv, by rw [hw]; rfl⟩

/-- An insertion the function does not see. -/
theorem filterMapValues_insert_of_eq (h : f k v = (m.lookup k).bind (f k)) :
    (m.insert k v).filterMapValues f = m.filterMapValues f := by
  apply ext_lookup
  intro k'
  rw [lookup_filterMapValues, lookup_filterMapValues, lookup_insert_eq]
  split_ifs with hk
  · rw [hk, Option.bind_some, h]
  · rfl

theorem filterMapValues_insert_of_some {w : ω} (h : f k v = some w) :
    (m.insert k v).filterMapValues f = (m.filterMapValues f).insert k w := by
  apply ext_lookup
  intro k'
  rw [lookup_filterMapValues, lookup_insert_eq, lookup_insert_eq, lookup_filterMapValues]
  split_ifs with hk
  · rw [hk, Option.bind_some, h]
  · rfl

/-! ### Totals -/

/-- The weight of the value at a key, zero where there is none. -/
def weightAt (f : υ → ℕ) (m : Finmap fun _ : κ => υ) (k : κ) : ℕ := (m.lookup k).elim 0 f

/-- The sum of the weights of all values. -/
def total (f : υ → ℕ) (m : Finmap fun _ : κ => υ) : ℕ := ∑ k ∈ m.keys, m.weightAt f k

variable {f : υ → ℕ} {m m' : Finmap fun _ : κ => υ} {k k' : κ} {v : υ}

theorem weightAt_of_lookup (h : m.lookup k = some v) : m.weightAt f k = f v := by
  rw [weightAt, h, Option.elim_some]

theorem weightAt_of_notMem (h : k ∉ m) : m.weightAt f k = 0 := by
  rw [weightAt, lookup_eq_none.2 h, Option.elim_none]

theorem weightAt_insert :
    (m.insert k v).weightAt f k' = if k' = k then f v else m.weightAt f k' := by
  rw [weightAt, lookup_insert_eq]
  split_ifs <;> rfl

/-- The total may be taken over any set of keys that holds all keys of the map. -/
theorem total_eq_sum {S : Finset κ} (h : m.keys ⊆ S) : m.total f = ∑ k ∈ S, m.weightAt f k := by
  apply Finset.sum_subset h
  intro k _ hk
  exact weightAt_of_notMem fun hmem => hk (mem_keys.2 hmem)

theorem total_le_total (h : ∀ k, m.weightAt f k ≤ m'.weightAt f k) : m.total f ≤ m'.total f := by
  have hleft : m.keys ⊆ m.keys ∪ m'.keys := Finset.subset_union_left
  have hright : m'.keys ⊆ m.keys ∪ m'.keys := Finset.subset_union_right
  rw [total_eq_sum hleft, total_eq_sum hright]
  exact Finset.sum_le_sum fun k _ => h k

/-- Maps that agree outside a set of keys compare as their sums over the set do. -/
theorem total_le_of_eqOn {S : Finset κ} (heq : ∀ k ∉ S, m.weightAt f k = m'.weightAt f k)
    (hle : ∑ k ∈ S, m.weightAt f k ≤ ∑ k ∈ S, m'.weightAt f k) : m.total f ≤ m'.total f := by
  have hleft : m.keys ⊆ m.keys ∪ m'.keys ∪ S :=
    Finset.subset_union_left.trans Finset.subset_union_left
  have hright : m'.keys ⊆ m.keys ∪ m'.keys ∪ S :=
    Finset.subset_union_right.trans Finset.subset_union_left
  have hS : S ⊆ m.keys ∪ m'.keys ∪ S := Finset.subset_union_right
  rw [total_eq_sum hleft, total_eq_sum hright, ← Finset.sum_sdiff hS, ← Finset.sum_sdiff hS]
  refine Nat.add_le_add (le_of_eq (Finset.sum_congr rfl ?_)) hle
  intro k hk
  exact heq k (Finset.mem_sdiff.1 hk).2

/-- Maps that agree outside a key differ by their weights there. -/
theorem total_add_weightAt (heq : ∀ k' ≠ k, m'.weightAt f k' = m.weightAt f k') :
    m'.total f + m.weightAt f k = m.total f + m'.weightAt f k := by
  -- both totals are taken over the keys of both maps and the key
  have hk : k ∈ m.keys ∪ m'.keys ∪ {k} := Finset.mem_union_right _ (Finset.mem_singleton_self k)
  have hleft : m.keys ⊆ m.keys ∪ m'.keys ∪ {k} :=
    Finset.subset_union_left.trans Finset.subset_union_left
  have hright : m'.keys ⊆ m.keys ∪ m'.keys ∪ {k} :=
    Finset.subset_union_right.trans Finset.subset_union_left
  have hrest : ∑ k' ∈ (m.keys ∪ m'.keys ∪ {k}).erase k, m'.weightAt f k' =
      ∑ k' ∈ (m.keys ∪ m'.keys ∪ {k}).erase k, m.weightAt f k' :=
    Finset.sum_congr rfl fun k' hk' => heq k' (Finset.ne_of_mem_erase hk')
  rw [total_eq_sum hleft, total_eq_sum hright, ← Finset.add_sum_erase _ (m'.weightAt f) hk,
    ← Finset.add_sum_erase _ (m.weightAt f) hk, hrest]
  omega

theorem total_congr (heq : ∀ k, m'.weightAt f k = m.weightAt f k) : m'.total f = m.total f :=
  le_antisymm (total_le_total fun k => (heq k).le) (total_le_total fun k => (heq k).ge)

theorem total_mono {g : υ → ℕ} (h : ∀ k v, m.lookup k = some v → f v ≤ g v) :
    m.total f ≤ m.total g := by
  apply Finset.sum_le_sum
  intro k hk
  obtain ⟨v, hv⟩ := mem_iff.1 (mem_keys.1 hk)
  rw [weightAt_of_lookup hv, weightAt_of_lookup hv]
  exact h k v hv

theorem total_add {g : υ → ℕ} : m.total (fun v => f v + g v) = m.total f + m.total g := by
  rw [total, total, total, ← Finset.sum_add_distrib]
  apply Finset.sum_congr rfl
  intro k hk
  obtain ⟨v, hv⟩ := mem_iff.1 (mem_keys.1 hk)
  rw [weightAt_of_lookup hv, weightAt_of_lookup hv, weightAt_of_lookup hv]

theorem total_mul (c : ℕ) : m.total (fun v => c * f v) = c * m.total f := by
  rw [total, total, Finset.mul_sum]
  apply Finset.sum_congr rfl
  intro k hk
  obtain ⟨v, hv⟩ := mem_iff.1 (mem_keys.1 hk)
  rw [weightAt_of_lookup hv, weightAt_of_lookup hv]

/-- Rounding every weight down loses no less than rounding the total. -/
theorem total_div_le {c : ℕ} (hc : 0 < c) : m.total (fun v => f v / c) ≤ m.total f / c := by
  rw [Nat.le_div_iff_mul_le hc, Nat.mul_comm, ← total_mul]
  exact total_mono fun _ v _ => Nat.mul_div_le _ _

/-- An insertion replaces the weight at its key. -/
theorem total_insert : (m.insert k v).total f + m.weightAt f k = m.total f + f v := by
  have heq : ∀ k' ≠ k, (m.insert k v).weightAt f k' = m.weightAt f k' := by
    intro k' hk'
    rw [weightAt_insert, if_neg hk']
  rw [total_add_weightAt heq, weightAt_insert, if_pos rfl]

/-- The weights at some keys are part of the total. -/
theorem total_insert_of_lookup {v' : υ} (h : m.lookup k = some v) :
    (m.insert k v').total f + f v = m.total f + f v' := by
  have htotal := total_insert (m := m) (f := f) (k := k) (v := v')
  rwa [weightAt_of_lookup h] at htotal

theorem total_insert_of_notMem (h : k ∉ m) : (m.insert k v).total f = m.total f + f v := by
  have htotal := total_insert (m := m) (f := f) (k := k) (v := v)
  rwa [weightAt_of_notMem h, Nat.add_zero] at htotal

theorem weightAt_le_total : m.weightAt f k ≤ m.total f := by
  by_cases hk : k ∈ m
  · exact Finset.single_le_sum (f := m.weightAt f) (fun _ _ => Nat.zero_le _) (mem_keys.2 hk)
  · rw [weightAt_of_notMem hk]
    exact Nat.zero_le _

end Finmap
