import Mathlib
import QChain.Data.Map

/-!
# Tables mirrored in memory

A table of encoded entries, held in memory as a map of values. Writes go to the map and mark their
key, a write-back puts the marked keys into the table, and loading fails on an entry that is not the
encoding of anything. A table holds a view if it has the encodings of the view's entries and no
others.
-/

namespace WriteBack

open QChain

variable {κ υ β : Type*}

/-- How the keys and values of a table are written. A key has one encoding, a value at most one,
and nothing else is read. -/
structure Codec (κ υ β : Type*) where
  encodeKey : κ → β
  decodeKey : β → Option κ
  encode : υ → Option β
  decode : β → Option υ
  decodeKey_eq_some {b : β} {k : κ} : decodeKey b = some k ↔ encodeKey k = b
  decode_eq_some {b : β} {v : υ} : decode b = some v ↔ encode v = some b

namespace Codec

variable (c : Codec κ υ β)

theorem decodeKey_encodeKey (k : κ) : c.decodeKey (c.encodeKey k) = some k :=
  c.decodeKey_eq_some.2 rfl

theorem encodeKey_injective : Function.Injective c.encodeKey := by
  intro k k' h
  have hk := c.decodeKey_encodeKey k
  rw [h, c.decodeKey_encodeKey, Option.some_inj] at hk
  exact hk.symm

variable [DecidableEq β]

/-- The table has the encodings of a view's entries and no others. -/
structure Holds (table : Map β β) (view : κ → Option υ) : Prop where
  keys : ∀ b ∈ table, ∃ k, c.encodeKey k = b
  values : ∀ k, (view k).map c.encode = (table.lookup (c.encodeKey k)).map some

variable {c} {table : Map β β} {view : κ → Option υ} {k : κ}

/-- What the table holds at a key is read back. -/
theorem Holds.decode_lookup (h : c.Holds table view) (k : κ) :
    (table.lookup (c.encodeKey k)).bind c.decode = view k := by
  have hvalue := h.values k
  cases hview : view k with
  | none =>
    rw [hview, Option.map_none, eq_comm, Option.map_eq_none_iff] at hvalue
    rw [hvalue, Option.bind_none]
  | some v =>
    rw [hview, Option.map_some] at hvalue
    obtain ⟨b, hb, henc⟩ := Option.map_eq_some_iff.1 hvalue.symm
    rw [hb, Option.bind_some]
    exact c.decode_eq_some.2 henc.symm

/-- Every value of a view that a table holds has an encoding. -/
theorem Holds.exists_encode (h : c.Holds table view) {v : υ} (hv : view k = some v) :
    ∃ b, c.encode v = some b := by
  have hvalue := h.values k
  rw [hv, Option.map_some] at hvalue
  obtain ⟨b, -, henc⟩ := Option.map_eq_some_iff.1 hvalue.symm
  exact ⟨b, henc.symm⟩

variable [DecidableEq κ]

theorem Holds.insert (h : c.Holds table view) {v : υ} {b : β} (hencode : c.encode v = some b) :
    c.Holds (table.insert (c.encodeKey k) b) (Function.update view k (some v)) := by
  constructor
  · intro b' hb'
    rcases AList.mem_insert _ |>.1 hb' with rfl | hb'
    · exact ⟨k, rfl⟩
    · exact h.keys b' hb'
  · intro k'
    rw [Map.lookup_insert_eq]
    by_cases hk : k' = k
    · rw [hk, Function.update_self, if_pos rfl, Option.map_some, Option.map_some, hencode]
    · rw [Function.update_of_ne hk, if_neg (c.encodeKey_injective.ne hk), h.values]

theorem Holds.erase (h : c.Holds table view) :
    c.Holds (table.erase (c.encodeKey k)) (Function.update view k none) := by
  constructor
  · intro b' hb'
    exact h.keys b' (AList.mem_erase.1 hb').2
  · intro k'
    rw [Map.lookup_erase_eq]
    by_cases hk : k' = k
    · rw [hk, Function.update_self, if_pos rfl]
      rfl
    · rw [Function.update_of_ne hk, if_neg (c.encodeKey_injective.ne hk), h.values]

/-! ### Loading -/

/-- Reads one entry of a table into a map. -/
def loadEntry (c : Codec κ υ β) (mem : Map κ υ) (e : Sigma fun _ : β => β) : Option (Map κ υ) :=
  (c.decodeKey e.1).bind fun k => (c.decode e.2).map fun v => mem.insert k v

/-- Reads a table. -/
def load (c : Codec κ υ β) (table : Map β β) : Option (Map κ υ) :=
  table.entries.foldlM c.loadEntry ∅

variable {entries : List (Sigma fun _ : β => β)} {mem mem' : Map κ υ}

omit [DecidableEq β] in
theorem loadEntry_eq_some {e : Sigma fun _ : β => β} : c.loadEntry mem e = some mem' ↔
      ∃ k v, c.encodeKey k = e.1 ∧ c.decode e.2 = some v ∧ mem.insert k v = mem' := by
  simp [loadEntry, Option.bind_eq_some_iff, c.decodeKey_eq_some]

/-- Reading entries with different keys reads each of them. -/
theorem lookup_foldlM_loadEntry (hnodup : entries.NodupKeys)
    (h : entries.foldlM c.loadEntry mem = some mem') (k : κ) :
    mem'.lookup k = ((entries.dlookup (c.encodeKey k)).bind c.decode).or (mem.lookup k) := by
  induction entries generalizing mem with
  | nil =>
    obtain rfl := Option.some.inj h
    rfl
  | cons e entries ih =>
    obtain ⟨b, w⟩ := e
    rw [List.foldlM_cons] at h
    obtain ⟨mem₁, hmem₁, h⟩ := Option.bind_eq_some_iff.1 h
    obtain ⟨k₁, v₁, rfl, hvalue, rfl⟩ := loadEntry_eq_some.1 hmem₁
    rw [List.nodupKeys_cons] at hnodup
    rw [ih hnodup.2 h, Map.lookup_insert_eq]
    by_cases hk : k = k₁
    · subst hk
      rw [List.dlookup_eq_none.2 hnodup.1, if_pos rfl, List.dlookup_cons_eq]
      simp [hvalue]
    · rw [if_neg hk, List.dlookup_cons_ne _ _ (c.encodeKey_injective.ne hk)]

/-- Loading gives the entries of the table. -/
theorem lookup_load (h : c.load table = some mem) (k : κ) :
    mem.lookup k = (table.lookup (c.encodeKey k)).bind c.decode := by
  rw [lookup_foldlM_loadEntry table.nodupKeys h, AList.lookup_empty, Option.or_none]
  rfl

omit [DecidableEq β] in
theorem exists_of_foldlM_loadEntry (h : entries.foldlM c.loadEntry mem = some mem') :
    ∀ e ∈ entries, ∃ k v, c.encodeKey k = e.1 ∧ c.decode e.2 = some v := by
  induction entries generalizing mem with
  | nil => simp
  | cons e entries ih =>
    rw [List.foldlM_cons] at h
    obtain ⟨mem₁, hmem₁, h⟩ := Option.bind_eq_some_iff.1 h
    obtain ⟨k, v, hkey, hvalue, -⟩ := loadEntry_eq_some.1 hmem₁
    rintro e' (_ | ⟨_, he'⟩)
    · exact ⟨k, v, hkey, hvalue⟩
    · exact ih h e' he'

omit [DecidableEq β] in
theorem exists_foldlM_loadEntry
    (h : ∀ e ∈ entries, ∃ k v, c.encodeKey k = e.1 ∧ c.decode e.2 = some v) (mem : Map κ υ) :
    ∃ mem', entries.foldlM c.loadEntry mem = some mem' := by
  induction entries generalizing mem with
  | nil => exact ⟨mem, rfl⟩
  | cons e entries ih =>
    obtain ⟨k, v, hkey, hvalue⟩ := h e List.mem_cons_self
    obtain ⟨mem', hmem'⟩ := ih (fun e' he' => h e' (List.mem_cons_of_mem _ he')) (mem.insert k v)
    refine ⟨mem', ?_⟩
    rw [List.foldlM_cons, loadEntry_eq_some.2 ⟨k, v, hkey, hvalue, rfl⟩]
    exact hmem'

/-- A table that loads holds the map it loads as. -/
theorem holds_of_load (h : c.load table = some mem) : c.Holds table fun k => mem.lookup k := by
  have hentry := exists_of_foldlM_loadEntry h
  constructor
  · intro b hb
    obtain ⟨w, hw⟩ := Option.isSome_iff_exists.1 (AList.lookup_isSome.2 hb)
    obtain ⟨k, -, hkey, -⟩ := hentry ⟨b, w⟩ (AList.mem_lookup_iff.1 hw)
    exact ⟨k, hkey⟩
  · intro k
    rw [lookup_load h]
    cases hw : table.lookup (c.encodeKey k) with
    | none => rfl
    | some w =>
      obtain ⟨-, v, -, hv⟩ := hentry ⟨c.encodeKey k, w⟩ (AList.mem_lookup_iff.1 hw)
      rw [Option.bind_some, hv, Option.map_some, Option.map_some, c.decode_eq_some.1 hv]

/-- A table that holds a view loads as it. -/
theorem load_of_holds (h : c.Holds table view) :
    ∃ mem, c.load table = some mem ∧ ∀ k, mem.lookup k = view k := by
  have hentry : ∀ e ∈ table.entries, ∃ k v, c.encodeKey k = e.1 ∧ c.decode e.2 = some v := by
    rintro ⟨b, w⟩ he
    have hw : table.lookup b = some w := AList.mem_lookup_iff.2 he
    obtain ⟨k, rfl⟩ := h.keys b (AList.lookup_isSome.1 (by rw [hw]; rfl))
    have hvalue := h.values k
    rw [hw, Option.map_some] at hvalue
    obtain ⟨v, -, hv⟩ := Option.map_eq_some_iff.1 hvalue
    exact ⟨k, v, rfl, c.decode_eq_some.2 hv⟩
  obtain ⟨mem, hmem⟩ := exists_foldlM_loadEntry hentry ∅
  exact ⟨mem, hmem, fun k => (lookup_load hmem k).trans (h.decode_lookup k)⟩

end Codec

/-- A table's map in memory, with the keys written since the last write-back. -/
structure Mirror (κ υ : Type*) where
  mem : Map κ υ
  dirty : List κ

namespace Mirror

variable [DecidableEq κ] (m : Mirror κ υ)

def set (k : κ) (v : υ) : Mirror κ υ := ⟨m.mem.insert k v, m.dirty.insert k⟩

def remove (k : κ) : Mirror κ υ := ⟨m.mem.erase k, m.dirty.insert k⟩

/-- The map as a partial function. -/
def view : κ → Option υ := fun k => m.mem.lookup k

/-- The map with every key written back. -/
def clean : Mirror κ υ := ⟨m.mem, []⟩

variable [DecidableEq β] (c : Codec κ υ β)

/-- Puts one key into the table. -/
def writeKey (mem : Map κ υ) (table : Map β β) (k : κ) : Option (Map β β) :=
  match mem.lookup k with
  | some v => (c.encode v).map fun b => table.insert (c.encodeKey k) b
  | none => some (table.erase (c.encodeKey k))

/-- Puts the marked keys into the table. A value without an encoding stops it. -/
def writeBack (m : Mirror κ υ) (table : Map β β) : Option (Map β β) :=
  m.dirty.foldlM (writeKey c m.mem) table

/-- The table holds a view that differs from the map's at marked keys only. -/
def Follows (m : Mirror κ υ) (table : Map β β) (saved : κ → Option υ) : Prop :=
  c.Holds table saved ∧ ∀ k ∉ m.dirty, m.view k = saved k

variable {c : Codec κ υ β} {m : Mirror κ υ} {table table' : Map β β} {saved : κ → Option υ}

omit [DecidableEq β] in
theorem view_set (m : Mirror κ υ) (k : κ) (v : υ) :
    (m.set k v).view = Function.update m.view k (some v) := by
  funext k'
  simp only [view, set, Map.lookup_insert_eq, Function.update_apply]

omit [DecidableEq β] in
theorem view_remove (m : Mirror κ υ) (k : κ) :
    (m.remove k).view = Function.update m.view k none := by
  funext k'
  simp only [view, remove, Map.lookup_erase_eq, Function.update_apply]

theorem Follows.set (h : m.Follows c table saved) (k : κ) (v : υ) :
    (m.set k v).Follows c table saved := by
  refine ⟨h.1, fun k' hk' => ?_⟩
  simp only [Mirror.set, List.mem_insert_iff, not_or] at hk'
  rw [view_set, Function.update_of_ne hk'.1, h.2 k' hk'.2]

theorem Follows.remove (h : m.Follows c table saved) (k : κ) :
    (m.remove k).Follows c table saved := by
  refine ⟨h.1, fun k' hk' => ?_⟩
  simp only [Mirror.remove, List.mem_insert_iff, not_or] at hk'
  rw [view_remove, Function.update_of_ne hk'.1, h.2 k' hk'.2]

/-- A freshly loaded map follows its table. -/
theorem follows_of_load {mem : Map κ υ} (h : c.load table = some mem) :
    Follows c ⟨mem, []⟩ table fun k => mem.lookup k :=
  ⟨Codec.holds_of_load h, fun _ _ => rfl⟩

/-- Putting a key into the table gives it the map's value there. -/
theorem holds_writeKey (h : c.Holds table saved) {k : κ}
    (hwrite : writeKey c m.mem table k = some table') :
    c.Holds table' (Function.update saved k (m.view k)) := by
  unfold writeKey at hwrite
  unfold view
  split at hwrite
  · next v hv =>
    obtain ⟨b, hb, rfl⟩ := Option.map_eq_some_iff.1 hwrite
    rw [hv]
    exact h.insert hb
  · next hv =>
    obtain rfl := Option.some.inj hwrite
    rw [hv]
    exact h.erase

/-- Writing back a map that follows the table leaves a table that holds the map. -/
theorem holds_writeBack (h : m.Follows c table saved)
    (hwrite : m.writeBack c table = some table') : c.Holds table' m.view := by
  obtain ⟨hholds, hsame⟩ := h
  unfold writeBack at hwrite
  -- what is left to write covers the keys at which the table differs
  generalize m.dirty = keys at hwrite hsame
  induction keys generalizing table saved with
  | nil =>
    obtain rfl := Option.some.inj hwrite
    rwa [funext fun k => hsame k List.not_mem_nil]
  | cons k keys ih =>
    rw [List.foldlM_cons] at hwrite
    obtain ⟨table₁, htable₁, hwrite⟩ := Option.bind_eq_some_iff.1 hwrite
    refine ih (holds_writeKey hholds htable₁) hwrite fun k' hk' => ?_
    by_cases hkk : k' = k
    · rw [hkk, Function.update_self]
    · rw [Function.update_of_ne hkk]
      exact hsame k' (by simp [hkk, hk'])

theorem exists_writeKey {k : κ} (h : ∀ v, m.view k = some v → ∃ b, c.encode v = some b)
    (table : Map β β) : ∃ table', writeKey c m.mem table k = some table' := by
  unfold writeKey
  split
  · next v hv =>
    obtain ⟨b, hb⟩ := h v hv
    exact ⟨_, by rw [hb]; rfl⟩
  · exact ⟨_, rfl⟩

/-- A map whose values all have an encoding is written back. -/
theorem exists_writeBack (h : ∀ k v, m.view k = some v → ∃ b, c.encode v = some b)
    (table : Map β β) : ∃ table', m.writeBack c table = some table' := by
  unfold writeBack
  induction m.dirty generalizing table with
  | nil => exact ⟨table, rfl⟩
  | cons k keys ih =>
    obtain ⟨table₁, htable₁⟩ := exists_writeKey (h k) table
    obtain ⟨table', htable'⟩ := ih table₁
    exact ⟨table', by rw [List.foldlM_cons, htable₁]; exact htable'⟩

/-- A map that follows a table is written back exactly if its values all have an encoding. -/
theorem exists_writeBack_iff (h : m.Follows c table saved) :
    (∃ table', m.writeBack c table = some table') ↔
      ∀ k v, m.view k = some v → ∃ b, c.encode v = some b := by
  constructor
  · rintro ⟨table', hwrite⟩ k v hv
    exact (holds_writeBack h hwrite).exists_encode hv
  · intro hencode
    exact exists_writeBack hencode table

end Mirror

end WriteBack
