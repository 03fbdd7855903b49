import QChain.Data.Borsh

/-!
# Sizes of encodings

How many bytes a value takes. Where every value of a type takes the same number, the encoder never
fails and the decoder refuses every byte string of another length; vectors and what contains them
have a least size only. Both notions are classes, so that the size of a record is found from its
fields.
-/

namespace Borsh

open QChain

/-- Every value has an encoding, of the given number of bytes. -/
class FixedSize (α : Type*) [Borsh α] (size : outParam ℕ) : Prop where
  exists_encode (a : α) : ∃ bytes, encode a = some bytes ∧ bytes.length = size

/-- No encoding has fewer than the given number of bytes. -/
class MinSize (α : Type*) [Borsh α] (size : outParam ℕ) : Prop where
  le_length {a : α} {bytes : List UInt8} : encode a = some bytes → size ≤ bytes.length

section

variable {α β : Type*} [Borsh α] [Borsh β] {m n : ℕ} {bytes : List UInt8}

theorem length_toVec [FixedSize α n] {a : α} (h : toVec a = some bytes) : bytes.length = n := by
  obtain ⟨bytes', hencode, hlength⟩ := FixedSize.exists_encode a
  obtain rfl := Option.mem_unique h hencode
  exact hlength

/-- A byte string of another length is no value. -/
theorem fromSlice_eq_none [LawfulBorsh α] [FixedSize α n] (h : bytes.length ≠ n) :
    (fromSlice bytes : Option α) = none := by
  cases hvalue : (fromSlice bytes : Option α) with
  | none => rfl
  | some a => exact absurd (length_toVec (fromSlice_eq_some_iff.1 hvalue)) h

instance (priority := low) [FixedSize α n] : MinSize α n where
  le_length h := (length_toVec h).ge

/-! ### Base types -/

instance : FixedSize (Word 64) 8 where
  exists_encode _ := ⟨_, rfl, length_toLeBytes 8 _⟩

instance : FixedSize (Word 128) 16 where
  exists_encode _ := ⟨_, rfl, length_toLeBytes 16 _⟩

instance : FixedSize UInt16 2 where
  exists_encode _ := ⟨_, rfl, length_toLeBytes 2 _⟩

instance : FixedSize Bool 1 where
  exists_encode _ := ⟨_, rfl, rfl⟩

/-! ### Records and enumerations -/

instance [FixedSize α m] [FixedSize β n] : FixedSize (α × β) (m + n) where
  exists_encode p := by
    obtain ⟨front, hfront, hm⟩ := FixedSize.exists_encode p.1
    obtain ⟨back, hback, hn⟩ := FixedSize.exists_encode p.2
    refine ⟨front ++ back, ?_, by rw [List.length_append, hm, hn]⟩
    show (do let front ← encode p.1; let back ← encode p.2; some (front ++ back)) = _
    simp [hfront, hback]

instance (priority := low) [MinSize α m] [MinSize β n] : MinSize (α × β) (m + n) where
  le_length {p bytes} h := by
    obtain ⟨front, hfront, h⟩ := Option.bind_eq_some_iff.1 h
    obtain ⟨back, hback, h⟩ := Option.bind_eq_some_iff.1 h
    obtain rfl := Option.some.inj h
    rw [List.length_append]
    exact Nat.add_le_add (MinSize.le_length hfront) (MinSize.le_length hback)

theorem length_encode_pair {a : α} {b : β} {back : List UInt8} (h : encode (a, b) = some bytes)
    (hback : encode b = some back) :
    ∃ front, encode a = some front ∧ bytes.length = front.length + back.length := by
  obtain ⟨front, hfront, h⟩ := Option.bind_eq_some_iff.1 h
  obtain ⟨back', hback', h⟩ := Option.bind_eq_some_iff.1 h
  obtain rfl := Option.some.inj h
  obtain rfl := Option.mem_unique hback hback'
  exact ⟨front, hfront, List.length_append⟩

theorem fixedSize_iso {γ : Type*} [FixedSize β n] (toFields : γ → β) (ofFields : β → γ) :
    @FixedSize γ (iso toFields ofFields) n := by
  let := iso toFields ofFields
  exact ⟨fun a => FixedSize.exists_encode (toFields a)⟩

theorem minSize_iso {γ : Type*} [MinSize β n] (toFields : γ → β) (ofFields : β → γ) :
    @MinSize γ (iso toFields ofFields) n := by
  let := iso toFields ofFields
  exact ⟨fun {a _} h => MinSize.le_length (a := toFields a) h⟩

omit [Borsh α] in
theorem fixedSize_ofTags {tag : α → UInt8} {values : List α} :
    @FixedSize α (ofTags tag values) 1 := by
  let := ofTags tag values
  exact ⟨fun a => ⟨[tag a], rfl, rfl⟩⟩

instance : MinSize (Option α) 1 where
  le_length {o bytes} h := by
    obtain ⟨payload, _, rfl⟩ := Option.map_eq_some_iff.1 h
    exact Nat.succ_le_succ (Nat.zero_le _)

/-- What a byte string is read as has no more bytes, also if the value is made into another. -/
theorem le_length_of_map_all [LawfulBorsh α] [MinSize α n] {γ : Type*} {f : α → γ} {c : γ}
    (h : ((decode : Decoder α).map f).all bytes = some c) :
    n ≤ bytes.length := by
  unfold Decoder.all at h
  split at h
  next c' hdecode =>
    obtain ⟨a, ha, _⟩ := Decoder.map_eq_some.1 hdecode
    exact MinSize.le_length (fromSlice_eq_some_iff.1 (fromSlice_eq_some.2 ha))
  · cases h

/-! ### Vectors and texts -/

/-- The encoding of a vector is its count and the encodings of its elements. -/
theorem length_encode_list {as : List α} (h : encode as = some bytes) :
    ∃ content, encodeAll as = some content ∧ bytes.length = 4 + content.length := by
  change (if as.length < 2 ^ 32 then _ else none) = some bytes at h
  split_ifs at h
  obtain ⟨content, hcontent, rfl⟩ := Option.map_eq_some_iff.1 h
  refine ⟨content, hcontent, ?_⟩
  rw [List.length_append, length_toLeBytes]

instance : MinSize (List α) 4 where
  le_length h := by
    obtain ⟨content, _, hlength⟩ := length_encode_list h
    omega

theorem length_encodeAll [FixedSize α n] {as : List α} (h : encodeAll as = some bytes) :
    bytes.length = n * as.length := by
  induction as generalizing bytes with
  | nil =>
    obtain rfl := Option.some.inj h
    rfl
  | cons a as ih =>
    obtain ⟨front, hfront, h⟩ := Option.bind_eq_some_iff.1 h
    obtain ⟨back, hback, h⟩ := Option.bind_eq_some_iff.1 h
    obtain rfl := Option.some.inj h
    rw [List.length_append, length_toVec hfront, ih hback, List.length_cons, Nat.mul_succ,
      Nat.add_comm]

/-- A vector of elements of a fixed size. -/
theorem length_toVec_list [FixedSize α n] {as : List α} (h : toVec as = some bytes) :
    bytes.length = 4 + n * as.length := by
  obtain ⟨content, hcontent, hlength⟩ := length_encode_list h
  rw [hlength, length_encodeAll hcontent]

/-- A vector that is not empty has an element. -/
theorem le_length_toVec_cons [MinSize α n] {a : α} {as : List α}
    (h : toVec (a :: as) = some bytes) : 4 + n ≤ bytes.length := by
  obtain ⟨content, hcontent, hlength⟩ := length_encode_list h
  obtain ⟨front, hfront, hcontent⟩ := Option.bind_eq_some_iff.1 hcontent
  obtain ⟨back, _, hcontent⟩ := Option.bind_eq_some_iff.1 hcontent
  obtain rfl := Option.some.inj hcontent
  have hmin : n ≤ front.length := MinSize.le_length hfront
  rw [List.length_append] at hlength
  omega

instance : MinSize Utf8 4 where
  le_length {t _} h := MinSize.le_length (a := t.bytes) h

/-! ### Values that have an encoding -/

/-- A value that has an encoding. -/
def Encodes (a : α) : Prop := ∃ bytes, toVec a = some bytes

theorem encodes_of_fixedSize [FixedSize α n] (a : α) : Encodes a := by
  obtain ⟨bytes, hencode, _⟩ := FixedSize.exists_encode a
  exact ⟨bytes, hencode⟩

theorem encodes_of_fromSlice [LawfulBorsh α] {a : α} (h : fromSlice bytes = some a) :
    Encodes a := ⟨bytes, fromSlice_eq_some_iff.1 h⟩

theorem exists_append_iff {x y : Option (List UInt8)} :
    (∃ bytes, (x.bind fun front => y.bind fun back => some (front ++ back)) = some bytes) ↔
      (∃ front, x = some front) ∧ ∃ back, y = some back := by
  cases x <;> cases y <;> simp

theorem encodes_pair {a : α} {b : β} : Encodes (a, b) ↔ Encodes a ∧ Encodes b :=
  exists_append_iff

theorem exists_encodeAll {as : List α} :
    (∃ bytes, encodeAll as = some bytes) ↔ ∀ a ∈ as, Encodes a := by
  induction as with
  | nil => exact iff_of_true ⟨[], rfl⟩ (by simp)
  | cons a as ih =>
    rw [List.forall_mem_cons, ← ih]
    exact exists_append_iff

/-- A vector has an encoding unless it is too long to count, if its elements have. -/
theorem encodes_list {as : List α} :
    Encodes as ↔ as.length < 2 ^ 32 ∧ ∀ a ∈ as, Encodes a := by
  have hencode : toVec as = if as.length < 2 ^ 32 then
      (encodeAll as).map (toLeBytes 4 as.length ++ ·) else none := rfl
  rw [← exists_encodeAll, Encodes, hencode]
  split_ifs with hlength
  · simp only [Option.map_eq_some_iff, hlength, true_and]
    exact ⟨fun ⟨_, bytes, h, _⟩ => ⟨bytes, h⟩, fun ⟨bytes, h⟩ => ⟨_, bytes, h, rfl⟩⟩
  · exact iff_of_false (fun ⟨_, h⟩ => nomatch h) fun h => hlength h.1

variable {α : Type*}

theorem mem_of_many {d : Decoder α} {n : ℕ} {rest : List UInt8} {as : List α}
    (h : d.many n bytes = some (as, rest)) :
    as.length = n ∧ ∀ a ∈ as, ∃ front back, d front = some (a, back) := by
  induction n generalizing bytes as with
  | zero =>
    obtain ⟨rfl, rfl⟩ := Prod.mk.inj (Option.some.inj h)
    exact ⟨rfl, fun _ ha => absurd ha List.not_mem_nil⟩
  | succ n ih =>
    simp only [Decoder.many] at h
    split at h
    · cases h
    · next a mid hfirst =>
      obtain ⟨⟨as', rest'⟩, hmany, heq⟩ := Option.map_eq_some_iff.1 h
      obtain ⟨rfl, rfl⟩ := Prod.mk.inj heq
      obtain ⟨hlength, hmem⟩ := ih hmany
      exact ⟨by rw [List.length_cons, hlength],
        List.forall_mem_cons.2 ⟨⟨bytes, mid, hfirst⟩, hmem⟩⟩

/-- What is read as a vector has an encoding, if the elements have. -/
theorem encodes_of_vec [Borsh α] {d : Decoder α} {rest : List UInt8} {as : List α}
    (hd : ∀ front a back, d front = some (a, back) → Encodes a)
    (h : d.vec bytes = some (as, rest)) : Encodes as := by
  unfold Decoder.vec at h
  split at h
  · cases h
  · next count rest' htake =>
    obtain ⟨hcount, rfl⟩ := Decoder.take_eq_some.1 htake
    obtain ⟨hlength, hmem⟩ := mem_of_many h
    have hlt := ofLeBytes_lt count
    rw [hcount, ← hlength] at hlt
    refine encodes_list.2 ⟨hlt, fun a ha => ?_⟩
    obtain ⟨front, back, hfront⟩ := hmem a ha
    exact hd front a back hfront

theorem encodes_of_decode [Borsh α] [LawfulBorsh α] {rest : List UInt8} {a : α}
    (h : decode bytes = some (a, rest)) :
    Encodes a := by
  obtain ⟨front, hfront, _⟩ := LawfulBorsh.encode_decode h
  exact ⟨front, hfront⟩

theorem encodes_nil [Borsh α] : Encodes ([] : List α) :=
  encodes_list.2 ⟨Nat.two_pow_pos 32, fun _ ha => absurd ha List.not_mem_nil⟩

theorem encodes_set [Borsh α] {as : List α} {i : ℕ} {a : α} (h : Encodes as)
    (ha : Encodes a) : Encodes (as.set i a) := by
  obtain ⟨hlength, hmem⟩ := encodes_list.1 h
  refine encodes_list.2 ⟨by rwa [List.length_set], fun a' ha' => ?_⟩
  rcases List.mem_or_eq_of_mem_set ha' with hold | rfl
  · exact hmem a' hold
  · exact ha

end

end Borsh
