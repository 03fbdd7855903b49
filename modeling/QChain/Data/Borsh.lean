import QChain.Data.Bytes
import QChain.Data.Word

/-!
# Binary codecs

The binary format of Borsh: integers little-endian at their width, vectors behind a count
of four bytes, options and enumerations behind a tag, records field after field. A codec is
an encoder, which fails on a vector whose count does not fit four bytes, and a decoder that
returns what it did not read.

A lawful codec decodes what it encoded, and accepts no other encoding of a value. A record
is given as the product of its fields through `Borsh.iso`, an enumeration by its tags
through `Borsh.tagged`, and both keep the laws.

## Main definitions

* `Borsh`, `LawfulBorsh`: codecs and their two laws.
* `Borsh.toVec`, `Borsh.fromSlice`: `borsh::to_vec` and `try_from_slice`, which wants every
  byte read.
-/

/-- Reads a value off the front of a byte string. -/
abbrev Decoder (α : Type*) := List UInt8 → Option (α × List UInt8)

namespace Decoder

variable {α β : Type*}

/-- Decodes and then applies a function. -/
def map (f : α → β) (d : Decoder α) : Decoder β :=
  fun bytes => (d bytes).map fun (a, rest) => (f a, rest)

/-- Decodes two values, one after the other. -/
def pair (d : Decoder α) (e : Decoder β) : Decoder (α × β) := fun bytes =>
  match d bytes with
  | none => none
  | some (a, rest) => (e rest).map fun (b, rest') => ((a, b), rest')

/-- Decodes a given number of values. -/
def many (d : Decoder α) : ℕ → Decoder (List α)
  | 0 => fun bytes => some ([], bytes)
  | n + 1 => fun bytes =>
    match d bytes with
    | none => none
    | some (a, rest) => (many d n rest).map fun (as, rest') => (a :: as, rest')

/-- Takes a given number of bytes. -/
def take (n : ℕ) : Decoder (List UInt8) := fun bytes =>
  if n ≤ bytes.length then some (bytes.take n, bytes.drop n) else none

/-- Decodes a count of four bytes and as many values. -/
def vec (d : Decoder α) : Decoder (List α) := fun bytes =>
  match take 4 bytes with
  | none => none
  | some (count, rest) => d.many (QChain.ofLeBytes count) rest

/-- Decodes a tag and the variant the tag is the number of. -/
def variants (ds : List (Decoder α)) : Decoder α
  | [] => none
  | t :: rest => (ds[t.toNat]?).bind fun d => d rest

/-- Decodes the whole byte string. -/
def all (d : Decoder α) (bytes : List UInt8) : Option α :=
  match d bytes with
  | some (a, []) => some a
  | _ => none

theorem map_eq_some {f : α → β} {d : Decoder α} {bytes rest : List UInt8} {b : β} :
    d.map f bytes = some (b, rest) ↔ ∃ a, d bytes = some (a, rest) ∧ f a = b := by
  simp [map]

theorem take_eq_some {n : ℕ} {bytes front rest : List UInt8} :
    take n bytes = some (front, rest) ↔ front.length = n ∧ bytes = front ++ rest := by
  unfold take
  split_ifs with h
  · rw [Option.some_inj, Prod.mk.injEq]
    constructor
    · rintro ⟨rfl, rfl⟩
      exact ⟨List.length_take_of_le h, (List.take_append_drop n bytes).symm⟩
    · rintro ⟨rfl, rfl⟩
      exact ⟨List.take_left, List.drop_left⟩
  · refine iff_of_false id ?_
    rintro ⟨rfl, rfl⟩
    exact h (by simp)

end Decoder

/-- A type with a binary encoding. -/
class Borsh (α : Type*) where
  /-- The bytes of a value, unless one of its vectors is too long to count. -/
  encode : α → Option (List UInt8)
  /-- Reads a value off the front of a byte string. -/
  decode : Decoder α

/-- A codec that decodes what it encoded and accepts nothing else. -/
class LawfulBorsh (α : Type*) [Borsh α] : Prop where
  decode_encode {a : α} {front : List UInt8} (rest : List UInt8) :
    Borsh.encode a = some front → Borsh.decode (front ++ rest) = some (a, rest)
  encode_decode {a : α} {bytes rest : List UInt8} :
    Borsh.decode bytes = some (a, rest) → ∃ front, Borsh.encode a = some front ∧
      bytes = front ++ rest

namespace Borsh

open QChain

variable {α β : Type*}

/-- `borsh::to_vec`. -/
def toVec [Borsh α] (a : α) : Option (List UInt8) := encode a

/-- `try_from_slice`: a value whose encoding is the whole byte string. -/
def fromSlice [Borsh α] (bytes : List UInt8) : Option α := decode.all bytes

theorem fromSlice_eq_some [Borsh α] {bytes : List UInt8} {a : α} :
    fromSlice bytes = some a ↔ decode bytes = some (a, []) := by
  unfold fromSlice Decoder.all
  split
  · next a' h => simp [h]
  · next h =>
    exact iff_of_false (by simp) (h a)

/-- A value is read back from its own bytes, and from no others. -/
theorem fromSlice_eq_some_iff [Borsh α] [LawfulBorsh α] {bytes : List UInt8} {a : α} :
    fromSlice bytes = some a ↔ toVec a = some bytes := by
  rw [fromSlice_eq_some]
  constructor
  · intro h
    obtain ⟨front, hfront, rfl⟩ := LawfulBorsh.encode_decode h
    rw [List.append_nil]
    exact hfront
  · intro h
    have hdecode := LawfulBorsh.decode_encode [] h
    rwa [List.append_nil] at hdecode

/-! ### Numbers, bytes and texts -/

instance unit : Borsh Unit where
  encode _ := some []
  decode bytes := some ((), bytes)

instance : LawfulBorsh Unit where
  decode_encode rest h := by
    obtain rfl : [] = _ := Option.some_inj.1 h
    rfl
  encode_decode h := by
    obtain ⟨-, rfl⟩ := Prod.mk.inj (Option.some_inj.1 h)
    exact ⟨[], rfl, rfl⟩

instance byte : Borsh UInt8 where
  encode b := some [b]
  decode
    | [] => none
    | b :: rest => some (b, rest)

instance : LawfulBorsh UInt8 where
  decode_encode rest h := by
    obtain rfl := Option.some_inj.1 h
    rfl
  encode_decode {a bytes rest} h := by
    cases bytes with
    | nil => cases h
    | cons b bytes =>
      obtain ⟨rfl, rfl⟩ := Prod.mk.inj (Option.some_inj.1 h)
      exact ⟨[b], rfl, rfl⟩

/-- The codec of an integer of `width` bytes. -/
@[reducible] def ofWidth {bits : ℕ} (width : ℕ) : Borsh (Word bits) where
  encode w := some (toLeBytes width w)
  decode := (Decoder.take width).map fun bytes => Word.ofNat (ofLeBytes bytes)

theorem lawful_ofWidth {bits width : ℕ} (h : 256 ^ width = 2 ^ bits) :
    @LawfulBorsh (Word bits) (ofWidth width) := by
  let : Borsh (Word bits) := ofWidth width
  constructor
  · intro w front rest hfront
    obtain rfl := Option.some_inj.1 hfront
    refine Decoder.map_eq_some.2 ⟨toLeBytes width w, Decoder.take_eq_some.2 ⟨by simp, rfl⟩, ?_⟩
    rw [ofLeBytes_toLeBytes, h, Nat.mod_eq_of_lt w.toNat_lt, Word.ofNat_toNat]
  · intro w bytes rest hdecode
    obtain ⟨front, htake, rfl⟩ := Decoder.map_eq_some.1 hdecode
    obtain ⟨hlen, rfl⟩ := Decoder.take_eq_some.1 htake
    refine ⟨front, ?_, rfl⟩
    have hlt : ofLeBytes front < 2 ^ bits := by
      rw [← h, ← hlen]
      exact ofLeBytes_lt front
    show some (toLeBytes width (Word.ofNat (ofLeBytes front) : Word bits)) = some front
    rw [Word.toNat_ofNat_of_lt hlt, ← hlen, toLeBytes_ofLeBytes]

instance u64 : Borsh (Word 64) := ofWidth 8

instance : LawfulBorsh (Word 64) := lawful_ofWidth rfl

instance u128 : Borsh (Word 128) := ofWidth 16

instance : LawfulBorsh (Word 128) := lawful_ofWidth rfl

/-- Two bytes, little-endian. -/
instance u16 : Borsh UInt16 where
  encode n := some (toLeBytes 2 n.toNat)
  decode := (Decoder.take 2).map fun bytes => UInt16.ofNat (ofLeBytes bytes)

instance : LawfulBorsh UInt16 where
  decode_encode {n front} rest h := by
    obtain rfl := Option.some_inj.1 h
    refine Decoder.map_eq_some.2 ⟨_, Decoder.take_eq_some.2 ⟨length_toLeBytes 2 n.toNat, rfl⟩, ?_⟩
    apply UInt16.toNat_inj.1
    have hn := n.toNat_lt
    rw [ofLeBytes_toLeBytes, UInt16.toNat_ofNat']
    omega
  encode_decode {n bytes rest} h := by
    obtain ⟨front, htake, rfl⟩ := Decoder.map_eq_some.1 h
    obtain ⟨hlen, rfl⟩ := Decoder.take_eq_some.1 htake
    refine ⟨front, ?_, rfl⟩
    have hlt := ofLeBytes_lt front
    have hvalue : (UInt16.ofNat (ofLeBytes front)).toNat = ofLeBytes front := by
      rw [UInt16.toNat_ofNat', Nat.mod_eq_of_lt]
      rwa [hlen] at hlt
    show some (toLeBytes 2 (UInt16.ofNat (ofLeBytes front)).toNat) = some front
    rw [hvalue, ← hlen, toLeBytes_ofLeBytes]

/-- One byte, `0` or `1`. -/
instance bool : Borsh Bool where
  encode b := some [if b then 1 else 0]
  decode
    | [] => none
    | t :: rest => if t = 0 then some (false, rest) else if t = 1 then some (true, rest) else none

instance : LawfulBorsh Bool where
  decode_encode {b front} rest h := by
    obtain rfl := Option.some_inj.1 h
    cases b <;> rfl
  encode_decode {b bytes rest} h := by
    cases bytes with
    | nil => cases h
    | cons t bytes =>
      change (if t = 0 then some (false, bytes) else if t = 1 then some (true, bytes) else none) =
        some (b, rest) at h
      split_ifs at h with h0 h1
      · obtain ⟨rfl, rfl⟩ := Prod.mk.inj (Option.some_inj.1 h)
        exact ⟨[0], rfl, by rw [h0]; rfl⟩
      · obtain ⟨rfl, rfl⟩ := Prod.mk.inj (Option.some_inj.1 h)
        exact ⟨[1], rfl, by rw [h1]; rfl⟩

/-! ### Records -/

instance prod [Borsh α] [Borsh β] : Borsh (α × β) where
  encode p := do
    let front ← encode p.1
    let back ← encode p.2
    some (front ++ back)
  decode := decode.pair decode

instance [Borsh α] [Borsh β] [LawfulBorsh α] [LawfulBorsh β] : LawfulBorsh (α × β) where
  decode_encode {p bytes} rest h := by
    obtain ⟨front, hfront, h⟩ := Option.bind_eq_some_iff.1 h
    obtain ⟨back, hback, h⟩ := Option.bind_eq_some_iff.1 h
    obtain rfl := Option.some_inj.1 h
    have hfst : decode (front ++ (back ++ rest)) = some (p.1, back ++ rest) :=
      LawfulBorsh.decode_encode _ hfront
    have hsnd : decode (back ++ rest) = some (p.2, rest) := LawfulBorsh.decode_encode _ hback
    show Decoder.pair decode decode (front ++ back ++ rest) = some (p, rest)
    rw [List.append_assoc, Decoder.pair, hfst]
    simp only [hsnd, Option.map_some]
  encode_decode {p bytes rest} h := by
    change Decoder.pair decode decode bytes = some (p, rest) at h
    unfold Decoder.pair at h
    split at h
    · cases h
    · next a mid hfst =>
      obtain ⟨⟨b, rest'⟩, hsnd, heq⟩ := Option.map_eq_some_iff.1 h
      obtain ⟨rfl, rfl⟩ := Prod.mk.inj heq
      obtain ⟨front, hfront, rfl⟩ := LawfulBorsh.encode_decode hfst
      obtain ⟨back, hback, rfl⟩ := LawfulBorsh.encode_decode hsnd
      refine ⟨front ++ back, ?_, (List.append_assoc ..).symm⟩
      show (do let front ← encode a; let back ← encode b; some (front ++ back)) = _
      simp [hfront, hback]

/-- The codec of a type through a codec of another one: a record through its fields. -/
@[reducible] def iso [Borsh β] (toFields : α → β) (ofFields : β → α) : Borsh α where
  encode a := encode (toFields a)
  decode := decode.map ofFields

theorem lawful_iso [Borsh β] [LawfulBorsh β] {toFields : α → β} {ofFields : β → α}
    (hleft : ∀ a, ofFields (toFields a) = a := by intro; rfl)
    (hright : ∀ b, toFields (ofFields b) = b := by intro; rfl) :
    @LawfulBorsh α (iso toFields ofFields) := by
  let := iso toFields ofFields
  constructor
  · intro a front rest h
    exact Decoder.map_eq_some.2 ⟨toFields a, LawfulBorsh.decode_encode rest h, hleft a⟩
  · intro a bytes rest h
    obtain ⟨b, hdecode, rfl⟩ := Decoder.map_eq_some.1 h
    obtain ⟨front, hfront, rfl⟩ := LawfulBorsh.encode_decode hdecode
    refine ⟨front, ?_, rfl⟩
    show encode (toFields (ofFields b)) = some front
    rw [hright, hfront]

/-! ### Vectors -/

/-- The bytes of a list of values, one after the other. -/
def encodeAll [Borsh α] : List α → Option (List UInt8)
  | [] => some []
  | a :: as => do
    let front ← encode a
    let back ← encodeAll as
    some (front ++ back)

/-- A vector: its length in four bytes, then its elements. -/
instance list [Borsh α] : Borsh (List α) where
  encode as :=
    if as.length < 2 ^ 32 then (encodeAll as).map (toLeBytes 4 as.length ++ ·) else none
  decode bytes :=
    match Decoder.take 4 bytes with
    | none => none
    | some (count, rest) => Decoder.many decode (ofLeBytes count) rest

theorem many_encodeAll [Borsh α] [LawfulBorsh α] {as : List α} {front : List UInt8}
    (rest : List UInt8) (h : encodeAll as = some front) :
    Decoder.many decode as.length (front ++ rest) = some (as, rest) := by
  induction as generalizing front with
  | nil =>
    obtain rfl := Option.some_inj.1 h
    rfl
  | cons a as ih =>
    obtain ⟨first, hfirst, h⟩ := Option.bind_eq_some_iff.1 h
    obtain ⟨back, hback, h⟩ := Option.bind_eq_some_iff.1 h
    obtain rfl := Option.some_inj.1 h
    have hdecode : decode (first ++ (back ++ rest)) = some (a, back ++ rest) :=
      LawfulBorsh.decode_encode _ hfirst
    rw [List.append_assoc, List.length_cons, Decoder.many]
    simp only [hdecode, ih hback, Option.map_some]

theorem encodeAll_of_many [Borsh α] [LawfulBorsh α] {n : ℕ} {as : List α}
    {bytes rest : List UInt8} (h : Decoder.many decode n bytes = some (as, rest)) :
    as.length = n ∧ ∃ front, encodeAll as = some front ∧ bytes = front ++ rest := by
  induction n generalizing as bytes with
  | zero =>
    obtain ⟨rfl, rfl⟩ := Prod.mk.inj (Option.some_inj.1 h)
    exact ⟨rfl, [], rfl, rfl⟩
  | succ n ih =>
    simp only [Decoder.many] at h
    split at h
    · cases h
    · next a mid hfirst =>
      obtain ⟨⟨as', rest'⟩, hmany, heq⟩ := Option.map_eq_some_iff.1 h
      obtain ⟨rfl, rfl⟩ := Prod.mk.inj heq
      obtain ⟨front, hfront, rfl⟩ := LawfulBorsh.encode_decode hfirst
      obtain ⟨hlen, back, hback, rfl⟩ := ih hmany
      refine ⟨by rw [List.length_cons, hlen], front ++ back, ?_, (List.append_assoc ..).symm⟩
      simp [encodeAll, hfront, hback]

instance [Borsh α] [LawfulBorsh α] : LawfulBorsh (List α) where
  decode_encode {as bytes} rest h := by
    change (if as.length < 2 ^ 32 then _ else none) = some bytes at h
    split_ifs at h with hlen
    obtain ⟨front, hfront, rfl⟩ := Option.map_eq_some_iff.1 h
    have htake : Decoder.take 4 (toLeBytes 4 as.length ++ (front ++ rest)) =
        some (toLeBytes 4 as.length, front ++ rest) :=
      Decoder.take_eq_some.2 ⟨length_toLeBytes 4 _, rfl⟩
    have hcount : ofLeBytes (toLeBytes 4 as.length) = as.length := by
      rw [ofLeBytes_toLeBytes]
      exact Nat.mod_eq_of_lt hlen
    show (match Decoder.take 4 (toLeBytes 4 as.length ++ front ++ rest) with
      | none => none
      | some (count, rest) => Decoder.many decode (ofLeBytes count) rest) = some (as, rest)
    rw [List.append_assoc, htake]
    show Decoder.many decode (ofLeBytes (toLeBytes 4 as.length)) (front ++ rest) = _
    rw [hcount]
    exact many_encodeAll rest hfront
  encode_decode {as bytes rest} h := by
    change (match Decoder.take 4 bytes with
      | none => none
      | some (count, rest) => Decoder.many decode (ofLeBytes count) rest) = some (as, rest) at h
    split at h
    · cases h
    · next count rest' htake =>
      obtain ⟨hcount, rfl⟩ := Decoder.take_eq_some.1 htake
      obtain ⟨hlen, front, hfront, rfl⟩ := encodeAll_of_many h
      have hlt : as.length < 2 ^ 32 := by
        have hbound := ofLeBytes_lt count
        rwa [hcount, ← hlen] at hbound
      refine ⟨count ++ front, ?_, (List.append_assoc ..).symm⟩
      show (if as.length < 2 ^ 32 then _ else none) = some (count ++ front)
      rw [if_pos hlt, hfront, Option.map_some, hlen, ← hcount, toLeBytes_ofLeBytes]

/-! ### Texts -/

/-- The text with the given bytes. -/
def ofUtf8 (content : List UInt8) : Option Utf8 :=
  if h : validUtf8 content = true then some ⟨content, h⟩ else none

theorem ofUtf8_eq_some {content : List UInt8} {t : Utf8} :
    ofUtf8 content = some t ↔ t.bytes = content := by
  unfold ofUtf8
  split_ifs with h
  · rw [Option.some_inj]
    constructor
    · rintro rfl
      rfl
    · rintro rfl
      rfl
  · refine iff_of_false (by simp) ?_
    rintro rfl
    exact h t.valid

/-- A text: its bytes as a vector, which have to be valid UTF-8. -/
instance text : Borsh Utf8 where
  encode t := encode t.bytes
  decode bytes :=
    (decode bytes : Option (List UInt8 × List UInt8)).bind fun (content, rest) =>
      (ofUtf8 content).map fun t => (t, rest)

instance : LawfulBorsh Utf8 where
  decode_encode {t front} rest h := by
    refine Option.bind_eq_some_iff.2 ⟨(t.bytes, rest), LawfulBorsh.decode_encode rest h, ?_⟩
    exact Option.map_eq_some_iff.2 ⟨t, ofUtf8_eq_some.2 rfl, rfl⟩
  encode_decode {t bytes rest} h := by
    obtain ⟨⟨content, rest'⟩, hcontent, h⟩ := Option.bind_eq_some_iff.1 h
    obtain ⟨t', ht, heq⟩ := Option.map_eq_some_iff.1 h
    obtain ⟨rfl, rfl⟩ := Prod.mk.inj heq
    obtain rfl := ofUtf8_eq_some.1 ht
    obtain ⟨front, hfront, rfl⟩ := LawfulBorsh.encode_decode hcontent
    exact ⟨front, hfront, rfl⟩

/-! ### Enumerations -/

/-- An enumeration: a tag, then the payload of the variant. -/
@[reducible] def tagged (tag : α → UInt8) (payload : α → Option (List UInt8))
    (variant : UInt8 → Decoder α) : Borsh α where
  encode a := (payload a).map (tag a :: ·)
  decode
    | [] => none
    | t :: rest => variant t rest

/-- The codec of an enumeration is lawful if each variant's is. -/
theorem lawful_tagged {tag : α → UInt8} {payload : α → Option (List UInt8)}
    {variant : UInt8 → Decoder α}
    (hencode : ∀ a front rest, payload a = some front →
      variant (tag a) (front ++ rest) = some (a, rest))
    (hdecode : ∀ t a bytes rest, variant t bytes = some (a, rest) →
      tag a = t ∧ ∃ front, payload a = some front ∧ bytes = front ++ rest) :
    @LawfulBorsh α (tagged tag payload variant) := by
  let := tagged tag payload variant
  constructor
  · intro a bytes rest h
    obtain ⟨front, hfront, rfl⟩ := Option.map_eq_some_iff.1 h
    exact hencode a front rest hfront
  · intro a bytes rest h
    cases bytes with
    | nil => cases h
    | cons t bytes =>
      obtain ⟨htag, front, hfront, rfl⟩ := hdecode t a bytes rest h
      refine ⟨t :: front, ?_, rfl⟩
      show (payload a).map (tag a :: ·) = some (t :: front)
      rw [hfront, htag, Option.map_some]

/-- An enumeration without payloads, from the list of its values in the order of their tags. -/
@[reducible] def ofTags (tag : α → UInt8) (values : List α) : Borsh α :=
  tagged tag (fun _ => some []) fun t bytes => (values[t.toNat]?).map fun a => (a, bytes)

theorem lawful_ofTags {tag : α → UInt8} {values : List α}
    (htag : ∀ a, values[(tag a).toNat]? = some a)
    (hvalues : values.map (fun a => (tag a).toNat) = List.range values.length) :
    @LawfulBorsh α (ofTags tag values) := by
  apply lawful_tagged
  · intro a front rest h
    obtain rfl := Option.some_inj.1 h
    show (values[(tag a).toNat]?).map (fun a => (a, rest)) = some (a, rest)
    rw [htag a, Option.map_some]
  · intro t a bytes rest h
    obtain ⟨b, hb, heq⟩ := Option.map_eq_some_iff.1 h
    obtain ⟨rfl, rfl⟩ := Prod.mk.inj heq
    obtain ⟨hlt, -⟩ := List.getElem?_eq_some_iff.1 hb
    have hrange := congrArg (·[t.toNat]?) hvalues
    simp only [List.getElem?_map, hb, List.getElem?_range hlt] at hrange
    exact ⟨UInt8.toNat_inj.1 (Option.some_inj.1 hrange), [], rfl, rfl⟩

/-- An option: the tag `0`, or the tag `1` and the value. -/
instance option [Borsh α] : Borsh (Option α) :=
  tagged (fun o => if o.isSome then 1 else 0)
    (fun o => match o with | none => some [] | some a => encode a)
    (fun t => if t = 0 then fun bytes => some (none, bytes)
      else if t = 1 then decode.map some else fun _ => none)

instance [Borsh α] [LawfulBorsh α] : LawfulBorsh (Option α) := by
  apply lawful_tagged
  · intro o front rest h
    cases o with
    | none =>
      obtain rfl := Option.some_inj.1 h
      rfl
    | some a => exact Decoder.map_eq_some.2 ⟨a, LawfulBorsh.decode_encode rest h, rfl⟩
  · intro t o bytes rest h
    split_ifs at h with h0 h1
    · obtain ⟨rfl, rfl⟩ := Prod.mk.inj (Option.some_inj.1 h)
      exact ⟨h0.symm, [], rfl, rfl⟩
    · obtain ⟨a, hdecode, rfl⟩ := Decoder.map_eq_some.1 h
      exact ⟨h1.symm, LawfulBorsh.encode_decode hdecode⟩

end Borsh
