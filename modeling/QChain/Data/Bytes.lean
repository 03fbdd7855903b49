import Mathlib

/-!
# Byte strings

Fixed-width little-endian encodings of natural numbers as lists of bytes. Writing keeps the
low bytes of a number, reading is exact, and the two are inverse on numbers that fit.
-/

namespace QChain

/-- `to_le_bytes` of an integer of the given width in bytes. -/
def toLeBytes : ℕ → ℕ → List UInt8
  | 0, _ => []
  | width + 1, value => UInt8.ofNat value :: toLeBytes width (value / 256)

variable (bytes : List UInt8)

/-- `from_le_bytes`. -/
def ofLeBytes : ℕ :=
  bytes.foldr (fun byte acc => byte.toNat + 256 * acc) 0

@[simp] theorem ofLeBytes_cons (byte : UInt8) (bytes : List UInt8) :
    ofLeBytes (byte :: bytes) = byte.toNat + 256 * ofLeBytes bytes := rfl

theorem ofLeBytes_append (as bs : List UInt8) :
    ofLeBytes (as ++ bs) = ofLeBytes as + ofLeBytes bs * 256 ^ as.length := by
  induction as with
  | nil => simp [ofLeBytes]
  | cons a as ih =>
    rw [List.cons_append, ofLeBytes_cons, ih, ofLeBytes_cons, List.length_cons, pow_succ]
    ring

@[simp] theorem length_toLeBytes (width value : ℕ) : (toLeBytes width value).length = width := by
  induction width generalizing value with
  | zero => rfl
  | succ width ih => simp [toLeBytes, ih]

theorem ofLeBytes_toLeBytes (width value : ℕ) :
    ofLeBytes (toLeBytes width value) = value % 256 ^ width := by
  induction width generalizing value with
  | zero => simp [toLeBytes, ofLeBytes, Nat.mod_one]
  | succ width ih =>
    have hcons : ofLeBytes (toLeBytes (width + 1) value) =
        value % 256 + 256 * ofLeBytes (toLeBytes width (value / 256)) := by
      simp [toLeBytes, ofLeBytes]
    rw [hcons, ih, pow_succ', Nat.mod_mul]

/-- Numbers that fit are told apart by their bytes. -/
theorem toLeBytes_inj {width a b : ℕ} (ha : a < 256 ^ width) (hb : b < 256 ^ width)
    (h : toLeBytes width a = toLeBytes width b) : a = b := by
  have hmod := congrArg ofLeBytes h
  rwa [ofLeBytes_toLeBytes, ofLeBytes_toLeBytes, Nat.mod_eq_of_lt ha, Nat.mod_eq_of_lt hb] at hmod

/-- Blocks of one length in a row are told apart, as is what follows them. -/
theorem flatMap_append_inj {α : Type*} {f : α → List UInt8} (hf : Function.Injective f) {n : ℕ}
    (hn : ∀ a, (f a).length = n) {as bs : List α} {r s : List UInt8}
    (hlen : as.length = bs.length) (h : as.flatMap f ++ r = bs.flatMap f ++ s) :
    as = bs ∧ r = s := by
  induction as generalizing bs with
  | nil =>
    obtain rfl := List.length_eq_zero_iff.1 hlen.symm
    exact ⟨rfl, h⟩
  | cons a as ih =>
    cases bs with
    | nil => cases hlen
    | cons b bs =>
      simp only [List.flatMap_cons, List.append_assoc] at h
      obtain ⟨hab, hrest⟩ := List.append_inj h (by rw [hn, hn])
      obtain ⟨rfl, hrs⟩ := ih (Nat.succ.inj hlen) hrest
      exact ⟨by rw [hf hab], hrs⟩

theorem ofLeBytes_lt : ofLeBytes bytes < 256 ^ bytes.length := by
  induction bytes with
  | nil => simp [ofLeBytes]
  | cons byte bytes ih =>
    have hbyte := byte.toNat_lt
    rw [ofLeBytes_cons, List.length_cons, pow_succ']
    omega

/-- Reading a byte string and writing it at the same width gives it back. -/
theorem toLeBytes_ofLeBytes :
    toLeBytes bytes.length (ofLeBytes bytes) = bytes := by
  induction bytes with
  | nil => rfl
  | cons byte bytes ih =>
    have hbyte := byte.toNat_lt
    have hdiv : (byte.toNat + 256 * ofLeBytes bytes) / 256 = ofLeBytes bytes := by omega
    have hmod : UInt8.ofNat (byte.toNat + 256 * ofLeBytes bytes) = byte := by
      apply UInt8.toNat_inj.1
      rw [UInt8.toNat_ofNat']
      omega
    rw [ofLeBytes_cons, List.length_cons, toLeBytes, hdiv, hmod, ih]

/-! ### Texts -/

/-- A byte between two bounds. -/
def byteIn (low high b : UInt8) : Bool := low ≤ b && b ≤ high

/-- The byte string is valid UTF-8: `str::from_utf8` succeeds. -/
def validUtf8 : List UInt8 → Bool
  | [] => true
  | b :: rest =>
    if b < 0x80 then validUtf8 rest
    else match rest with
      | [] => false
      | c :: rest =>
        if byteIn 0xC2 0xDF b then byteIn 0x80 0xBF c && validUtf8 rest
        else match rest with
          | [] => false
          | d :: rest =>
            if byteIn 0xE0 0xEF b then
              -- no overlong forms after `E0`, no surrogates after `ED`
              byteIn (if b = 0xE0 then 0xA0 else 0x80) (if b = 0xED then 0x9F else 0xBF) c &&
                byteIn 0x80 0xBF d && validUtf8 rest
            else match rest with
              | [] => false
              | e :: rest =>
                -- no overlong forms after `F0`, nothing above U+10FFFF after `F4`
                byteIn 0xF0 0xF4 b &&
                  byteIn (if b = 0xF0 then 0x90 else 0x80) (if b = 0xF4 then 0x8F else 0xBF) c &&
                  byteIn 0x80 0xBF d && byteIn 0x80 0xBF e && validUtf8 rest

/-- A `String` of the source: bytes that are valid UTF-8. -/
structure Utf8 where
  bytes : List UInt8
  valid : validUtf8 bytes = true
  deriving DecidableEq

end QChain
