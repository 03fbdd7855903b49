import Mathlib

/-!
# Machine integers

`Word bits` is an unsigned integer of a fixed number of bits. Arithmetic is written on the
natural numbers the words stand for, and the way back says what the source does on
overflow: `checked` fails, `clamp` saturates, `ofNat` keeps the low bits.
-/

/-- An unsigned machine integer of the given number of bits. -/
@[ext]
structure Word (bits : ℕ) where
  /-- The number a word stands for. -/
  toNat : ℕ
  toNat_lt : toNat < 2 ^ bits
  deriving DecidableEq

namespace Word

variable {bits : ℕ}

attribute [coe] Word.toNat

instance : CoeOut (Word bits) ℕ := ⟨toNat⟩

theorem toNat_injective : Function.Injective (toNat : Word bits → ℕ) := fun _ _ => Word.ext

variable {a b : Word bits}

theorem toNat_inj : (a : ℕ) = b ↔ a = b := toNat_injective.eq_iff

instance : LinearOrder (Word bits) := LinearOrder.lift' toNat toNat_injective

theorem le_iff : a ≤ b ↔ (a : ℕ) ≤ b := Iff.rfl

theorem lt_iff : a < b ↔ (a : ℕ) < b := Iff.rfl

variable (n : ℕ)

/-- The low bits of a number, `as` in the source. -/
def ofNat : Word bits := ⟨n % 2 ^ bits, Nat.mod_lt n (Nat.two_pow_pos bits)⟩

instance (n : ℕ) : OfNat (Word bits) n := ⟨ofNat n⟩

instance : Inhabited (Word bits) := ⟨0⟩

instance : ToString (Word bits) := ⟨fun w => toString w.toNat⟩

/-- The number if it fits, the result of the `checked_*` operations. -/
def checked : Option (Word bits) :=
  if h : n < 2 ^ bits then some ⟨n, h⟩ else none

/-- The nearest word, the result of the `saturating_*` operations. -/
def clamp : Word bits :=
  ⟨min n (2 ^ bits - 1), by have := Nat.two_pow_pos bits; omega⟩

theorem toNat_ofNat_of_lt {n : ℕ} (h : n < 2 ^ bits) : ((ofNat n : Word bits) : ℕ) = n :=
  Nat.mod_eq_of_lt h

@[simp] theorem ofNat_toNat (w : Word bits) : ofNat (w : ℕ) = w :=
  toNat_injective (toNat_ofNat_of_lt w.toNat_lt)

@[simp] theorem toNat_zero : ((0 : Word bits) : ℕ) = 0 := Nat.zero_mod _

@[simp] theorem toNat_clamp : ((clamp n : Word bits) : ℕ) = min n (2 ^ bits - 1) := rfl

theorem toNat_clamp_of_lt {n : ℕ} (h : n < 2 ^ bits) : ((clamp n : Word bits) : ℕ) = n := by
  rw [toNat_clamp]
  omega

theorem toNat_clamp_le : ((clamp n : Word bits) : ℕ) ≤ n := min_le_left _ _

@[simp] theorem checked_eq_some {n : ℕ} {w : Word bits} : checked n = some w ↔ (w : ℕ) = n := by
  unfold checked
  split_ifs with h
  · rw [Option.some_inj, ← toNat_inj, eq_comm]
  · refine iff_of_false id fun heq => h ?_
    rw [← heq]
    exact w.toNat_lt

end Word
