import Mathlib
import QChain.Core.Crypto

/-!
# Addresses as text

Addresses are shown and entered in base 58 (`bs58`, `Pubkey::from_str`): the bytes are one
number written with 58 digits, and every zero byte in front is written as the digit one.
-/

namespace QChain

/-- The digits of base 58. -/
def base58Alphabet : List UInt8 :=
  asciiBytes "123456789ABCDEFGHJKLMNPQRSTUVWXYZabcdefghijkmnopqrstuvwxyz"

/-- `bs58::encode` of an address. -/
def base58 (k : Pubkey) : String :=
  let zeros := (k.toBytes.takeWhile fun b => b = 0).length
  let digits := (Nat.digits 58 k.val).reverse.map fun d => base58Alphabet.getD d 0
  String.ofList ((List.replicate zeros (base58Alphabet.getD 0 0) ++ digits).map
    fun b => Char.ofNat b.toNat)

/-- `Pubkey::from_str`: texts of base-58 digits for exactly 32 bytes. -/
def parseAddress (text : List UInt8) : Option Pubkey :=
  if ∀ b ∈ text, b ∈ base58Alphabet then
    let digits := text.map fun b => base58Alphabet.idxOf b
    let zeros := (digits.takeWhile fun d => d = 0).length
    let n := Nat.ofDigits 58 digits.reverse
    if zeros + (Nat.digits 256 n).length = 32 then some (Fin.ofNat (2 ^ 256) n) else none
  else
    none

end QChain
