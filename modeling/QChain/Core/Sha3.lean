import QChain.Core.Crypto

/-!
# SHA3-256

The hash of the samples in this development, as FIPS 202 defines it. The state is one number of
1600 bits: a lane is 64 of them, a plane is five lanes, and the lane in column `x` of plane `y` is
the one from bit `64 * (5 * y + x)` on.
-/

namespace QChain

namespace Sha3

/-- The lowest bit of every lane of a plane. -/
def lanes : ℕ := 1 + 2 ^ 64 + 2 ^ 128 + 2 ^ 192 + 2 ^ 256

/-- The lowest bit of every plane. -/
def planes : ℕ := 1 + 2 ^ 320 + 2 ^ 640 + 2 ^ 960 + 2 ^ 1280

variable (s : ℕ)

/-- Every bit takes up the parities of the column to its left and of the one to its right, the
latter rotated by one. -/
def theta : ℕ :=
  let parity := ((s.xor (s.shiftRight 320)).xor ((s.shiftRight 640).xor
    ((s.shiftRight 960).xor (s.shiftRight 1280)))).mod (2 ^ 320)
  -- twice in a row, so that a shift goes around
  let around := parity.mul (2 ^ 320 + 1)
  let left := (around.shiftRight 256).mod (2 ^ 320)
  let right := (around.shiftRight 64).mod (2 ^ 320)
  let rotated := ((right.land (lanes * (2 ^ 63 - 1))).shiftLeft 1).lor
    ((right.shiftRight 63).land lanes)
  s.xor ((left.xor rotated).mul planes)

/-- The lane from bit `start` on, rotated to the right by `n`, below the lanes of `above`. -/
def put (start n above : ℕ) : ℕ :=
  (((((s.shiftRight start).mod (2 ^ 64)).mul (2 ^ 64 + 1)).shiftRight n).mod (2 ^ 64)).add
    (above.mul (2 ^ 64))

/-- The lanes are rotated and change places. -/
def rhoPi : ℕ :=
  put s 0 64 <| put s 384 20 <| put s 768 21 <| put s 1152 43 <| put s 1536 50 <|
  put s 192 36 <| put s 576 44 <| put s 640 61 <| put s 1024 19 <| put s 1408 3 <|
  put s 64 63 <| put s 448 58 <| put s 832 39 <| put s 1216 56 <| put s 1280 46 <|
  put s 256 37 <| put s 320 28 <| put s 704 54 <| put s 1088 49 <| put s 1472 8 <|
  put s 128 2 <| put s 512 9 <| put s 896 25 <| put s 960 23 <| put s 1344 62 0

/-- The lane to the right, at every place. -/
def next : ℕ :=
  ((s.shiftRight 64).land (planes.mul (2 ^ 256 - 1))).lor
    ((s.land (planes.mul (2 ^ 64 - 1))).shiftLeft 256)

/-- Every bit is flipped where the next one is clear and the one after it is set. -/
def chi : ℕ :=
  let s₁ := next s
  s.xor (((2 ^ 1600 - 1).xor s₁).land (next s₁))

/-- What each of the 24 rounds adds to the first lane. -/
def roundConstants : List ℕ :=
  [0x1, 0x8082, 0x800000000000808a, 0x8000000080008000, 0x808b, 0x80000001, 0x8000000080008081,
   0x8000000000008009, 0x8a, 0x88, 0x80008009, 0x8000000a, 0x8000808b, 0x800000000000008b,
   0x8000000000008089, 0x8000000000008003, 0x8000000000008002, 0x8000000000000080, 0x800a,
   0x800000008000000a, 0x8000000080008081, 0x8000000000008080, 0x80000001, 0x8000000080008008]

/-- The permutation. -/
def keccakF : ℕ :=
  roundConstants.foldl (fun s constant => (chi (rhoPi (theta s))).xor constant) s

/-- The sponge on a message of `length` bytes, given as a number: the blocks are of 136 bytes, the
bits of the domain follow the message, and a last bit fills the last block. -/
def sponge (message length : ℕ) : ℕ :=
  let blocks := length / 136 + 1
  let padded := (message.add (Nat.shiftLeft 6 (8 * length))).add (Nat.pow 2 (1088 * blocks - 1))
  (List.range blocks).foldl
    (fun s i => keccakF (s.xor ((padded.shiftRight (1088 * i)).mod (2 ^ 1088)))) 0

end Sha3

/-- SHA3-256: the first 32 bytes of the sponge. -/
@[irreducible] def sha3 (bytes : List UInt8) : Bytes32 :=
  Fin.ofNat (2 ^ 256) <| ofLeBytes
    (toLeBytes 32 (Sha3.sponge (ofLeBytes bytes) bytes.length)).reverse

example : sha3 [] = 0xa7ffc6f8bf1ed76651c14756a061d662f580ff4de43b49fa82d80a4b80f8434a := by
  decide +kernel

-- a message of two blocks
example : sha3 (List.replicate 200 0xa3) =
    0x79f38adec5c20307a98ef76e8324afbfd46cfd81b22e3973c65fa1bd9de31787 := by
  decide +kernel

/-- SHA3-256, with all signatures accepted. -/
@[reducible] def sha3Crypto : Crypto where
  sha3 := sha3
  verifyEd25519Component _ _ _ := true
  verifyMlDsa65Component _ _ _ := true
  verifySlhDsaComponent _ _ _ := true

/-! ### Telling digests apart -/

/-- Whether numbers differ in their lowest `n` bits. -/
def distinct : ℕ → List ℕ → Bool
  | 0, ns => ns.length ≤ 1
  | n + 1, ns => ns.length ≤ 1 ||
    (distinct n (ns.filter (·.testBit n)) && distinct n (ns.filter (!·.testBit n)))

theorem nodup_of_distinct {n : ℕ} {ns : List ℕ} (h : distinct n ns = true) : ns.Nodup := by
  have hshort : ∀ {ns : List ℕ}, ns.length ≤ 1 → ns.Nodup := fun h =>
    List.nodup_iff_count_le_one.2 fun a => List.count_le_length.trans h
  induction n generalizing ns with
  | zero => exact hshort (decide_eq_true_iff.1 h)
  | succ n ih =>
    rw [distinct, Bool.or_eq_true, Bool.and_eq_true, decide_eq_true_iff] at h
    obtain h | ⟨hset, hclear⟩ := h
    · exact hshort h
    · refine (List.filter_append_perm (·.testBit n) ns).nodup_iff.1
        ((ih hset).append (ih hclear) ?_)
      intro a ha ha'
      have hbit := (List.mem_filter.1 ha').2
      rw [(List.mem_filter.1 ha).2] at hbit
      cases hbit

/-- The bytes of a digest as the sponge gives them, the first one lowest. -/
def Bytes32.toLe (b : Bytes32) : ℕ := ofLeBytes b.toBytes

/-- A hash does not collide on inputs whose digests are found to differ. -/
theorem injOn_of_distinct {inputs : List (List UInt8)}
    (h : distinct 256 (inputs.map fun x => (sha3 x).toLe) = true) :
    Set.InjOn sha3 {x | x ∈ inputs} := by
  intro x hx y hy heq
  exact List.inj_on_of_nodup_map (nodup_of_distinct h) hx hy (congrArg Bytes32.toLe heq)

theorem injOn_or {l l' : List (List UInt8)}
    (h : ∀ x ∈ l ++ l', ∀ y ∈ l ++ l', sha3 x = sha3 y → x = y) :
    Set.InjOn sha3 {x | x ∈ l ∨ x ∈ l'} :=
  fun x hx y hy => h x (List.mem_append.2 hx) y (List.mem_append.2 hy)

end QChain
