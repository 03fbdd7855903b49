import QChain.Storage.StateTree

/-!
# State-bound batch proofs

`verify_batch_bound_to_state` of `qchain-stark/src/lib.rs`. The cells of a STARK over a batch of
transfers are public, and each row is tied to accounts of the legacy state tree before and after it.
The verifier of the proof system is a parameter and nothing is assumed of it: what is accepted is
true of the states behind the roots because the cells are checked again outside the circuit.
-/

namespace QChain

open List StateTree

namespace Stark

/-! ### Checks that fail with an error -/

section Except

variable {ε α β : Type}

/-- Fails unless the condition holds. -/
def ensure (c : Prop) [Decidable c] (e : ε) : Except ε Unit := if c then .ok () else .error e

theorem ensure_eq_ok {c : Prop} [Decidable c] {e : ε} {u : Unit} : ensure c e = .ok u ↔ c := by
  unfold ensure
  split_ifs with hc <;> simp [hc]

theorem bind_eq_ok {m : Except ε α} {f : α → Except ε β} {b : β} :
    (m >>= f) = .ok b ↔ ∃ a, m = .ok a ∧ f a = .ok b := by
  cases m <;> simp [bind, Except.bind]

theorem mapError_eq_ok {δ : Type} {m : Except ε α} {f : ε → δ} {a : α} :
    m.mapError f = .ok a ↔ m = .ok a := by
  cases m <;> simp [Except.mapError]

theorem forM_eq_ok {l : List α} {f : α → Except ε Unit} {u : Unit} :
    l.forM f = .ok u ↔ ∀ a ∈ l, f a = .ok () := by
  induction l with
  | nil => exact iff_of_true rfl nofun
  | cons a l ih =>
    rw [List.forM, bind_eq_ok, forall_mem_cons]
    exact ⟨fun ⟨_, ha, hl⟩ => ⟨ha, ih.1 hl⟩, fun ⟨ha, hl⟩ => ⟨(), ha, ih.2 hl⟩⟩

end Except

/-! ### The cells -/

/-- The modulus of `f128::BaseElement`. -/
def fieldModulus : ℕ := 2 ^ 128 - 45 * 2 ^ 40 + 1

instance : NeZero fieldModulus := ⟨by decide⟩

/-- `BaseElement`. Its value as a number is `as_int`. -/
abbrev BaseElement := Fin fieldModulus

def colFromBefore : Fin 14 := 0

def colToBefore : Fin 14 := 1

def colAmount : Fin 14 := 2

def colFee : Fin 14 := 3

def colFromAfter : Fin 14 := 4

def colToAfter : Fin 14 := 5

def colFromAddress : Fin 14 := 6

def colToAddress : Fin 14 := 10

/-- `PublicInputs`, with `TRACE_WIDTH` columns. -/
structure PublicInputs where
  columns : Fin 14 → List BaseElement

/-- `limbs_to_address`: four big-endian limbs. -/
def limbsToAddress (limbs : Fin 4 → U64) : Pubkey :=
  Fin.ofNat (2 ^ 256) (((limbs 0 * 2 ^ 64 + limbs 1) * 2 ^ 64 + limbs 2) * 2 ^ 64 + limbs 3)

namespace PublicInputs

variable (p : PublicInputs)

/-- A cell of a row. The columns have one length, so the default is never read. -/
def cell (column : Fin 14) (row : ℕ) : BaseElement := (p.columns column).getD row 0

/-- A cell, `as u64`. -/
def word (column : Fin 14) (row : ℕ) : U64 := Word.ofNat (p.cell column row)

def fromAddress (row : ℕ) : Pubkey :=
  limbsToAddress fun i => p.word (colFromAddress + i.castLE (by decide)) row

def toAddress (row : ℕ) : Pubkey :=
  limbsToAddress fun i => p.word (colToAddress + i.castLE (by decide)) row

end PublicInputs

/-- `VerifyError`. -/
inductive VerifyError
  | stark
  | valueOutOfU64Range (column step : ℕ)
  | malformed
  | conservationViolated (row : ℕ)

/-- `StateBindingError`. -/
inductive StateBindingError
  | stark (error : VerifyError)
  | tooManyBindings (max got : ℕ)
  | rootSequenceMismatch (row : ℕ)
  | balanceMismatch (row : ℕ) (field : String)
  | addressMismatch (row : ℕ) (field : String)
  | merkleProofFailed (row : ℕ) (field : String)
  | exclusionProofClaimsNonzeroBalance (row : ℕ) (field : String)

/-- `RowStateBinding`. -/
structure RowStateBinding where
  rootBefore : Bytes32
  rootAfter : Bytes32
  fromBefore : Account
  fromAfter : Account
  toBefore : Account
  toAfter : Account
  fromProofBefore : MerkleProof
  fromProofAfter : MerkleProof
  toProofBefore : MerkleProof
  toProofAfter : MerkleProof

/-- What is checked of a row's accounts, in the order of the source. -/
def RowStateBinding.checks (b : RowStateBinding) :
    List (Account × MerkleProof × Bytes32 × String) :=
  [(b.fromBefore, b.fromProofBefore, b.rootBefore, "from_before"),
    (b.fromAfter, b.fromProofAfter, b.rootAfter, "from_after"),
    (b.toBefore, b.toProofBefore, b.rootBefore, "to_before"),
    (b.toAfter, b.toProofAfter, b.rootAfter, "to_after")]

section Verify

variable {Proof : Type} (verify : Proof → PublicInputs → Option Bool) (proof : Proof)
  (p : PublicInputs)

/-- `verify_batch`. The verifier of the proof system panics, refuses or accepts. -/
def verifyBatch : Except VerifyError Unit := do
  let rows := (p.columns colFromBefore).length
  ensure (∀ column, (p.columns column).length = rows) .malformed
  ensure (verify proof p ≠ none) .malformed
  ensure (verify proof p = some true) .stark
  (List.finRange 14).forM fun column => (p.columns column).zipIdx.forM fun (value, step) =>
    ensure (value.val ≤ u64Max) (.valueOutOfU64Range column step)
  (List.range rows).forM fun row =>
    ensure (p.cell colFromAfter row + p.cell colAmount row + p.cell colFee row =
        p.cell colFromBefore row ∧
        p.cell colToAfter row = p.cell colToBefore row + p.cell colAmount row)
      (.conservationViolated row)

variable [Crypto]

/-- The check of one account against a root. Where `hash_leaf` would panic, it fails. -/
def checkAccount (row : ℕ) :
    Account × MerkleProof × Bytes32 × String → Except StateBindingError Unit
  | (account, proof, root, field) => do
    ensure (proof.leafValueHash = none ∨ proof.leafValueHash = hashLeaf account)
      (.merkleProofFailed row field)
    ensure (proof.leafValueHash = none → account.balance = 0)
      (.exclusionProofClaimsNonzeroBalance row field)
    ensure (verifyProof root proof emptyLeafHash) (.merkleProofFailed row field)

/-- The checks of one row. -/
def checkRow (row : ℕ) (b : RowStateBinding) : Except StateBindingError Unit := do
  ensure (b.fromBefore.balance = p.word colFromBefore row) (.balanceMismatch row "from_before")
  ensure (b.fromAfter.balance = p.word colFromAfter row) (.balanceMismatch row "from_after")
  ensure (b.toBefore.balance = p.word colToBefore row) (.balanceMismatch row "to_before")
  ensure (b.toAfter.balance = p.word colToAfter row) (.balanceMismatch row "to_after")
  ensure (b.fromProofBefore.key = p.fromAddress row ∧ b.fromProofAfter.key = p.fromAddress row)
    (.addressMismatch row "from")
  ensure (b.toProofBefore.key = p.toAddress row ∧ b.toProofAfter.key = p.toAddress row)
    (.addressMismatch row "to")
  b.checks.forM (checkAccount row)

/-- `verify_batch_bound_to_state`. -/
def verifyBatchBoundToState (bindings : List RowStateBinding) :
    Except StateBindingError Unit := do
  (verifyBatch verify proof p).mapError .stark
  let maxRows := (p.columns colFromBefore).length
  ensure (bindings.length ≤ maxRows) (.tooManyBindings maxRows bindings.length)
  (bindings.zip bindings.tail).zipIdx.forM fun (pair, row) =>
    ensure (pair.1.rootAfter = pair.2.rootBefore) (.rootSequenceMismatch row)
  bindings.zipIdx.forM fun (b, row) => checkRow p row b

end Verify

/-! ### What an accepted batch says -/

section Sound

variable {Proof : Type} {verify : Proof → PublicInputs → Option Bool} {proof : Proof}
  {p : PublicInputs}

/-- The cells of an accepted batch are words, and every row conserves value. -/
theorem conserves_of_verifyBatch (h : verifyBatch verify proof p = .ok ()) {row : ℕ}
    (hrow : row < (p.columns colFromBefore).length) :
    (∀ column, (p.word column row : ℕ) = p.cell column row) ∧
    (p.word colFromAfter row + p.word colAmount row + p.word colFee row : ℕ) =
      p.word colFromBefore row ∧
    (p.word colToAfter row : ℕ) = p.word colToBefore row + p.word colAmount row := by
  simp only [verifyBatch, bind_eq_ok, ensure_eq_ok, forM_eq_ok, mem_finRange, true_imp_iff,
    mem_range, exists_const] at h
  obtain ⟨hlength, -, -, hrange, hconserves⟩ := h
  have hcell : ∀ column, (p.cell column row).val ≤ u64Max := by
    intro column
    have hlt : row < (p.columns column).length := by rwa [hlength]
    rw [PublicInputs.cell, getD_eq_getElem?_getD, getElem?_eq_getElem hlt]
    exact hrange column ((p.columns column)[row], row)
      (mk_mem_zipIdx_iff_getElem?.2 (getElem?_eq_getElem hlt))
  have hword : ∀ column, (p.word column row : ℕ) = p.cell column row := fun column =>
    Word.toNat_ofNat_of_lt (lt_of_le_of_lt (hcell column) (by decide))
  -- three words stay below the modulus, so the field's sums are those of the numbers
  have hmod : 3 * u64Max < fieldModulus := by decide
  obtain ⟨hfrom, hto⟩ := hconserves row hrow
  have hfrom := congrArg Fin.val hfrom
  have hto := congrArg Fin.val hto
  have hamount := hcell colAmount
  have hfee := hcell colFee
  have hfromAfter := hcell colFromAfter
  have htoBefore := hcell colToBefore
  rw [Fin.val_add, Fin.val_add, Nat.mod_add_mod, Nat.mod_eq_of_lt (by omega)] at hfrom
  rw [Fin.val_add, Nat.mod_eq_of_lt (by omega)] at hto
  refine ⟨hword, ?_, ?_⟩
  · rw [hword, hword, hword, hword, hfrom]
  · rw [hword, hword, hword, hto]

/-- The balance at an address, zero where there is no account. -/
def balanceAt (store : Map Pubkey Account) (k : Pubkey) : U64 :=
  ((store.lookup k).map (·.balance)).getD 0

variable [Crypto]

/-- What is hashed to check an account. -/
def checkInputs (check : Account × MerkleProof × Bytes32 × String) : List (List UInt8) :=
  (if check.2.1.leafValueHash.isSome then (Borsh.toVec check.1).toList.map (0x00 :: ·) else []) ++
    check.2.1.inputs emptyLeafHash

/-- An account that passes its check has the balance that the state behind the root has. -/
theorem balanceAt_of_checkAccount {store : Map Pubkey Account} {account : Account}
    {proof : MerkleProof} {root : Bytes32} {field : String} {row : ℕ}
    (hroot : StateTree.root store = some root)
    (hcheck : checkAccount row (account, proof, root, field) = .ok ())
    (hinj : Set.InjOn Crypto.sha3
      {x | x ∈ StateTree.inputs store ∨ x ∈ checkInputs (account, proof, root, field)}) :
    balanceAt store proof.key = account.balance := by
  simp only [checkAccount, bind_eq_ok, ensure_eq_ok, exists_const] at hcheck
  obtain ⟨hleaf, habsent, hverify⟩ := hcheck
  have hproof := hinj.mono fun x (hx : _ ∨ x ∈ proof.inputs emptyLeafHash) =>
    hx.imp_right (mem_append_right _)
  cases hhash : proof.leafValueHash with
  | none =>
    have hnone := notMem_of_verifyProof hroot hverify hproof hhash
    rw [balanceAt, AList.lookup_eq_none.2 hnone, habsent hhash]
    rfl
  | some hash =>
    -- the account is the one the slot has the digest of, as neither is an empty leaf
    rw [hhash] at hleaf
    obtain ⟨bytes, hbytes, rfl⟩ := Option.map_eq_some_iff.1 (hleaf.resolve_left nofun).symm
    have hmem : 0x00 :: bytes ∈ checkInputs (account, proof, root, field) := by
      refine mem_append_left _ ?_
      simp [hhash, hbytes]
    obtain ⟨stored, hlookup, hstored⟩ := exists_of_verifyProof hroot hverify hproof hhash
      (ne_emptyLeafHash hinj (.inl zero_mem_inputs) hbytes (.inr hmem))
    obtain ⟨bytes', hbytes', heq⟩ := Option.map_eq_some_iff.1 hstored
    obtain ⟨-, rfl⟩ := List.cons.inj
      (hinj (.inl (leaf_mem_inputs hlookup hbytes')) (.inr hmem) heq)
    obtain rfl := Option.mem_unique (Borsh.fromSlice_eq_some_iff.2 hbytes')
      (Borsh.fromSlice_eq_some_iff.2 hbytes)
    rw [balanceAt, hlookup]
    rfl

/-- The cells of a row that passes are the balances of the states behind its roots. -/
theorem balances_of_checkRow {before after : Map Pubkey Account} {b : RowStateBinding} {row : ℕ}
    (hrow : checkRow p row b = .ok ()) (hbefore : StateTree.root before = some b.rootBefore)
    (hafter : StateTree.root after = some b.rootAfter)
    (hinj : Set.InjOn Crypto.sha3 {x | x ∈ StateTree.inputs before ∨ x ∈ StateTree.inputs after ∨
      ∃ check ∈ b.checks, x ∈ checkInputs check}) :
    balanceAt before (p.fromAddress row) = p.word colFromBefore row ∧
    balanceAt after (p.fromAddress row) = p.word colFromAfter row ∧
    balanceAt before (p.toAddress row) = p.word colToBefore row ∧
    balanceAt after (p.toAddress row) = p.word colToAfter row := by
  simp only [checkRow, bind_eq_ok, ensure_eq_ok, forM_eq_ok, exists_const] at hrow
  obtain ⟨h₁, h₂, h₃, h₄, ⟨hfrom, hfrom'⟩, ⟨hto, hto'⟩, hchecks⟩ := hrow
  have hold : ∀ {check}, check ∈ b.checks → Set.InjOn Crypto.sha3
      {x | x ∈ StateTree.inputs before ∨ x ∈ checkInputs check} := fun hcheck =>
    hinj.mono fun x hx => hx.imp_right fun hx => .inr ⟨_, hcheck, hx⟩
  have hnew : ∀ {check}, check ∈ b.checks → Set.InjOn Crypto.sha3
      {x | x ∈ StateTree.inputs after ∨ x ∈ checkInputs check} := fun hcheck =>
    hinj.mono fun x hx => .inr (hx.imp_right fun hx => ⟨_, hcheck, hx⟩)
  have hmem : b.checks.Forall (· ∈ b.checks) := forall_iff_forall_mem.2 fun _ h => h
  obtain ⟨m₁, m₂, m₃, m₄⟩ := hmem
  refine ⟨?_, ?_, ?_, ?_⟩
  · rw [← hfrom, ← h₁, balanceAt_of_checkAccount hbefore (hchecks _ m₁) (hold m₁)]
  · rw [← hfrom', ← h₂, balanceAt_of_checkAccount hafter (hchecks _ m₂) (hnew m₂)]
  · rw [← hto, ← h₃, balanceAt_of_checkAccount hbefore (hchecks _ m₃) (hold m₃)]
  · rw [← hto', ← h₄, balanceAt_of_checkAccount hafter (hchecks _ m₄) (hnew m₄)]

/-- An accepted batch is true of any states behind its roots: every row moves what its cells say
between the balances at its addresses. -/
theorem boundToState_sound {bindings : List RowStateBinding} (states : ℕ → Map Pubkey Account)
    (haccept : verifyBatchBoundToState verify proof p bindings = .ok ())
    (hfirst : ∀ b ∈ bindings.head?, StateTree.root (states 0) = some b.rootBefore)
    (hnext : ∀ i b, bindings[i]? = some b → StateTree.root (states (i + 1)) = some b.rootAfter)
    (hinj : Set.InjOn Crypto.sha3 {x | (∃ i ≤ bindings.length, x ∈ StateTree.inputs (states i)) ∨
      ∃ b ∈ bindings, ∃ check ∈ b.checks, x ∈ checkInputs check})
    {i : ℕ} (hi : i < bindings.length) :
    (balanceAt (states (i + 1)) (p.fromAddress i) : ℤ) =
      balanceAt (states i) (p.fromAddress i) - (p.cell colAmount i).val - (p.cell colFee i).val ∧
    (balanceAt (states (i + 1)) (p.toAddress i) : ℤ) =
      balanceAt (states i) (p.toAddress i) + (p.cell colAmount i).val := by
  simp only [verifyBatchBoundToState, bind_eq_ok, ensure_eq_ok, forM_eq_ok, exists_const] at haccept
  obtain ⟨_, hbatch, hlength, hchain, hrows⟩ := haccept
  replace hbatch : verifyBatch verify proof p = .ok () := mapError_eq_ok.1 hbatch
  obtain ⟨b, hb⟩ : ∃ b, bindings[i]? = some b := ⟨_, getElem?_eq_getElem hi⟩
  -- the root before a row is that of the state the row before it has led to
  have hbefore : StateTree.root (states i) = some b.rootBefore := by
    cases i with
    | zero => exact hfirst b (head?_eq_getElem?.trans hb)
    | succ i =>
      obtain ⟨b', hb'⟩ : ∃ b', bindings[i]? = some b' :=
        ⟨_, getElem?_eq_getElem (Nat.lt_of_succ_lt hi)⟩
      have hroots := hchain ((b', b), i) (mk_mem_zipIdx_iff_getElem?.2 ?_)
      · rw [hnext i b' hb', hroots]
      · rw [getElem?_zip_eq_some, getElem?_tail]
        exact ⟨hb', hb⟩
  have hrow : checkRow p i b = .ok () := hrows (b, i) (mk_mem_zipIdx_iff_getElem?.2 hb)
  obtain ⟨hfrom, hfrom', hto, hto'⟩ :=
    balances_of_checkRow hrow hbefore (hnext i b hb) <| hinj.mono <| by
      rintro x (hx | hx | hx)
      · exact .inl ⟨i, hi.le, hx⟩
      · exact .inl ⟨i + 1, hi, hx⟩
      · exact .inr ⟨b, mem_of_getElem? hb, hx⟩
  obtain ⟨hword, hdebit, hcredit⟩ := conserves_of_verifyBatch hbatch (hi.trans_le hlength)
  rw [hfrom, hfrom', hto, hto', ← hword, ← hword]
  omega

/-- A proof made over a state is accepted with the account it is of, and what is hashed to check it
is hashed for the state as well. -/
theorem exists_check (account : Account) (key : Pubkey) {store : Map Pubkey Account}
    {root : Bytes32} (hroot : StateTree.root store = some root)
    (hlookup : store.lookup key = some account) (hsome : hashLeaf account ≠ none)
    (hprove : ∃ proof ∈ StateTree.prove store key, proof.leafValueHash = hashLeaf account) :
    ∃ proof : MerkleProof, proof.key = key ∧
      (∀ row field, checkAccount row (account, proof, root, field) = .ok ()) ∧
      ∀ field, ∀ x ∈ checkInputs (account, proof, root, field), x ∈ StateTree.inputs store := by
  obtain ⟨proof, hproof, hleaf⟩ := hprove
  refine ⟨proof, key_of_prove hproof, fun row field => ?_, fun field x hx => ?_⟩
  · simp only [checkAccount, bind_eq_ok, ensure_eq_ok, exists_const]
    exact ⟨.inr hleaf, fun hnone => absurd (hleaf ▸ hnone) hsome, verifyProof_prove hroot hproof⟩
  · rcases mem_append.1 hx with hx | hx
    · split_ifs at hx
      · obtain ⟨bytes, hbytes, rfl⟩ := mem_map.1 hx
        exact leaf_mem_inputs hlookup (Option.mem_toList.1 hbytes)
      · cases hx
    · exact inputs_prove_subset hproof hx

end Sound

/-! ### A transfer -/

section Transfer

attribute [local instance] sha3Crypto

/-- A transfer of 30 from a balance of 100 to one of 20, with a fee of 1. -/
def transferBatch : PublicInputs :=
  ⟨fun column => [[100, 20, 30, 1, 69, 50, 0, 0, 0, 2, 0, 0, 0, 3].getD column 0]⟩

/-- The state before the transfer and the one after it. -/
def transferStates : ℕ → Map Pubkey Account
  | 0 => twoWallets 100 20
  | _ + 1 => twoWallets 69 50

/-- The row of the transfer, with proofs made over the two states, is accepted and true. -/
theorem boundToState_sound_transfer : ∃ row,
    verifyBatchBoundToState (fun _ _ => some true) () transferBatch [row] = .ok () ∧
    (balanceAt (transferStates 1) (transferBatch.fromAddress 0) : ℤ) =
      balanceAt (transferStates 0) (transferBatch.fromAddress 0) -
        (transferBatch.cell colAmount 0).val - (transferBatch.cell colFee 0).val ∧
    (balanceAt (transferStates 1) (transferBatch.toAddress 0) : ℤ) =
      balanceAt (transferStates 0) (transferBatch.toAddress 0) +
        (transferBatch.cell colAmount 0).val ∧
    (transferBatch.fromAddress 0, transferBatch.toAddress 0) = (2, 3) ∧
    (transferBatch.cell colAmount 0, transferBatch.cell colFee 0) = (30, 1) := by
  have hroots : ∀ i < 2, (StateTree.root (transferStates i)).isSome := by decide +kernel
  obtain ⟨before, hbefore⟩ := Option.isSome_iff_exists.1 (hroots 0 (by decide))
  obtain ⟨after, hafter⟩ := Option.isSome_iff_exists.1 (hroots 1 (by decide))
  obtain ⟨p₁, hkey₁, hcheck₁, hsub₁⟩ := exists_check (wallet 100) 2 hbefore rfl
    (by decide +kernel) (by decide +kernel)
  obtain ⟨p₂, hkey₂, hcheck₂, hsub₂⟩ := exists_check (wallet 69) 2 hafter rfl
    (by decide +kernel) (by decide +kernel)
  obtain ⟨p₃, hkey₃, hcheck₃, hsub₃⟩ := exists_check (wallet 20) 3 hbefore rfl
    (by decide +kernel) (by decide +kernel)
  obtain ⟨p₄, hkey₄, hcheck₄, hsub₄⟩ := exists_check (wallet 50) 3 hafter rfl
    (by decide +kernel) (by decide +kernel)
  let row : RowStateBinding :=
    ⟨before, after, wallet 100, wallet 69, wallet 20, wallet 50, p₁, p₂, p₃, p₄⟩
  have hrow : checkRow transferBatch 0 row = .ok () := by
    simp only [checkRow, bind_eq_ok, ensure_eq_ok, forM_eq_ok, exists_const]
    exact ⟨rfl, rfl, rfl, rfl, ⟨hkey₁, hkey₂⟩, ⟨hkey₃, hkey₄⟩, forall_iff_forall_mem.1
      ⟨hcheck₁ _ _, hcheck₂ _ _, hcheck₃ _ _, hcheck₄ _ _⟩⟩
  have haccept : verifyBatchBoundToState (fun _ _ => some true) () transferBatch [row] =
      .ok () := by
    have hbatch : verifyBatch (fun _ _ => some true) () transferBatch = .ok () := rfl
    simp only [verifyBatchBoundToState, hbatch, bind_eq_ok, ensure_eq_ok, forM_eq_ok, exists_const]
    exact ⟨(), rfl, le_rfl, by rintro _ ⟨⟩, forall_iff_forall_mem.1 hrow⟩
  have hinj := @injOn_inputs [transferStates 0, transferStates 1] (by decide +kernel)
  have hsubset : row.checks.Forall fun check => ∀ x ∈ checkInputs check,
      x ∈ StateTree.inputs (transferStates 0) ∨ x ∈ StateTree.inputs (transferStates 1) :=
    ⟨fun x hx => .inl (hsub₁ _ x hx), fun x hx => .inr (hsub₂ _ x hx),
      fun x hx => .inl (hsub₃ _ x hx), fun x hx => .inr (hsub₄ _ x hx)⟩
  refine ⟨row, haccept, and_assoc.1 ⟨?_, by decide +kernel, by decide +kernel⟩⟩
  refine boundToState_sound transferStates haccept ?_ ?_ (hinj.mono ?_) Nat.one_pos
  · rintro b ⟨⟩
    exact hbefore
  · intro i b hb
    obtain rfl := mem_singleton.1 (mem_of_getElem? hb)
    exact hafter
  · rintro x (⟨i, -, hx⟩ | ⟨b, hb, check, hcheck, hx⟩)
    · cases i with
      | zero => exact ⟨_, mem_cons_self, hx⟩
      | succ => exact ⟨_, mem_cons_of_mem _ mem_cons_self, hx⟩
    · obtain rfl := mem_singleton.1 hb
      simpa using forall_iff_forall_mem.1 hsubset check hcheck x hx

end Transfer

end Stark

end QChain
