import QChain.Execution.Ledger

/-!
# What a contract call writes

Whatever a contract does through the host functions, the checks after the call leave only the
writes of `ContractWrite`: funds and data are taken only from accounts of the payer or of the
program, an account changes hands only by a claim of a derived address, and the balances of
the accounts together do not grow.
-/

namespace QChain

open Accounts Exec Finmap List Transact

/-- The fields of an account that no host function writes are the same. -/
def SameIdentity (before after : Account) : Prop :=
  after.nonce = before.nonce ∧ after.algorithmId = before.algorithmId ∧
    after.codeHash = before.codeHash

/-- What a contract call may do to one of the accounts it names. -/
structure ContractWrite [Crypto] (programId payer k : Pubkey) (before after : Account) : Prop where
  frame : SameIdentity before after
  debit : after.balance < before.balance → k = payer ∨ before.owner = programId
  owner : after.owner ≠ before.owner →
    after.owner = programId ∧ ∃ seed, k = derivePda programId seed
  data : after.data ≠ before.data → k = payer ∨ before.owner = programId ∨ after.owner = programId

/-! ### Host functions -/

namespace HostState

variable [Crypto] {s t : HostState}

/-- What host functions keep: addresses, the number of accounts and the fields no function
writes; and every claim is of an address derived for the program. -/
structure Follows (s t : HostState) : Prop where
  programId : t.programId = s.programId
  keys : t.keys = s.keys
  length : t.accounts.length = s.accounts.length
  frame : ∀ (i : ℕ) before after, s.accounts[i]? = some before → t.accounts[i]? = some after →
    SameIdentity before after
  claims : ∀ i ∈ t.pdaClaims, i ∈ s.pdaClaims ∨
    ∃ seed, s.keys[i]? = some (derivePda s.programId seed)

theorem Follows.refl : Follows s s where
  programId := rfl
  keys := rfl
  length := rfl
  frame := by
    intro i before after hbefore hafter
    rw [hbefore] at hafter
    obtain rfl := Option.some.inj hafter
    exact ⟨rfl, rfl, rfl⟩
  claims := fun i hi => .inl hi

theorem Follows.trans {u : HostState} (h : Follows s t) (h' : Follows t u) : Follows s u where
  programId := h'.programId.trans h.programId
  keys := h'.keys.trans h.keys
  length := h'.length.trans h.length
  frame := by
    intro i before after hbefore hafter
    have hi : i < t.accounts.length := by
      rw [h.length]
      exact (List.getElem?_eq_some_iff.1 hbefore).1
    have hmid := getElem?_eq_getElem hi
    have h₁ := h.frame i _ _ hbefore hmid
    have h₂ := h'.frame i _ _ hmid hafter
    exact ⟨h₂.1.trans h₁.1, h₂.2.1.trans h₁.2.1, h₂.2.2.trans h₁.2.2⟩
  claims := by
    intro i hi
    rcases h'.claims i hi with hi | ⟨seed, hseed⟩
    · exact h.claims i hi
    · rw [h.keys, h.programId] at hseed
      exact .inr ⟨seed, hseed⟩

/-- A change of balance, owner or data. -/
theorem follows_modifyAccount {idx : ℕ} {f : Account → Account}
    (hf : ∀ a, SameIdentity a (f a)) : Follows s (s.modifyAccount idx f) where
  programId := rfl
  keys := rfl
  length := length_modify ..
  frame := by
    intro i before after hbefore hafter
    rw [modifyAccount, getElem?_modify, hbefore] at hafter
    obtain rfl := Option.some.inj hafter
    split_ifs
    · exact hf before
    · exact ⟨rfl, rfl, rfl⟩
  claims := fun i hi => .inl hi

theorem follows_usePda {idx : ℕ} {seed : List UInt8} : Follows s (s.usePda idx seed) := by
  unfold usePda
  split_ifs with hseed
  · split
    · exact .refl
    · split_ifs
      · exact .refl
      · have hmodify : Follows s (s.modifyAccount idx fun account =>
            { account with owner := s.programId, data := [] }) :=
          follows_modifyAccount fun _ => ⟨rfl, rfl, rfl⟩
        refine ⟨rfl, rfl, hmodify.length, hmodify.frame, ?_⟩
        intro i hi
        rcases mem_append.1 hi with hi | hi
        · exact .inl hi
        · obtain rfl := List.mem_singleton.1 hi
          exact .inr ⟨seed, hseed.2⟩
  · exact .refl

theorem follows_call (c : HostCall) : Follows s (s.call c) := by
  cases c with
  | setBalance idx newBalance =>
    rw [call, setBalance]
    split_ifs
    · exact follows_modifyAccount fun _ => ⟨rfl, rfl, rfl⟩
    · exact .refl
  | setData idx bytes =>
    rw [call, setData]
    split_ifs
    · exact follows_modifyAccount fun _ => ⟨rfl, rfl, rfl⟩
    · exact .refl
  | usePda idx seed => exact follows_usePda

theorem follows_foldl (calls : List HostCall) : Follows s (calls.foldl call s) := by
  induction calls generalizing s with
  | nil => exact .refl
  | cons c calls ih => exact (follows_call c).trans ih

end HostState

/-! ### Calls -/

variable [Crypto]

/-- What a contract call does to the accounts. -/
structure ContractEffect (programId payer : Pubkey) (names : List Pubkey) (w w' : Accounts) :
    Prop where
  nodup : names.Nodup
  frame : ∀ k ∉ names, w'.lookup k = w.lookup k
  write : ∀ k ∈ names, ∃ after, w'.lookup k = some after ∧
    ContractWrite programId payer k (w.getOrNew k systemProgramId) after
  total : (names.map w'.balanceOf).sum ≤ (names.map w.balanceOf).sum

/-- A call on copies over a store does not raise the supply of both together. -/
theorem ContractEffect.supply_union_le {programId payer : Pubkey} {names : List Pubkey}
    {w w' : Accounts} (h : ContractEffect programId payer names w w') (store : Accounts) :
    Accounts.supply (w' ∪ store) ≤ Accounts.supply (w ∪ store) := by
  apply total_le_of_eqOn (S := names.toFinset)
  · intro k hk
    rw [mem_toFinset] at hk
    rw [Finmap.weightAt, Finmap.weightAt, lookup_union_eq, lookup_union_eq,
      h.frame k hk]
  · rw [sum_toFinset _ h.nodup, sum_toFinset _ h.nodup]
    calc (names.map ((w' ∪ store).weightAt fun a => a.balance)).sum
        = (names.map w'.balanceOf).sum := by
          congr 1
          apply map_congr_left
          intro k hk
          obtain ⟨after, hafter, _⟩ := h.write k hk
          rw [balanceOf, Finmap.weightAt, Finmap.weightAt, lookup_union_eq, hafter]
          rfl
      _ ≤ (names.map w.balanceOf).sum := h.total
      _ ≤ (names.map ((w ∪ store).weightAt fun a => a.balance)).sum := by
          apply sum_le_sum
          intro k _
          exact balanceOf_le_union store

omit [Crypto] in
/-- The account of a call at an index. -/
theorem mem_contractAccounts {keys : List Pubkey} {before after : List Account}
    {a : ContractAccount} :
    a ∈ contractAccounts keys before after ↔ keys[a.idx]? = some a.key ∧
      before[a.idx]? = some a.before ∧ after[a.idx]? = some a.after := by
  rw [contractAccounts, mem_mapIdx]
  constructor
  · rintro ⟨i, hi, rfl⟩
    simp
  · rintro ⟨hkey, hbefore, hafter⟩
    obtain ⟨hi, hkey⟩ := List.getElem?_eq_some_iff.1 hkey
    obtain ⟨hi', hbefore⟩ := List.getElem?_eq_some_iff.1 hbefore
    obtain ⟨hi'', hafter⟩ := List.getElem?_eq_some_iff.1 hafter
    refine ⟨a.idx, by simp [length_zip]; omega, ?_⟩
    simp [hkey, hbefore, hafter]

omit [Crypto] in
theorem key_contractAccounts {keys : List Pubkey} {before after : List Account}
    (hbefore : before.length = keys.length) (hafter : after.length = keys.length) :
    (contractAccounts keys before after).map (·.key) = keys := by
  apply ext_getElem
  · simp [contractAccounts, hbefore, hafter]
  · intro i hi hi'
    simp [contractAccounts]

/-- Accounts whose contents after a call pass its checks, written back. -/
theorem contractEffect_foldl {programId payer : Pubkey} {names : List Pubkey} {w : Accounts}
    {accounts : List ContractAccount} (hnodup : names.Nodup)
    (hkeys : accounts.map (·.key) = names)
    (hbefore : ∀ a ∈ accounts, a.before = w.getOrNew a.key systemProgramId)
    (hwrite : ∀ a ∈ accounts, ContractWrite programId payer a.key a.before a.after)
    (htotal : (accounts.map fun a => (a.after.balance : ℕ)).sum ≤
      (accounts.map fun a => (a.before.balance : ℕ)).sum) :
    ContractEffect programId payer names w
      (accounts.foldl (fun w a => w.insert a.key a.after) w) := by
  subst hkeys
  have hlookup : ∀ a ∈ accounts,
      (accounts.foldl (fun w a => w.insert a.key a.after) w).lookup a.key = some a.after :=
    fun a ha => lookup_foldl_insert_of_mem hnodup ha w
  refine ⟨hnodup, ?_, ?_, ?_⟩
  · intro k hk
    exact lookup_foldl_insert_of_notMem hk w
  · intro k hk
    obtain ⟨a, ha, rfl⟩ := mem_map.1 hk
    refine ⟨a.after, hlookup a ha, ?_⟩
    rw [← hbefore a ha]
    exact hwrite a ha
  · rw [map_map, map_map]
    calc (accounts.map _).sum = (accounts.map fun a => (a.after.balance : ℕ)).sum := by
          congr 1
          apply map_congr_left
          intro a ha
          exact balanceOf_of_lookup (hlookup a ha)
      _ ≤ (accounts.map fun a => (a.before.balance : ℕ)).sum := htotal
      _ = (accounts.map _).sum := by
          congr 1
          apply map_congr_left
          intro a ha
          rw [hbefore a ha, balance_getOrNew]
          rfl

variable [WasmEngine]

theorem WasmCall.follows_of_result {c : WasmCall} {result : WasmCallResult}
    (h : c.result = .ok result) :
    HostState.Follows ⟨c.programId, c.keys, c.accounts, []⟩
      ⟨c.programId, c.keys, result.accounts, result.pdaClaims⟩ := by
  unfold WasmCall.result at h
  cases hrun : WasmEngine.run c with
  | error message =>
    rw [hrun] at h
    cases h
  | ok run =>
    rw [hrun] at h
    obtain rfl := Except.ok.inj h
    have hfollows := HostState.follows_foldl (s := ⟨c.programId, c.keys, c.accounts, []⟩) run.calls
    exact ⟨rfl, rfl, hfollows.length, hfollows.frame, hfollows.claims⟩

/-- What passes the checks of a contract call: every account is one the instruction names, with
an admissible content, and the balances do not grow. -/
theorem wp_callContract {moduleBytes : List UInt8} {entryPoint : Utf8}
    {ix : Instruction} {payer deployer : Pubkey} {gasPricePerFuel currentRound fuelLimit : U64}
    {w : Accounts} :
    Wp (callContract moduleBytes entryPoint ix payer gasPricePerFuel currentRound deployer
      fuelLimit) w fun r w' => w' = w ∧ ix.accounts.Nodup ∧
        r.2.map (·.key) = ix.accounts ∧
        (∀ a ∈ r.2, a.before = w.getOrNew a.key systemProgramId) ∧
        (∀ a ∈ r.2, ContractWrite ix.programId payer a.key a.before a.after) ∧
        (r.2.map fun a => (a.after.balance : ℕ)).sum ≤
          (r.2.map fun a => (a.before.balance : ℕ)).sum := by
  rw [callContract]
  simp only [wp_rules]
  intro hnodup
  split
  next result hresult =>
    have hfollows := WasmCall.follows_of_result hresult
    rw [checkContractCall]
    split
    · exact (wp_throw _).2 trivial
    · simp only [wp_rules]
      refine wp_forM_checks
        (P := fun a => ContractWrite ix.programId payer a.key a.before a.after) ?_ ?_
      · intro a ha R hR
        rw [mem_contractAccounts] at ha
        simp only [checkContractWrite, wp_rules]
        intro hdebit howner hdata _
        apply hR
        refine ⟨hfollows.frame a.idx _ _ ha.2.1 ha.2.2, hdebit, ?_, ?_⟩
        · intro hne
          obtain ⟨hprogram, hclaimed⟩ := howner (Ne.symm hne)
          refine ⟨hprogram, ?_⟩
          rcases hfollows.claims a.idx (contains_iff_mem.1 hclaimed) with h | ⟨seed, hseed⟩
          · cases h
          · exact ⟨seed, Option.mem_unique ha.1 hseed⟩
        · intro hne
          rcases hdata (Ne.symm hne) with (h | h) | h
          · exact .inl h
          · exact .inr (.inl h)
          · exact .inr (.inr h)
      · intro hwrite htotal
        refine ⟨rfl, hnodup, ?_, ?_, hwrite, htotal⟩
        · apply key_contractAccounts
          · exact length_map ..
          · exact hfollows.length.trans (length_map ..)
        · intro a ha
          rw [mem_contractAccounts] at ha
          have hkey : ix.accounts[a.idx]? = some a.key := ha.1
          have hbefore : (ix.accounts.map fun k => w.getOrNew k systemProgramId)[a.idx]? =
              some a.before := ha.2.1
          rw [getElem?_map, hkey] at hbefore
          exact (Option.some.inj hbefore).symm
  next => exact (wp_throw _).2 trivial

theorem runWasmInstruction_effect {moduleBytes : List UInt8} {entryPoint : Utf8}
    {ix : Instruction} {payer deployer : Pubkey} {gasPricePerFuel currentRound fuelLimit : U64}
    {w : Accounts} :
    Wp (runWasmInstruction moduleBytes entryPoint ix payer gasPricePerFuel currentRound deployer
      fuelLimit) w fun _ w' => ContractEffect ix.programId payer ix.accounts w w' := by
  rw [runWasmInstruction, wp_bind]
  refine wp_callContract.mono ?_
  rintro ⟨fee, accounts⟩ w' ⟨rfl, hnodup, hkeys, hbefore, hwrite, htotal⟩
  simp only [wp_rules, put]
  rw [wp_forM_modify]
  exact contractEffect_foldl hnodup hkeys hbefore hwrite htotal

end QChain
