import QChain.Execution.ContractEffects

/-!
# The sandbox of contracts

What a contract may do to the accounts is decided after it ran: `run_wasm_instruction` lets it write
to copies, compares them with the originals, and only then puts them into the working set. The
bytecode and the order of its host calls are arbitrary here. A call that fails leaves the working
set as it was, which `runWasmInstructionInPlace` makes visible.
-/

namespace QChain

open Accounts Exec Transact

variable [Crypto]

/-- What a call of a program, made by a payer, may do to a set of accounts. An account that is
not there counts as an empty wallet. -/
structure Sandboxed (programId payer : Pubkey) (names : List Pubkey) (w w' : Accounts) : Prop where
  supply : w'.supply ≤ w.supply
  debit : ∀ k, w'.balanceOf k < w.balanceOf k →
    k = payer ∨ (w.getOrNew k systemProgramId).owner = programId
  data : ∀ k, (w'.getOrNew k systemProgramId).data ≠ (w.getOrNew k systemProgramId).data →
    k = payer ∨ (w.getOrNew k systemProgramId).owner = programId ∨
      ∃ seed, k = derivePda programId seed
  owner : ∀ k, (w'.getOrNew k systemProgramId).owner ≠ (w.getOrNew k systemProgramId).owner →
    (w'.getOrNew k systemProgramId).owner = programId ∧ ∃ seed, k = derivePda programId seed
  nonce : ∀ k, (w'.getOrNew k systemProgramId).nonce = (w.getOrNew k systemProgramId).nonce
  frame : ∀ k ∉ names, w'.lookup k = w.lookup k

/-- At every address a call either changes nothing or writes what a contract may write. -/
theorem ContractEffect.write_or_eq {programId payer : Pubkey} {names : List Pubkey}
    {w w' : Accounts} (h : ContractEffect programId payer names w w') (k : Pubkey) :
    w'.lookup k = w.lookup k ∨ ContractWrite programId payer k (w.getOrNew k systemProgramId)
      (w'.getOrNew k systemProgramId) := by
  by_cases hk : k ∈ names
  · obtain ⟨after, hafter, hwrite⟩ := h.write k hk
    rw [getOrNew_of_lookup hafter]
    exact .inr hwrite
  · exact .inl (h.frame k hk)

theorem ContractEffect.sandboxed {programId payer : Pubkey} {names : List Pubkey}
    {w w' : Accounts} (h : ContractEffect programId payer names w w') :
    Sandboxed programId payer names w w' where
  supply := by
    have hsupply := h.supply_union_le ∅
    rwa [Finmap.union_empty, Finmap.union_empty] at hsupply
  debit := by
    intro k hlt
    rcases h.write_or_eq k with heq | hwrite
    · rw [balanceOf_congr heq] at hlt
      exact absurd hlt (lt_irrefl _)
    · apply hwrite.debit
      show ((w'.getOrNew k systemProgramId).balance : ℕ) < (w.getOrNew k systemProgramId).balance
      rw [balance_getOrNew, balance_getOrNew]
      exact hlt
  data := by
    intro k hne
    rcases h.write_or_eq k with heq | hwrite
    · exact absurd (congrArg Account.data (getOrNew_congr heq)) hne
    · rcases hwrite.data hne with hpayer | howner | hafter
      · exact .inl hpayer
      · exact .inr (.inl howner)
      -- the program owns the account only now: it has claimed a derived address
      · by_cases howner : (w.getOrNew k systemProgramId).owner = programId
        · exact .inr (.inl howner)
        · refine .inr (.inr (hwrite.owner ?_).2)
          rw [hafter]
          exact Ne.symm howner
  owner := by
    intro k hne
    rcases h.write_or_eq k with heq | hwrite
    · exact absurd (congrArg Account.owner (getOrNew_congr heq)) hne
    · exact hwrite.owner hne
  nonce := by
    intro k
    rcases h.write_or_eq k with heq | hwrite
    · rw [getOrNew_congr heq]
    · exact hwrite.frame.1
  frame := h.frame

/-! ### Calls on the working set -/

/-- Runs a program for its result, on a state that survives an error. -/
def Exec.readOnly {α : Type} (program : Exec α) : ExceptT Halt (StateM Accounts) α := do
  match program.run (← get) with
  | .ok (a, _) => pure a
  | .error halt => throw halt

omit [Crypto] in
theorem Exec.run_readOnly {α : Type} {program : Exec α} {w : Accounts} :
    (Exec.readOnly program).run w = ((program.run w).map Prod.fst, w) := by
  show (match program.run w with
    | .ok (a, _) => pure a
    | .error halt => throw halt : ExceptT Halt (StateM Accounts) α).run w = _
  cases program.run w <;> rfl

/-! Sequencing on a state that survives an error. -/

omit [Crypto] in
theorem run_bind_of_ok {σ ε α β : Type} {m : ExceptT ε (StateM σ) α}
    {f : α → ExceptT ε (StateM σ) β} {s s' : σ} {a : α} (h : m.run s = (.ok a, s')) :
    (m >>= f).run s = (f a).run s' := by
  show (match m.run s with | (r, s') => (ExceptT.bindCont f r : StateM σ _) s') = _
  rw [h]
  rfl

omit [Crypto] in
theorem run_bind_of_error {σ ε α β : Type} {m : ExceptT ε (StateM σ) α}
    {f : α → ExceptT ε (StateM σ) β} {s s' : σ} {e : ε} (h : m.run s = (.error e, s')) :
    (m >>= f).run s = (.error e, s') := by
  show (match m.run s with | (r, s') => (ExceptT.bindCont f r : StateM σ _) s') = _
  rw [h]
  rfl

omit [Crypto] in
theorem run_forM_put {accounts : List ContractAccount} {w : Accounts} :
    (accounts.forM fun a => put a.key a.after).run w =
      .ok ((), accounts.foldl (fun w a => w.insert a.key a.after) w) := by
  induction accounts generalizing w with
  | nil => rfl
  | cons a accounts ih => exact ih

variable [WasmEngine]

/-- `run_wasm_instruction` on its working set, which survives an error. -/
def runWasmInstructionInPlace (moduleBytes : List UInt8) (entryPoint : Utf8) (ix : Instruction)
    (payer : Pubkey) (gasPricePerFuel currentRound : U64) (deployer : Pubkey)
    (fuelLimit : U64) : ExceptT Halt (StateM Accounts) U64 := do
  let (fee, accounts) ← Exec.readOnly (callContract moduleBytes entryPoint ix payer
    gasPricePerFuel currentRound deployer fuelLimit)
  accounts.forM fun a => modify fun w => w.insert a.key a.after
  pure fee

section

variable {moduleBytes : List UInt8} {entryPoint : Utf8} {ix : Instruction} {payer deployer : Pubkey}
  {gasPricePerFuel currentRound fuelLimit : U64} {w : Accounts}

omit [Crypto] [WasmEngine] in
theorem run_forM_insert {accounts : List ContractAccount} :
    ((accounts.forM fun a => modify fun w => w.insert a.key a.after :
        ExceptT Halt (StateM Accounts) Unit).run w) =
      (.ok (), accounts.foldl (fun w a => w.insert a.key a.after) w) := by
  induction accounts generalizing w with
  | nil => rfl
  | cons a accounts ih => exact ih

/-- The working set is written only when the call succeeds, and then as the ledger's model of
the call says. -/
theorem run_runWasmInstructionInPlace :
    (runWasmInstructionInPlace moduleBytes entryPoint ix payer gasPricePerFuel currentRound
        deployer fuelLimit).run w =
      match (runWasmInstruction moduleBytes entryPoint ix payer gasPricePerFuel currentRound
          deployer fuelLimit).run w with
      | .ok (fee, w') => (.ok fee, w')
      | .error halt => (.error halt, w) := by
  cases hcall : (callContract moduleBytes entryPoint ix payer gasPricePerFuel currentRound
      deployer fuelLimit).run w with
  | error halt =>
    have hledger : (runWasmInstruction moduleBytes entryPoint ix payer gasPricePerFuel
        currentRound deployer fuelLimit).run w = .error halt := by
      rw [runWasmInstruction, StateT.run_bind, hcall]
      rfl
    rw [hledger, runWasmInstructionInPlace]
    apply run_bind_of_error
    rw [Exec.run_readOnly, hcall]
    rfl
  | ok r =>
    obtain ⟨⟨fee, accounts⟩, w'⟩ := r
    obtain ⟨rfl, _⟩ := wp_callContract _ _ hcall
    have hledger : (runWasmInstruction moduleBytes entryPoint ix payer gasPricePerFuel
        currentRound deployer fuelLimit).run w' =
          .ok (fee, accounts.foldl (fun w a => w.insert a.key a.after) w') := by
      rw [runWasmInstruction, StateT.run_bind, hcall]
      exact congrArg (·.map fun p => (fee, p.2)) run_forM_put
    have hread : (Exec.readOnly (callContract moduleBytes entryPoint ix payer gasPricePerFuel
        currentRound deployer fuelLimit)).run w' = (.ok (fee, accounts), w') := by
      rw [Exec.run_readOnly, hcall]
      rfl
    rw [hledger, runWasmInstructionInPlace, run_bind_of_ok hread]
    exact run_bind_of_ok run_forM_insert

/-- Whatever the bytecode does, a contract call that succeeds takes funds and data only from
accounts of the payer or of the program, takes over derived addresses of the program only,
creates no funds, and leaves nonces and all other accounts alone. One that fails changes
nothing. -/
theorem runWasmInstructionInPlace_sandboxed :
    match (runWasmInstructionInPlace moduleBytes entryPoint ix payer gasPricePerFuel currentRound
        deployer fuelLimit).run w with
    | (.ok _, w') => Sandboxed ix.programId payer ix.accounts w w'
    | (.error _, w') => w' = w := by
  rw [run_runWasmInstructionInPlace]
  cases hrun : (runWasmInstruction moduleBytes entryPoint ix payer gasPricePerFuel currentRound
      deployer fuelLimit).run w with
  | error halt => rfl
  | ok r => exact (runWasmInstruction_effect _ _ hrun).sandboxed

end

end QChain
