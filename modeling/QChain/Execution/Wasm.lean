import QChain.Core.Base58
import QChain.Execution.Account

/-!
# Contracts

Contract calls (`qchain-execution/src/wasm.rs`, and `run_wasm_instruction` of `ledger.rs`).
The engine that compiles and runs bytecode is a parameter: what a call did is the list of the
host functions it called that write, with their arguments, and the fuel that was left. The
host functions themselves, and the checks on their result, are those of the source.
-/

namespace QChain

open Transact Exec

/-! ### The engine -/

/-- A writing call of a host function for which the fuel sufficed. -/
inductive HostCall
  | setBalance (idx : ℕ) (newBalance : U64)
  | setData (idx : ℕ) (bytes : List UInt8)
  | usePda (idx : ℕ) (seed : List UInt8)
  deriving DecidableEq

/-- The arguments of `WasmExecutor::call`. -/
structure WasmCall where
  wasmBytes : List UInt8
  entryPoint : Utf8
  params : List U64
  programId : Pubkey
  keys : List Pubkey
  accounts : List Account
  isSigner : List Bool
  currentRound : U64
  deployer : Pubkey
  fuelLimit : U64
  deriving DecidableEq

/-- What running a contract came to. -/
structure WasmRun where
  calls : List HostCall
  remaining : U64
  trap : Option String
  deriving DecidableEq

/-- The engine that compiles and runs contracts. -/
class WasmEngine where
  /-- `validate_deploy`: the error, if the bytecode is refused. -/
  validateDeploy : (wasmBytes : List UInt8) → (entryPoint : Utf8) → Option String
  /-- A call that could be set up, or the error. -/
  run : WasmCall → Except String WasmRun

/-! ### Host functions -/

/-- `PDA_DOMAIN`. -/
def pdaDomain : List UInt8 := asciiBytes "qchain-program-pda-v1"

/-- `derive_pda`. -/
def derivePda [Crypto] (programId : Pubkey) (seed : List UInt8) : Pubkey :=
  Crypto.sha3 (pdaDomain ++ programId.toBytes ++ seed)

/-- `MAX_PDA_SEED_LEN`. -/
def maxPdaSeedLen : ℕ := 128

/-- `MAX_CONTRACT_ACCOUNT_DATA`. -/
def maxContractAccountData : ℕ := 16 * 1024

/-- The part of `HostState` that calls change or that decides about changes. -/
structure HostState where
  programId : Pubkey
  keys : List Pubkey
  accounts : List Account
  pdaClaims : List ℕ
  deriving DecidableEq

namespace HostState

/-- Changes the account at an index, if there is one. -/
def modifyAccount (s : HostState) (idx : ℕ) (f : Account → Account) : HostState :=
  { s with accounts := s.accounts.modify idx f }

/-- `host_set_balance`: a balance is passed as a signed number, and a negative one ignored. -/
def setBalance (s : HostState) (idx : ℕ) (newBalance : U64) : HostState :=
  if (newBalance : ℕ) < 2 ^ 63 then
    s.modifyAccount idx fun account => { account with balance := newBalance }
  else
    s

/-- `host_set_data`. -/
def setData (s : HostState) (idx : ℕ) (bytes : List UInt8) : HostState :=
  if bytes.length ≤ maxContractAccountData then
    s.modifyAccount idx fun account => { account with data := bytes }
  else
    s

/-- `host_use_pda`: the account becomes the program's if its address is the one derived from
the seed, without the data it had. -/
def usePda [Crypto] (s : HostState) (idx : ℕ) (seed : List UInt8) : HostState :=
  if seed.length ≤ maxPdaSeedLen ∧ s.keys[idx]? = some (derivePda s.programId seed) then
    match s.accounts[idx]? with
    | none => s
    | some account =>
      if account.owner = s.programId then
        s
      else
        let s := s.modifyAccount idx fun account =>
          { account with owner := s.programId, data := [] }
        { s with pdaClaims := s.pdaClaims ++ [idx] }
  else
    s

/-- The effect of a call of a host function. -/
def call [Crypto] (s : HostState) : HostCall → HostState
  | .setBalance idx newBalance => s.setBalance idx newBalance
  | .setData idx bytes => s.setData idx bytes
  | .usePda idx seed => s.usePda idx seed

end HostState

/-- `WasmCallResult`. -/
structure WasmCallResult where
  accounts : List Account
  fuelConsumed : U64
  trap : Option String
  pdaClaims : List ℕ
  deriving DecidableEq

variable [Crypto] [WasmEngine]

/-- `WasmExecutor::call`. -/
def WasmCall.result (c : WasmCall) : Except String WasmCallResult := do
  let run ← WasmEngine.run c
  let s : HostState := run.calls.foldl HostState.call ⟨c.programId, c.keys, c.accounts, []⟩
  pure ⟨s.accounts, Word.ofNat (c.fuelLimit - run.remaining), run.trap, s.pdaClaims⟩

/-- A call uses no more fuel than it is given. -/
theorem WasmCall.fuelConsumed_le {c : WasmCall} {result : WasmCallResult}
    (h : c.result = .ok result) : result.fuelConsumed ≤ c.fuelLimit := by
  unfold WasmCall.result at h
  cases hrun : WasmEngine.run c with
  | error message =>
    rw [hrun] at h
    cases h
  | ok run =>
    rw [hrun] at h
    obtain rfl := Except.ok.inj h
    exact (Nat.mod_le _ _).trans (Nat.sub_le _ _)

/-! ### A contract call on a set of accounts -/

/-- The whole groups of eight bytes, as little-endian numbers. -/
def wordArgs : List UInt8 → List U64
  | b0 :: b1 :: b2 :: b3 :: b4 :: b5 :: b6 :: b7 :: rest =>
    Word.ofNat (ofLeBytes [b0, b1, b2, b3, b4, b5, b6, b7]) :: wordArgs rest
  | _ => []

/-- The checks on one account after a call: a debit and a write of data need the signature of
the account or the program as its owner, and the owner changes by a claim only. -/
def checkContractWrite (programId payer key : Pubkey) (claimed : Bool)
    (before after : Account) : Exec Unit := do
  let authorized := key = payer ∨ before.owner = programId
  check (after.balance < before.balance → authorized) (.unauthorized <|
    s!"contract debited account {base58 key} it is not authorized over " ++
    "(not the signer, not program-owned)")
  check (before.owner ≠ after.owner → after.owner = programId ∧ claimed = true) (.programError <|
    "a contract may not change an account's owner (only a verified PDA claim is allowed)")
  check (before.data ≠ after.data → authorized ∨ after.owner = programId) (.unauthorized <|
    s!"contract wrote data to account {base58 key} it is not authorized over " ++
    "(not the signer, not program-owned)")
  check (before.data ≠ after.data → after.data.length ≤ maxContractAccountData)
    (.programError "contract wrote account data exceeding the maximum size")

/-- An account of a contract call: its address and index, and its content before and after. -/
structure ContractAccount where
  key : Pubkey
  idx : ℕ
  before : Account
  after : Account

/-- The accounts of a contract call. -/
def contractAccounts (keys : List Pubkey) (before after : List Account) :
    List ContractAccount :=
  (keys.zip (before.zip after)).mapIdx fun idx (key, before, after) => ⟨key, idx, before, after⟩

variable (moduleBytes : List UInt8) (entryPoint : Utf8) (ix : Instruction) (payer : Pubkey)

/-- The call an instruction makes of a program, on the accounts it names. -/
def WasmCall.ofInstruction (currentRound : U64) (deployer : Pubkey) (fuelLimit : U64)
    (working : Accounts) : WasmCall where
  wasmBytes := moduleBytes
  entryPoint := entryPoint
  params := wordArgs ix.data
  programId := ix.programId
  keys := ix.accounts
  accounts := ix.accounts.map fun k => working.getOrNew k systemProgramId
  isSigner := ix.accounts.map fun k => k = payer
  currentRound := currentRound
  deployer := deployer
  fuelLimit := fuelLimit

/-- The checks of what a call did: a trap fails it, and so does a write a contract may not make.
They give the fee for the fuel used and the accounts to write back. -/
def checkContractCall (gasPricePerFuel : U64) (call : WasmCall)
    (result : WasmCallResult) : Exec (U64 × List ContractAccount) :=
  match result.trap with
  | some message => throw (ExecError.wasm message result.fuelConsumed : Halt)
  | none => do
    let accounts := contractAccounts call.keys call.accounts result.accounts
    accounts.forM fun a => checkContractWrite call.programId payer a.key
      (result.pdaClaims.contains a.idx) a.before a.after
    check ((accounts.map fun a => (a.after.balance : ℕ)).sum ≤
        (accounts.map fun a => (a.before.balance : ℕ)).sum) (.programError <|
      "contract increased the total balance across its accounts - minting is not allowed")
    pure (Word.clamp (result.fuelConsumed * gasPricePerFuel), accounts)

/-- The part of `run_wasm_instruction` before the first account is written: the call and the
checks of what it did. -/
def callContract (gasPricePerFuel currentRound : U64) (deployer : Pubkey)
    (fuelLimit : U64) : Exec (U64 × List ContractAccount) := do
  check ix.accounts.Nodup (.programError <|
    "a contract instruction may not name the same account more than once (account aliasing)")
  let call := WasmCall.ofInstruction moduleBytes entryPoint ix payer currentRound deployer
    fuelLimit (← get)
  match call.result with
  | .ok result => checkContractCall payer gasPricePerFuel call result
  | .error message => throw (ExecError.wasm message 0 : Halt)

/-- `run_wasm_instruction`: the fee for the fuel used. -/
def runWasmInstruction (gasPricePerFuel currentRound : U64) (deployer : Pubkey)
    (fuelLimit : U64) : Exec U64 := do
  let (fee, accounts) ← callContract moduleBytes entryPoint ix payer gasPricePerFuel currentRound
    deployer fuelLimit
  accounts.forM fun a => put a.key a.after
  pure fee

end QChain
