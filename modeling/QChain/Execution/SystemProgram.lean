import QChain.Execution.Account

/-!
# The System program

Account creation, transfers and program deployment (`qchain-execution/src/native.rs`).
-/

namespace QChain

open Transact Exec

/-- `MAX_PROGRAM_BYTECODE_BYTES`. -/
def maxProgramBytecodeBytes : ℕ := 256 * 1024

/-- `PROGRAM_ACCOUNT_DOMAIN`. -/
def programAccountDomain : List UInt8 := asciiBytes "qchain-program-account-v2"

/-- The data of a deployed program's account. -/
structure WasmProgramData where
  entryPoint : Utf8
  moduleBytes : List UInt8
  deployer : Pubkey
  deriving DecidableEq

instance : Borsh WasmProgramData :=
  Borsh.iso (fun d => (d.entryPoint, d.moduleBytes, d.deployer))
    fun (entryPoint, moduleBytes, deployer) => ⟨entryPoint, moduleBytes, deployer⟩

instance : LawfulBorsh WasmProgramData := Borsh.lawful_iso

/-- `SystemInstruction`. -/
inductive SystemInstruction
  | createAccount (units : U64) (owner : Pubkey)
  | transfer (amount : U64)
  | deployProgram (moduleBytes : List UInt8) (entryPoint : Utf8) (salt : List UInt8)
  deriving DecidableEq

/-- The decoder of the instruction data. -/
def SystemInstruction.decode : Decoder SystemInstruction :=
  Decoder.variants
    [ (Borsh.decode : Decoder (U64 × Pubkey)).map fun (units, owner) => createAccount units owner,
      (Borsh.decode : Decoder U64).map transfer,
      (Borsh.decode : Decoder (List UInt8 × Utf8 × List UInt8)).map
        fun (moduleBytes, entryPoint, salt) => deployProgram moduleBytes entryPoint salt ]

variable [Crypto]

/-- `derive_program_address`: where a payer's program with a given salt is deployed. -/
def deriveProgramAddress (payer : Pubkey) (salt : List UInt8) : Pubkey :=
  Crypto.sha3 (programAccountDomain ++ payer.toBytes ++ salt)

namespace SystemProgram

/-- `transfer_internal`. -/
def transferInternal (sender recipient : Pubkey) (amount : U64) : Exec Unit := do
  let account ← load sender (.accountNotFound sender)
  check (amount ≤ account.balance) .insufficientFunds
  put sender { account with balance := ← subU64 account.balance amount }
  credit recipient systemProgramId amount

variable (ix : Instruction) (payer : Pubkey)

/-- `SystemInstruction::CreateAccount`: an account that is already there keeps its owner. -/
def createAccount (units : U64) (owner : Pubkey) :
    Exec Unit := do
  let newPubkey ← named ix 0 "CreateAccount"
  let accounts ← get
  put newPubkey (accounts.getOrNew newPubkey owner)
  transferInternal payer newPubkey units

/-- `SystemInstruction::Transfer`: only out of the payer's account. -/
def transfer (amount : U64) : Exec Unit := do
  let sender ← named ix 0 "Transfer"
  let recipient ← named ix 1 "Transfer"
  check (sender = payer)
    (.unauthorized "Transfer's source account must be the transaction payer")
  transferInternal sender recipient amount

/-- `SystemInstruction::DeployProgram`: once, at the address derived from payer and salt,
whatever account it finds there. -/
def deployProgram (moduleBytes : List UInt8)
    (entryPoint : Utf8) (salt : List UInt8) : Exec Unit := do
  let size := moduleBytes.length
  check (size ≤ maxProgramBytecodeBytes)
    (.programError s!"program bytecode too large: {size} bytes (max {maxProgramBytecodeBytes})")
  let programPubkey ← named ix 0 "DeployProgram"
  check (programPubkey = deriveProgramAddress payer salt)
    (.unauthorized "DeployProgram target address is not derived from the payer + salt")
  let existing := (← get).getOrNew programPubkey systemProgramId
  check (existing.owner ≠ loaderProgramId)
    (.programError "a program is already deployed at this address (deploy-once)")
  let data ← okOr (Borsh.toVec (WasmProgramData.mk entryPoint moduleBytes payer))
    (.programError "failed to encode program data: ")
  put programPubkey
    { Account.newWallet loaderProgramId with
      balance := existing.balance, codeHash := Crypto.sha3 moduleBytes, data := data }

/-- `SystemProgram::process`. -/
def process : Exec Unit := do
  let instr ← okOr (SystemInstruction.decode.all ix.data) (.programError "bad instruction data: ")
  match instr with
  | .createAccount units owner => createAccount ix payer units owner
  | .transfer amount => transfer ix payer amount
  | .deployProgram moduleBytes entryPoint salt =>
    deployProgram ix payer moduleBytes entryPoint salt

end SystemProgram

end QChain
