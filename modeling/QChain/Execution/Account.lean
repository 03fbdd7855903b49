import QChain.Core.Transaction
import QChain.Data.FiniteMap
import QChain.System.Transact

/-!
# Accounts and the programs that change them

The account store (`qchain-core/src/account.rs`), the fixed addresses of the protocol (`ids.rs`),
the errors of execution (`error.rs`, `arith.rs`), and native programs, which change a set of
accounts and may fail, which drops every change. A run that meets `expect`, `unwrap` or an overflow
of plain arithmetic stops the node and is kept apart from an error.
-/

namespace QChain

open Finmap Option Transact

/-! ### Addresses of the protocol -/

/-- The address made of one repeated byte, `[n; 32]`. -/
def repeatedByte (n : ℕ) : Pubkey := Fin.ofNat (2 ^ 256) (n * ((2 ^ 256 - 1) / 255))

/-- `Pubkey::system_program_id()`. -/
def systemProgramId : Pubkey := repeatedByte 0

/-- `STAKING_PROGRAM_ID`. -/
def stakingProgramId : Pubkey := repeatedByte 1

/-- `STAKING_STATS_ID`, the v6 stake total. -/
def stakingStatsId : Pubkey := repeatedByte 2

/-- `GOVERNANCE_PROGRAM_ID`. -/
def governanceProgramId : Pubkey := repeatedByte 3

/-- `REGISTRY_ACCOUNT_ID`, the signature algorithm registry. -/
def registryAccountId : Pubkey := repeatedByte 4

/-- `PARAMS_ACCOUNT_ID`, the economic parameters. -/
def paramsAccountId : Pubkey := repeatedByte 5

/-- `STAKING_REWARDS_POOL_ID`, the v6 reward pool. -/
def stakingRewardsPoolId : Pubkey := repeatedByte 6

/-- `LOADER_PROGRAM_ID`, the owner of deployed programs. -/
def loaderProgramId : Pubkey := repeatedByte 7

/-- `FEE_STATE_ACCOUNT_ID`, the dynamic fee's state. -/
def feeStateAccountId : Pubkey := repeatedByte 8

/-- `VALIDATOR_REGISTRY_ACCOUNT_ID`. -/
def validatorRegistryAccountId : Pubkey := repeatedByte 9

/-- `VALIDATOR_BOND_ESCROW_ID`. -/
def validatorBondEscrowId : Pubkey := repeatedByte 10

/-- `STAKING_RESERVE_ID`, the v7 staking reserve. -/
def stakingReserveId : Pubkey := repeatedByte 11

/-- `VALIDATOR_FEE_POOL_ID`. -/
def validatorFeePoolId : Pubkey := repeatedByte 12

/-- `STAKING_UNBONDING_POOL_ID`. -/
def stakingUnbondingPoolId : Pubkey := repeatedByte 13

/-- `VALIDATOR_UNBONDING_POOL_ID`. -/
def validatorUnbondingPoolId : Pubkey := repeatedByte 14

/-- `STAKING_GLOBAL_ID`, the v7 staking totals. -/
def stakingGlobalId : Pubkey := repeatedByte 15

/-- `VALIDATOR_V7_PROGRAM_ID`. -/
def validatorV7ProgramId : Pubkey := repeatedByte 16

/-- `TREASURY_V7_PROGRAM_ID`. -/
def treasuryV7ProgramId : Pubkey := repeatedByte 17

/-- `TREASURY_ACCOUNT_ID`. -/
def treasuryAccountId : Pubkey := repeatedByte 18

/-- `EMERGENCY_ACCOUNT_ID`. -/
def emergencyAccountId : Pubkey := repeatedByte 19

/-- `EMISSION_RESERVE_ID`, what staking emission is paid from under the hard cap. -/
def emissionReserveId : Pubkey := repeatedByte 20

/-- `SCHEMA_MANIFEST_ID`. -/
def schemaManifestId : Pubkey := repeatedByte 21

/-- `VALIDATOR_RECOVERY_REGISTRY_ID`. -/
def validatorRecoveryRegistryId : Pubkey := repeatedByte 22

/-- `VALIDATOR_KEY_TIMELOCK_REGISTRY_ID`. -/
def validatorKeyTimelockRegistryId : Pubkey := repeatedByte 23

/-- `VALIDATOR_CONSENSUS_ROTATION_REGISTRY_ID`. -/
def validatorConsensusRotationRegistryId : Pubkey := repeatedByte 24

/-- `VALIDATOR_KM_AUDIT_LOG_ID`. -/
def validatorKmAuditLogId : Pubkey := repeatedByte 25

/-- `CHAIN_ID_ACCOUNT_ID`. -/
def chainIdAccountId : Pubkey := repeatedByte 26

/-- `BURN_ADDRESS`. -/
def burnAddress : Pubkey := repeatedByte 255

/-- `ADMIN_FEE_WALLET`, the default recipient of the administration's fee share. -/
def adminFeeWallet : Pubkey :=
  Bytes32.ofBytes
    [144, 32, 82, 243, 147, 55, 160, 242, 118, 129, 105, 137, 140, 206, 47, 83, 87, 91, 106, 239,
      138, 12, 249, 6, 33, 130, 72, 75, 174, 92, 140, 246]

/-! ### Accounts -/

/-- An account. -/
structure Account where
  balance : U64
  nonce : U64
  algorithmId : AlgorithmId
  owner : Pubkey
  codeHash : Bytes32
  data : List UInt8
  deriving DecidableEq

/-- `Account::new_wallet`. -/
def Account.newWallet (owner : Pubkey) : Account where
  balance := 0
  nonce := 0
  algorithmId := comboHybridEd25519MlDsa65
  owner := owner
  codeHash := 0
  data := []

/-- Accounts by address. -/
abbrev Accounts := Finmap fun _ : Pubkey => Account

namespace Accounts

variable (accounts : Accounts)

/-- The balance at an address, zero where there is no account. -/
def balanceOf (k : Pubkey) : ℕ :=
  accounts.weightAt (fun a => a.balance) k

/-- The sum of all balances. -/
def supply : ℕ := accounts.total fun a => a.balance

/-- The account at an address, or a new wallet of the given owner. -/
def getOrNew (k owner : Pubkey) : Account :=
  (accounts.lookup k).getD (Account.newWallet owner)

variable {accounts : Accounts} {k k' owner : Pubkey} {account : Account}

theorem balanceOf_of_lookup (h : accounts.lookup k = some account) :
    accounts.balanceOf k = account.balance :=
  weightAt_of_lookup h

theorem balanceOf_of_lookup_none (h : accounts.lookup k = none) : accounts.balanceOf k = 0 :=
  weightAt_of_notMem (lookup_eq_none.1 h)

/-- The balance of an account as programs read it. -/
theorem toNat_balance :
    ((((accounts.lookup k).map (·.balance)).getD 0 : U64) : ℕ) = accounts.balanceOf k := by
  cases h : accounts.lookup k with
  | none =>
    rw [balanceOf_of_lookup_none h]
    rfl
  | some account =>
    rw [balanceOf_of_lookup h]
    rfl

@[simp] theorem balance_getOrNew :
    ((accounts.getOrNew k owner).balance : ℕ) = accounts.balanceOf k := by
  cases h : accounts.lookup k with
  | none =>
    rw [balanceOf_of_lookup_none h, getOrNew, h]
    rfl
  | some account =>
    rw [balanceOf_of_lookup h, getOrNew, h]
    rfl

theorem balanceOf_insert :
    balanceOf (accounts.insert k account) k' =
      if k' = k then (account.balance : ℕ) else accounts.balanceOf k' :=
  weightAt_insert

/-- A write of data changes no balance. -/
theorem balanceOf_insert_data {bytes : List UInt8} :
    balanceOf (accounts.insert k { accounts.getOrNew k owner with data := bytes }) k' =
      accounts.balanceOf k' := by
  rw [balanceOf_insert]
  split_ifs with hk
  · rw [balance_getOrNew, hk]
  · rfl

/-- A write replaces the balance at its address. -/
theorem supply_insert :
    supply (accounts.insert k account) + accounts.balanceOf k =
      accounts.supply + account.balance :=
  total_insert

theorem getOrNew_of_lookup (h : accounts.lookup k = some account) :
    accounts.getOrNew k owner = account := by
  rw [getOrNew, h, getD_some]

/-- Copies over a store hold no more at an address than both together. -/
theorem balanceOf_le_union (store : Accounts) :
    accounts.balanceOf k ≤ balanceOf (accounts ∪ store) k := by
  cases h : accounts.lookup k with
  | none =>
    rw [balanceOf_of_lookup_none h]
    exact Nat.zero_le _
  | some account =>
    have hunion : (accounts ∪ store).lookup k = some account := by
      rw [lookup_union_eq, h, some_or]
    rw [balanceOf_of_lookup h, balanceOf_of_lookup hunion]

/-- Copies that cover an address over a store hold what both together do. -/
theorem lookup_union_of_covers {store : Accounts} (h : k ∈ accounts ∨ k ∉ store) :
    (accounts ∪ store).lookup k = accounts.lookup k := by
  rw [lookup_union_eq]
  rcases h with h | h
  · obtain ⟨account, haccount⟩ := Finmap.mem_iff.1 h
    rw [haccount, some_or]
  · rw [lookup_eq_none.2 h, or_none]

theorem getOrNew_congr {accounts' : Accounts} (h : accounts.lookup k = accounts'.lookup k) :
    accounts.getOrNew k owner = accounts'.getOrNew k owner := by
  rw [getOrNew, getOrNew, h]

theorem balanceOf_congr {accounts' : Accounts} (h : accounts.lookup k = accounts'.lookup k) :
    accounts.balanceOf k = accounts'.balanceOf k := by
  rw [balanceOf, balanceOf, Finmap.weightAt, Finmap.weightAt, h]

/-- An account that can pay an amount. -/
theorem exists_debit {amount : U64}
    (hpos : 0 < (amount : ℕ)) (h : (amount : ℕ) ≤ accounts.balanceOf k) :
    ∃ account, accounts.lookup k = some account ∧
      ∃ balance : U64, (balance : ℕ) + amount = account.balance := by
  cases hlookup : accounts.lookup k with
  | none =>
    rw [balanceOf_of_lookup_none hlookup] at h
    omega
  | some account =>
    rw [balanceOf_of_lookup hlookup] at h
    have hlt := account.balance.toNat_lt
    refine ⟨account, rfl, Word.ofNat (account.balance - amount), ?_⟩
    rw [Word.toNat_ofNat_of_lt (lt_of_le_of_lt (Nat.sub_le _ _) hlt)]
    exact Nat.sub_add_cancel h

end Accounts

/-! ### Errors -/

/-- `ExecError`, the results of a failed transaction. Texts are those of the source, without
the text of a decoder's error at the end. -/
inductive ExecError
  | invalidSignature
  | accountNotFound (address : Pubkey)
  | insufficientFunds
  | unknownProgram (address : Pubkey)
  | programError (message : String)
  | unauthorized (message : String)
  | wasm (message : String) (fuelConsumed : U64)
  | outOfGas
  | algorithmNotAcceptable (message : String)
  | feeExceedsLimit (actual limit : U64)
  | nonceTooHigh (account tx : U64)
  | expired (validUntil current : U64)
  | arithmeticOverflow
  deriving DecidableEq

/-- How execution can stop: with an error, or by a panic, which stops the node. -/
inductive Halt
  | error (e : ExecError)
  | panicked
  deriving DecidableEq

instance : Coe ExecError Halt := ⟨Halt.error⟩

/-! ### Programs -/

section Programs

variable {σ α : Type} {s : σ}

/-- Fail with an error unless the condition holds. -/
abbrev check (c : Prop) [Decidable c] (e : ExecError) : Transact σ Halt Unit :=
  require c (e : Halt)

/-- The value of an option, or fail with an error. -/
abbrev okOr (o : Option α) (e : ExecError) : Transact σ Halt α := orThrow o (e : Halt)

/-- The value of an option, or stop the node: `expect`, `unwrap`. -/
abbrev expect (o : Option α) : Transact σ Halt α := orThrow o Halt.panicked

/-- A number as a `u64` or a `u128`, or the overflow error of the checked operations. -/
abbrev checkedWord {bits : ℕ} (n : ℕ) : Transact σ Halt (Word bits) :=
  okOr (Word.checked n) .arithmeticOverflow

/-- `checked_sub`: the difference, if there is one. -/
def checkedSub {bits : ℕ} (a b : Word bits) : Option (Word bits) :=
  if (b : ℕ) ≤ a then some (Word.ofNat (a - b)) else none

@[simp] theorem checkedSub_eq_some {bits : ℕ} {a b c : Word bits} :
    checkedSub a b = some c ↔ (c : ℕ) + b = a := by
  unfold checkedSub
  split_ifs with h
  · rw [some_inj, ← Word.toNat_inj]
    have hlt : (a : ℕ) - b < 2 ^ bits := lt_of_le_of_lt (Nat.sub_le _ _) a.toNat_lt
    rw [Word.toNat_ofNat_of_lt hlt]
    omega
  · refine iff_of_false (by simp) fun heq => h ?_
    omega

/-- `arith::add_u64`. -/
abbrev addU64 (a b : U64) : Transact σ Halt U64 := checkedWord (a + b)

/-- `arith::sub_u64`. -/
abbrev subU64 (a b : U64) : Transact σ Halt U64 := okOr (checkedSub a b) .arithmeticOverflow

end Programs

/-- A program on a set of accounts. -/
abbrev Exec := Transact Accounts Halt

namespace Exec

/-- `accounts.get(k)`. -/
def find (k : Pubkey) : Exec (Option Account) := do
  let accounts ← get
  pure (accounts.lookup k)

/-- `accounts.insert(k, account)`, or a write through `get_mut`. -/
def put (k : Pubkey) (account : Account) : Exec Unit :=
  modify fun accounts => accounts.insert k account

/-- `accounts.get(k).ok_or(e)`. -/
def load (k : Pubkey) (e : ExecError) : Exec Account := do
  okOr (← find k) e

/-- The address an instruction names at a position. -/
def named (ix : Instruction) (i : ℕ) (what : String) : Exec Pubkey :=
  okOr ix.accounts[i]? (.programError s!"{what} requires accounts[{i}]")

/-- The bytes of a value for an account's data. -/
def toData {α : Type} [Borsh α] (a : α) : Exec (List UInt8) :=
  okOr (Borsh.toVec a) (.programError "")

/-- A checked credit of an account that is there or made new, `entry(k).or_insert_with` and
`add_u64`. -/
def credit (k owner : Pubkey) (amount : U64) : Exec Unit := do
  let accounts ← get
  let account := accounts.getOrNew k owner
  put k { account with balance := ← addU64 account.balance amount }

variable {accounts : Accounts} {k owner : Pubkey} {account : Account} {amount : U64}

@[simp] theorem wp_find {Q : Option Account → Accounts → Prop} :
    Wp (find k) accounts Q ↔ Q (accounts.lookup k) accounts := by
  simp [find]

variable {Q : Unit → Accounts → Prop}

@[simp] theorem wp_put :
    Wp (put k account) accounts Q ↔ Q () (accounts.insert k account) := by
  simp [put]

@[simp] theorem wp_load {e : ExecError} {Q : Account → Accounts → Prop} :
    Wp (load k e) accounts Q ↔
      ∀ account, accounts.lookup k = some account → Q account accounts := by
  simp [load]

@[simp] theorem wp_named {ix : Instruction} {i : ℕ} {what : String}
    {Q : Pubkey → Accounts → Prop} :
    Wp (named ix i what) accounts Q ↔ ∀ k, ix.accounts[i]? = some k → Q k accounts := by
  simp [named]

@[simp] theorem wp_toData {α : Type} [Borsh α] {a : α} {Q : List UInt8 → Accounts → Prop} :
    Wp (toData a) accounts Q ↔ ∀ bytes, Borsh.toVec a = some bytes → Q bytes accounts := by
  simp [toData]

@[simp] theorem wp_credit :
    Wp (credit k owner amount) accounts Q ↔
      ∀ balance : U64, (balance : ℕ) = accounts.balanceOf k + amount →
        Q () (accounts.insert k { accounts.getOrNew k owner with balance := balance }) := by
  simp [credit]

/-- `wp_rules` with the rules of the account operations. -/
theorem wp_steps : type_of% wp_rules ∧ type_of% @wp_named ∧ type_of% @wp_load ∧
    type_of% @wp_toData :=
  ⟨wp_rules, @wp_named, @wp_load, @wp_toData⟩

@[simp] theorem succeeds_find {Q : Option Account → Accounts → Prop} :
    Succeeds (find k) accounts Q ↔ Q (accounts.lookup k) accounts := by
  rw [find, succeeds_bind, succeeds_get, succeeds_pure]

@[simp] theorem succeeds_put :
    Succeeds (put k account) accounts Q ↔ Q () (accounts.insert k account) := by
  rw [put, succeeds_modify]

@[simp] theorem succeeds_load {e : ExecError} {Q : Account → Accounts → Prop} :
    Succeeds (load k e) accounts Q ↔
      ∃ account, accounts.lookup k = some account ∧ Q account accounts := by
  rw [load, succeeds_bind, succeeds_find, succeeds_orThrow]

@[simp] theorem succeeds_named {ix : Instruction} {i : ℕ} {what : String}
    {Q : Pubkey → Accounts → Prop} :
    Succeeds (named ix i what) accounts Q ↔ ∃ k, ix.accounts[i]? = some k ∧ Q k accounts := by
  rw [named, succeeds_orThrow]

@[simp] theorem succeeds_toData {α : Type} [Borsh α] {a : α} {Q : List UInt8 → Accounts → Prop} :
    Succeeds (toData a) accounts Q ↔ ∃ bytes, Borsh.toVec a = some bytes ∧ Q bytes accounts := by
  rw [toData, succeeds_orThrow]

end Exec

end QChain
