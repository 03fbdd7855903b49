import QChain.Execution.Ledger

/-!
# What native programs write

Every write of a native program is of one of a few kinds, listed in `Write` with what was
checked before it. `Effects` closes them under sequence and counts what was paid in and taken
out, so that one induction bounds the supply and one case split finds every write that can
reach a given account.
-/

namespace QChain

open Accounts Exec Transact

/-! ### Contents of accounts -/

/-- An address without balance, owner or data of its own. -/
def IsFresh (w : Accounts) (k : Pubkey) : Prop :=
  w.balanceOf k = 0 ∧ (w.getOrNew k systemProgramId).data = [] ∧
    (w.getOrNew k systemProgramId).owner = systemProgramId

/-- The addresses made of one repeated byte that the protocol uses. -/
def IsProtocolId (k : Pubkey) : Prop := ∃ n < 27, k = repeatedByte n

instance : DecidablePred IsProtocolId := fun k => by
  unfold IsProtocolId
  infer_instance

/-! ### Writes -/

/-- A write of a native program run by a payer: from the accounts `w₀` the program started
with and the accounts `w` it has made of them, the address, the account written, and how much
the write pays in and takes out. The instruction names the addresses `names`, and of the
protocol's accounts the program writes those of `keys` only. -/
inductive Write [Crypto] (payer : Pubkey) (names keys : List Pubkey) (w₀ w : Accounts) :
    Pubkey → Account → ℕ → ℕ → Prop
  | credit {k owner : Pubkey} {balance : U64} {amount : ℕ}
      (hk : k ∈ keys ∨ owner = systemProgramId ∧ (k ∈ names ∨ k = payer))
      (hbalance : (balance : ℕ) = w.balanceOf k + amount) :
      Write payer names keys w₀ w k { w.getOrNew k owner with balance := balance } amount 0
  | debit {k : Pubkey} {account : Account} {balance : U64} {amount : ℕ}
      (hk : k = payer ∨ k ∈ keys) (hlookup : w.lookup k = some account)
      (hbalance : (balance : ℕ) + amount = account.balance) :
      Write payer names keys w₀ w k { account with balance := balance } 0 amount
  | data {k owner : Pubkey} {bytes : List UInt8} (hk : k ∈ keys) :
      Write payer names keys w₀ w k { w.getOrNew k owner with data := bytes } 0 0
  | create {k owner : Pubkey} (hk : k ∈ names) (hnone : w₀.lookup k = none)
      (hkeys : keys = []) :
      Write payer names keys w₀ w k (Account.newWallet owner) 0 0
  | deploy {k : Pubkey} {salt data : List UInt8} {codeHash : Bytes32}
      (hk : k ∈ names) (haddr : k = deriveProgramAddress payer salt) (hkeys : keys = []) :
      Write payer names keys w₀ w k
        { Account.newWallet loaderProgramId with
          balance := (w.getOrNew k systemProgramId).balance, codeHash := codeHash, data := data }
        0 0
  | openPosition {k : Pubkey} {pos : StakePositionV7} {bytes : List UInt8}
      (hk : k ∈ names) (hfree : k ≠ payer ∧ k ∉ StakingV7Program.reserved)
      (hfresh : IsFresh w₀ k)
      (howner : pos.owner = payer) (hbytes : Borsh.toVec pos = some bytes) :
      Write payer names keys w₀ w k
        { w.getOrNew k stakingProgramId with
          owner := stakingProgramId, balance := 0, data := bytes } 0 0
  | position {k : Pubkey} {old pos : StakePositionV7} {bytes : List UInt8}
      (hold : storedPosition w₀ k = some old) (hpayer : old.owner = payer)
      (howner : pos.owner = payer) (hbytes : Borsh.toVec pos = some bytes) :
      Write payer names keys w₀ w k
        { w.getOrNew k stakingProgramId with
          owner := stakingProgramId, balance := 0, data := bytes } 0 0
  | openStake {k : Pubkey} {stake : StakeAccountData} {bytes : List UInt8}
      (hk : k ∈ names) (hnone : w₀.lookup k = none) (howner : stake.owner = payer)
      (hbytes : Borsh.toVec stake = some bytes) :
      Write payer names keys w₀ w k
        { Account.newWallet stakingProgramId with balance := stake.amount, data := bytes }
        stake.amount 0
  | stake {k : Pubkey} {account : Account} {old new : StakeAccountData} {bytes : List UInt8}
      (hold : storedStake w₀ k = some old) (hpayer : old.owner = payer)
      (hnew : new.owner = old.owner ∧ new.amount = old.amount)
      (hlookup : w.lookup k = some account) (hbytes : Borsh.toVec new = some bytes) :
      Write payer names keys w₀ w k { account with data := bytes } 0 0
  | closeStake {k : Pubkey} {account : Account} {old new : StakeAccountData}
      {bytes : List UInt8} (hold : storedStake w₀ k = some old)
      (hnew : new.owner = old.owner ∧ (new.amount : ℕ) = 0)
      (hlookup : w.lookup k = some account) (hbytes : Borsh.toVec new = some bytes) :
      Write payer names keys w₀ w k { account with balance := 0, data := bytes } 0 account.balance
  | openProposal {k : Pubkey} {id deposit : U64} {bytes : List UInt8}
      (hk : k ∈ names) (hnone : w₀.lookup k = none)
      (haddr : k = deriveProposalAddress payer id) :
      Write payer names keys w₀ w k
        { Account.newWallet governanceProgramId with balance := deposit, data := bytes } deposit 0
  | proposal {k : Pubkey} {account : Account} {old : Proposal} {bytes : List UInt8}
      (hold : storedProposal w₀ k = some old) (hlookup : w.lookup k = some account) :
      Write payer names keys w₀ w k { account with data := bytes } 0 0
  | closeProposal {k : Pubkey} {account : Account} {old : Proposal}
      (hold : storedProposal w₀ k = some old) (hlookup : w.lookup k = some account) :
      Write payer names keys w₀ w k { account with balance := 0, data := [] } 0 account.balance

/-- A sequence of writes, with the sums of what they pay in and take out. -/
inductive Effects [Crypto] (payer : Pubkey) (names keys : List Pubkey) (w₀ : Accounts) :
    ℕ → ℕ → Accounts → Prop
  | refl : Effects payer names keys w₀ 0 0 w₀
  | write {paidIn takenOut amountIn amountOut : ℕ} {w : Accounts} {k : Pubkey}
      {account : Account} (h : Effects payer names keys w₀ paidIn takenOut w)
      (hwrite : Write payer names keys w₀ w k account amountIn amountOut) :
      Effects payer names keys w₀ (paidIn + amountIn) (takenOut + amountOut) (w.insert k account)

/-- A sequence of writes that pays in no more than it takes out. -/
def Balanced [Crypto] (payer : Pubkey) (names keys : List Pubkey) (w₀ w : Accounts) : Prop :=
  ∃ paidIn takenOut, paidIn ≤ takenOut ∧ Effects payer names keys w₀ paidIn takenOut w

theorem isProtocolId_repeatedByte {n : ℕ} (h : n < 27) : IsProtocolId (repeatedByte n) :=
  ⟨n, h, rfl⟩

section

variable [Crypto] {payer k : Pubkey} {names keys : List Pubkey} {w₀ w : Accounts}
  {account : Account} {paidIn takenOut amountIn amountOut : ℕ}

theorem Balanced.effects (h : Balanced payer names keys w₀ w) :
    ∃ paidIn takenOut, Effects payer names keys w₀ paidIn takenOut w := by
  obtain ⟨paidIn, takenOut, _, h⟩ := h
  exact ⟨paidIn, takenOut, h⟩

/-- New data of an account of the protocol that is there. -/
theorem Write.newData {bytes : List UInt8} (hk : k ∈ keys) (hlookup : w.lookup k = some account) :
    Write payer names keys w₀ w k { account with data := bytes } 0 0 := by
  have haccount : w.getOrNew k systemProgramId = account := getOrNew_of_lookup hlookup
  rw [← haccount]
  exact .data hk

/-! ### Supply -/

theorem Write.balance_le (h : Write payer names keys w₀ w k account amountIn amountOut) :
    (account.balance : ℕ) + amountOut ≤ w.balanceOf k + amountIn := by
  cases h with
  | credit _ hbalance => exact hbalance.le
  | debit _ hlookup hbalance =>
    rw [balanceOf_of_lookup hlookup]
    exact hbalance.le
  | data | deploy => simp
  | create | openPosition | position => exact Nat.zero_le _
  | openStake | openProposal => exact Nat.le_add_left _ _
  | stake _ _ _ hlookup | proposal _ hlookup => exact (balanceOf_of_lookup hlookup).ge
  | closeStake _ _ hlookup | closeProposal _ hlookup =>
    rw [balanceOf_of_lookup hlookup]
    exact (Nat.zero_add _).le

/-- Writes to copies over a store raise the supply of both together by no more than what they
pay in less what they take out. -/
theorem Effects.supply_union_le (store : Accounts)
    (h : Effects payer names keys w₀ paidIn takenOut w) :
    Accounts.supply (w ∪ store) + takenOut ≤ Accounts.supply (w₀ ∪ store) + paidIn := by
  induction h with
  | refl => exact le_rfl
  | @write paidIn takenOut amountIn amountOut w k account h hwrite ih =>
    have hbalance := hwrite.balance_le
    have hcopy : w.balanceOf k ≤ balanceOf (w ∪ store) k :=
      balanceOf_le_union store
    have hinsert : Accounts.supply (w.insert k account ∪ store) +
        balanceOf (w ∪ store) k = Accounts.supply (w ∪ store) + account.balance := by
      rw [← Finmap.insert_union]
      exact supply_insert
    omega

/-! ### Rules -/

namespace Effects

variable (h : Effects payer names keys w₀ paidIn takenOut w)

include h

theorem wp_put (hwrite : Write payer names keys w₀ w k account amountIn amountOut) :
    Wp (put k account) w fun _ w' =>
      Effects payer names keys w₀ (paidIn + amountIn) (takenOut + amountOut) w' :=
  Exec.wp_put.2 (h.write hwrite)

theorem wp_credit {owner : Pubkey} {amount : U64}
    (hk : k ∈ keys ∨ owner = systemProgramId ∧ (k ∈ names ∨ k = payer)) :
    Wp (credit k owner amount) w fun _ w' =>
      Effects payer names keys w₀ (paidIn + amount) takenOut w' := by
  rw [Exec.wp_credit]
  intro balance hbalance
  exact h.write (.credit hk hbalance)

theorem wp_creditOrPanic {owner : Pubkey} {amount : U64}
    (hk : k ∈ keys ∨ owner = systemProgramId ∧ (k ∈ names ∨ k = payer)) :
    Wp (creditOrPanic k owner amount) w fun _ w' =>
      Effects payer names keys w₀ (paidIn + amount) takenOut w' := by
  rw [QChain.wp_creditOrPanic]
  intro balance hbalance
  exact h.write (.credit hk hbalance)

theorem wp_debitExisting {amount : U64} (hk : k = payer ∨ k ∈ keys) :
    Wp (debitExisting k amount) w fun _ w' =>
      Effects payer names keys w₀ paidIn (takenOut + amount) w' := by
  rw [QChain.wp_debitExisting]
  intro account hlookup balance hbalance
  exact h.write (.debit hk hlookup hbalance)

end Effects

/-- A part of a program that writes nothing but the data of accounts of `keys`: it keeps whatever
such writes keep. -/
def WritesData {α : Type} (keys : List Pubkey) (m : Exec α) : Prop :=
  ∀ ⦃I : Accounts → Prop⦄, (∀ w k owner bytes, k ∈ keys → I w →
    I (w.insert k { w.getOrNew k owner with data := bytes })) →
  ∀ ⦃w : Accounts⦄, I w → Wp m w fun _ w' => I w'

/-- A part of a program that moves no funds, at any point of the program's writes. -/
def Neutral {α : Type} (payer : Pubkey) (names keys : List Pubkey) (m : Exec α) : Prop :=
  ∀ ⦃w₀ w : Accounts⦄ ⦃paidIn takenOut : ℕ⦄, Effects payer names keys w₀ paidIn takenOut w →
    Wp m w fun _ w' => Effects payer names keys w₀ paidIn takenOut w'

namespace Neutral

theorem balanced {α : Type} {m : Exec α} (h : Neutral payer names keys m) :
    Wp m w fun _ w' => Balanced payer names keys w w' :=
  (h .refl).mono fun _ _ h' => ⟨0, 0, le_rfl, h'⟩

theorem writeGlobal {g : GlobalStakingState} (hk : stakingGlobalId ∈ keys) :
    Neutral payer names keys (writeGlobal g) := by
  intro w₀ w paidIn takenOut h
  rw [QChain.wp_writeGlobal]
  intro bytes _
  exact h.write (.data hk)

end Neutral

namespace WritesData

omit [Crypto] in
theorem writeLazy {α : Type} [Borsh α] {a : α} (hk : k ∈ keys) :
    WritesData keys (writeLazy k a) := by
  intro I hI w h
  simp only [QChain.writeLazy, wp_steps, Exec.wp_put]
  exact fun bytes _ => hI w k _ bytes hk h

theorem neutral {α : Type} {m : Exec α} (h : WritesData keys m) : Neutral payer names keys m :=
  fun _ _ _ _ heffects => h (fun _ _ _ _ hk h' => h'.write (.data hk)) heffects

omit [Crypto] in
/-- Data is written without a change of any balance. -/
theorem balanceOf_eq {α : Type} {m : Exec α} (h : WritesData keys m) :
    Wp m w fun _ w' => ∀ k, w'.balanceOf k = w.balanceOf k := by
  refine h (I := fun w' => ∀ k, w'.balanceOf k = w.balanceOf k) ?_ fun _ => rfl
  intro w' k owner bytes _ hsame k'
  rw [balanceOf_insert_data, hsame]

end WritesData

end

end QChain
