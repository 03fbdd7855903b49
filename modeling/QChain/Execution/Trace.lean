import QChain.Execution.ContractEffects
import QChain.Execution.NativeEffects

/-!
# The steps of a transaction

What applying a transaction does to the accounts, as a sequence of writes of the ledger itself and
of executions of instructions on working copies. `Steps` is stated on what the copies and the store
hold together, counts what the ledger pays in and takes out, and lists the executions.
-/

namespace QChain

open Exec List Transact

/-! ### Writes of the ledger -/

/-- The total stake of the v6 economy in its stats account. -/
def storedStats (accounts : Accounts) : U64 :=
  ((accounts.lookup stakingStatsId).bind fun account => Borsh.fromSlice account.data).getD 0

/-- The validators after the upkeep of a quanto: states and participation may have changed, but
nobody was removed or brought back. -/
def Upkeep (before after : ValidatorV7Registry) : Prop :=
  List.Forall₂ (fun e e' : ValidatorV7Entry =>
      e' = { e with
        state := e'.state, participationCredits := e'.participationCredits,
        participationOpportunities := e'.participationOpportunities } ∧
      (e.state = e'.state ∨ e.state = .bondedPending ∧ e'.state = .active ∨
        e.state = .active ∧ e'.state = .jailed))
    before.validators after.validators

/-- The withdrawal addresses in the registry of validators. -/
def withdrawalAddresses (accounts : Accounts) : List Pubkey :=
  ((storedRegistryV7 accounts).getD default).validators.map (·.withdrawalAddress)

/-- A write of the close of a quanto: the address, the account written, and how much the write
pays in and takes out. -/
inductive ClosingWrite (v : Accounts) : Pubkey → Account → ℕ → ℕ → Prop
  | emit {account old : Account} {amount : ℕ}
      (hold : old = Account.newWallet stakingProgramId ∨
        old = v.getOrNew stakingReserveId stakingProgramId)
      (haccount : account = { old with balance := account.balance })
      (hbalance : (account.balance : ℕ) ≤ v.balanceOf stakingReserveId + amount) :
      ClosingWrite v stakingReserveId account amount 0
  | spend {k owner : Pubkey} {balance : U64} {amount : ℕ}
      (hk : k = emissionReserveId ∨ k = validatorFeePoolId)
      (hbalance : (balance : ℕ) + amount = v.balanceOf k) :
      ClosingWrite v k { v.getOrNew k owner with balance := balance } 0 amount
  | reward {k : Pubkey} {balance : U64} {amount : ℕ} (hk : k ∈ withdrawalAddresses v)
      (hbalance : (balance : ℕ) = v.balanceOf k + amount) :
      ClosingWrite v k { v.getOrNew k systemProgramId with balance := balance } amount 0
  | registry {before after : ValidatorV7Registry} {account : Account} {bytes : List UInt8}
      (hlookup : v.lookup validatorRegistryAccountId = some account)
      (hbefore : ValidatorV7Registry.decodeRegistry account.data = some before)
      (hupkeep : Upkeep before after) (hbytes : Borsh.toVec after = some bytes) :
      ClosingWrite v validatorRegistryAccountId { account with data := bytes } 0 0
  | global {g g' : GlobalStakingState} {bytes : List UInt8} (hg : storedGlobal v = some g)
      (hquanto : g'.currentQuanto = Word.clamp (g.currentQuanto + 1))
      (hbytes : Borsh.toVec g' = some bytes) :
      ClosingWrite v stakingGlobalId
        { v.getOrNew stakingGlobalId stakingProgramId with data := bytes } 0 0

/-- A write of the close of a quanto that is not part of the settlement: fees are paid out of the
pool, and the registry is kept up. -/
inductive UpkeepWrite (v : Accounts) : Pubkey → Account → ℕ → ℕ → Prop
  | spend {owner : Pubkey} {balance : U64} {amount : ℕ}
      (hbalance : (balance : ℕ) + amount = v.balanceOf validatorFeePoolId) :
      UpkeepWrite v validatorFeePoolId
        { v.getOrNew validatorFeePoolId owner with balance := balance } 0 amount
  | reward {k : Pubkey} {balance : U64} {amount : ℕ} (hk : k ∈ withdrawalAddresses v)
      (hbalance : (balance : ℕ) = v.balanceOf k + amount) :
      UpkeepWrite v k { v.getOrNew k systemProgramId with balance := balance } amount 0
  | registry {before after : ValidatorV7Registry} {account : Account} {bytes : List UInt8}
      (hlookup : v.lookup validatorRegistryAccountId = some account)
      (hbefore : ValidatorV7Registry.decodeRegistry account.data = some before)
      (hupkeep : Upkeep before after) (hbytes : Borsh.toVec after = some bytes) :
      UpkeepWrite v validatorRegistryAccountId { account with data := bytes } 0 0

theorem UpkeepWrite.closing {v : Accounts} {k : Pubkey} {account : Account}
    {amountIn amountOut : ℕ} (h : UpkeepWrite v k account amountIn amountOut) :
    ClosingWrite v k account amountIn amountOut := by
  cases h with
  | spend hbalance => exact .spend (.inr rfl) hbalance
  | reward hk hbalance => exact .reward hk hbalance
  | registry hlookup hbefore hupkeep hbytes => exact .registry hlookup hbefore hupkeep hbytes

/-- A write of the ledger itself for a transaction of a payer, whose fees go to a collector. -/
inductive LedgerWrite (cfg : LedgerConfig) (payer collector : Pubkey) (v : Accounts) :
    Pubkey → Account → ℕ → ℕ → Prop
  | fee {k : Pubkey} {balance : U64} {amount : ℕ} (hk : k ∈ Ledger.feeTargets cfg collector)
      (hbalance : (balance : ℕ) = v.balanceOf k + amount) :
      LedgerWrite cfg payer collector v k
        { v.getOrNew k systemProgramId with balance := balance } amount 0
  | charge {account : Account} {balance : U64} {amount : ℕ}
      (hlookup : v.lookup payer = some account)
      (hbalance : (balance : ℕ) + amount = account.balance) :
      LedgerWrite cfg payer collector v payer { account with balance := balance } 0 amount
  | reserve {balance nonce : U64} {algorithmId : AlgorithmId} {amount : ℕ}
      (hbalance : (balance : ℕ) + amount ≤ v.balanceOf payer)
      (hnonce : (nonce : ℕ) = (v.getOrNew payer systemProgramId).nonce + 1) :
      LedgerWrite cfg payer collector v payer
        { v.getOrNew payer systemProgramId with
          balance := balance, nonce := nonce, algorithmId := algorithmId } 0 amount
  | feeState {k owner : Pubkey} {bytes : List UInt8}
      (hk : k = feeStateAccountId ∨ k = paramsAccountId)
      (hbytes : (∃ fs : FeeState, Borsh.toVec fs = some bytes) ∨
        ∃ params : EconomicParams, Borsh.toVec params = some bytes) :
      LedgerWrite cfg payer collector v k { v.getOrNew k owner with data := bytes } 0 0
  | rewardPool {balance : U64} {bytes : List UInt8}
      (hstaked : cfg.economicsV7 = false ∨ 0 < (storedStats v : ℕ))
      (hbalance : v.balanceOf stakingRewardsPoolId ≤ balance) :
      LedgerWrite cfg payer collector v stakingRewardsPoolId
        { v.getOrNew stakingRewardsPoolId stakingProgramId with
          balance := balance, data := bytes } 0 0

/-! ### Executions -/

/-- An instruction that ran for a payer: the working copies it started with, and what it made
of them. -/
structure Execution where
  ix : Instruction
  payer : Pubkey
  round : U64
  before : Accounts
  after : Accounts
  deriving DecidableEq

/-- An execution is a run of a native program, or has the effect of a contract call. -/
inductive Runs [Crypto] (cfg : LedgerConfig) (e : Execution) : Prop
  | native {program : NativeProgram}
      (hprogram : nativeProgram cfg.economicsV7 e.ix.programId = some program)
      (hrun : (program.process e.ix e.payer e.round).run e.before = .ok ((), e.after))
  | contract (hnone : nativeProgram cfg.economicsV7 e.ix.programId = none)
      (heffect : ContractEffect e.ix.programId e.payer e.ix.accounts e.before e.after)

/-- Working copies cover addresses over a store: what the store has there has been copied. -/
def Covers (working store : Accounts) (names : List Pubkey) : Prop :=
  ∀ k ∈ names, k ∈ working ∨ k ∉ store

theorem covers_copies {store : Accounts} {ks : List Pubkey} :
    Covers (Ledger.copies store ks) store ks := by
  intro k hk
  by_cases hstore : k ∈ store
  · exact .inl (Ledger.mem_copies.2 ⟨hk, hstore⟩)
  · exact .inr hstore

/-! ### Steps -/

/-- The steps of a transaction from the accounts `s₀`: the executions, what the ledger paid in
at most and took out at least, and the accounts they lead to. -/
inductive Steps [Crypto] (cfg : LedgerConfig) (payer collector : Pubkey) (round dust : U64)
    (s₀ : Accounts) : List Execution → ℕ → ℕ → Accounts → Prop
  | refl : Steps cfg payer collector round dust s₀ [] 0 0 s₀
  | write {es : List Execution} {paidIn takenOut amountIn amountOut : ℕ} {v : Accounts}
      {k : Pubkey} {account : Account}
      (h : Steps cfg payer collector round dust s₀ es paidIn takenOut v)
      (hwrite : LedgerWrite cfg payer collector v k account amountIn amountOut) :
      Steps cfg payer collector round dust s₀ es (paidIn + amountIn) (takenOut + amountOut)
        (v.insert k account)
  | exec {es : List Execution} {paidIn takenOut : ℕ} {e : Execution} {store : Accounts}
      (h : Steps cfg payer collector round dust s₀ es paidIn takenOut (e.before ∪ store))
      (hcovers : Covers e.before store (e.payer :: e.ix.accounts)) (hpayer : e.payer = payer)
      (hround : e.round = round) (hruns : Runs cfg e) :
      Steps cfg payer collector round dust s₀ (es ++ [e]) paidIn takenOut (e.after ∪ store)
  | sweep {es : List Execution} {paidIn takenOut : ℕ} {v v' : Accounts}
      (h : Steps cfg payer collector round dust s₀ es paidIn takenOut v)
      (hsweep : ∀ k, v'.lookup k = v.lookup k ∨ ∃ account, v.lookup k = some account ∧
        account.owner = systemProgramId ∧ account.balance < dust ∧
        v'.lookup k = some { account with balance := 0 }) :
      Steps cfg payer collector round dust s₀ es paidIn takenOut v'
  | weaken {es : List Execution} {paidIn takenOut paidIn' takenOut' : ℕ} {v : Accounts}
      (h : Steps cfg payer collector round dust s₀ es paidIn takenOut v) (hin : paidIn ≤ paidIn')
      (hout : takenOut' ≤ takenOut) : Steps cfg payer collector round dust s₀ es paidIn' takenOut' v

/-- An address before and after dust is swept. -/
abbrev Swept (dust : U64) (v v' : Accounts) (k : Pubkey) : Prop :=
  v'.lookup k = v.lookup k ∨ ∃ account, v.lookup k = some account ∧
    account.owner = systemProgramId ∧ account.balance < dust ∧
    v'.lookup k = some { account with balance := 0 }

/-- Dust is swept from wallets only. -/
theorem Swept.lookup_eq {dust : U64} {v v' : Accounts} {k : Pubkey} {account : Account}
    (h : Swept dust v v' k) (hlookup : v.lookup k = some account)
    (howner : account.owner = stakingProgramId) : v'.lookup k = some account := by
  rcases h with hsame | ⟨account', hlookup', howner', _⟩
  · exact hsame.trans hlookup
  · obtain rfl := Option.mem_unique hlookup hlookup'
    exact absurd (howner.symm.trans howner') (by decide +kernel)

section

variable [Crypto] {cfg : LedgerConfig} {payer collector : Pubkey} {round dust : U64} {s₀ : Accounts}

/-- What every step of a transaction keeps, whose executions are among those of interest. -/
structure Keeps (cfg : LedgerConfig) (payer collector : Pubkey) (round dust : U64)
    (ok : Execution → Prop) (I : List Execution → Accounts → Prop) : Prop where
  write : ∀ H v k account amountIn amountOut, I H v →
    LedgerWrite cfg payer collector v k account amountIn amountOut → I H (v.insert k account)
  exec : ∀ H e store, I H (e.before ∪ store) → ok e →
    Covers e.before store (e.payer :: e.ix.accounts) → e.payer = payer → e.round = round →
    Runs cfg e → I (H ++ [e]) (e.after ∪ store)
  sweep : ∀ H v v', I H v → (∀ k, v'.lookup k = v.lookup k ∨ ∃ account,
    v.lookup k = some account ∧ account.owner = systemProgramId ∧ account.balance < dust ∧
      v'.lookup k = some { account with balance := 0 }) → I H v'

/-- What every step keeps, the steps together keep. -/
theorem Steps.invariant {ok : Execution → Prop} {I : List Execution → Accounts → Prop}
    {log es : List Execution} {paidIn takenOut : ℕ} {v : Accounts}
    (h : Steps cfg payer collector round dust s₀ es paidIn takenOut v)
    (hkeeps : Keeps cfg payer collector round dust ok I) (hok : ∀ e ∈ es, ok e)
    (hstart : I log s₀) : I (log ++ es) v := by
  induction h with
  | refl =>
    rw [append_nil]
    exact hstart
  | write _ hw ih => exact hkeeps.write _ _ _ _ _ _ (ih hok) hw
  | @exec es _ _ e store _ hcovers hpayer hround hruns ih =>
    rw [← append_assoc]
    refine hkeeps.exec _ _ _ (ih fun e' he' => hok e' (mem_append_left _ he')) ?_ hcovers
      hpayer hround hruns
    exact hok e (mem_append_right _ (mem_singleton_self e))
  | sweep _ hs ih => exact hkeeps.sweep _ _ _ (ih hok) hs
  | weaken _ _ _ ih => exact ih hok

end

/-! ### The executions of a transaction -/

namespace Ledger

variable [Crypto] [WasmEngine]

/-- The instructions of a list that run, up to the first that fails. -/
def executed (cfg : LedgerConfig) (store : Accounts) (tx : Transaction) (admission : Admission)
    (currentRound : U64) : List Instruction → Accounts → U64 → List Execution
  | [], _, _ => []
  | ix :: rest, working, totalGasFee =>
    match (execInstruction cfg store tx admission currentRound totalGasFee ix).run working with
    | .ok (fee, working') =>
      ⟨ix, tx.message.payer, currentRound, working, working'⟩ ::
        executed cfg store tx admission currentRound rest working'
          (Word.clamp (totalGasFee + fee))
    | .error _ => []

/-- The instructions that run when a transaction is applied. -/
def executions (cfg : LedgerConfig) (tx : Transaction) (currentRound : U64) (l : Ledger) :
    List Execution :=
  match (start cfg tx currentRound).run l with
  | .ok (.ok admission, l₁) =>
    executed cfg l₁.store tx admission currentRound tx.message.instructions
      (workingSet tx l₁.store) 0
  | _ => []

variable {cfg : LedgerConfig} {tx : Transaction} {round : U64} {e : Execution}

theorem ix_mem_of_mem_executed {store : Accounts} {admission : Admission}
    {instructions : List Instruction} {w : Accounts} {totalGasFee : U64}
    (h : e ∈ executed cfg store tx admission round instructions w totalGasFee) :
    e.ix ∈ instructions := by
  induction instructions generalizing w totalGasFee with
  | nil => cases h
  | cons ix rest ih =>
    rw [executed] at h
    split at h
    · rcases mem_cons.1 h with rfl | h
      · exact mem_cons_self ..
      · exact mem_cons_of_mem _ (ih h)
    · cases h

/-- Only instructions of the transaction run. -/
theorem ix_mem_of_mem_executions {l : Ledger} (h : e ∈ executions cfg tx round l) :
    e.ix ∈ tx.message.instructions := by
  unfold executions at h
  split at h
  · exact ix_mem_of_mem_executed h
  · cases h

end Ledger

end QChain
