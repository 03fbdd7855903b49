import QChain.Execution.Admission
import QChain.Execution.HardCap
import QChain.Node.GenesisWrites

/-!
# Replay protection

A transaction is admitted only if it carries the nonce of its payer, which is then raised by one. No
later write lowers it: accounts are written from copies, made again by a deployment and opened by
credits, but writes that would lower a nonce reach only addresses that have not sent anything. So
the nonces of a run are followed together with the fact that only wallets have one.
-/

namespace QChain

open Exec Finmap List Transact

/-! ### Nonces -/

namespace Accounts

variable {accounts accounts' : Accounts} {k k' owner : Pubkey} {account : Account}

/-- The nonce at an address, zero where there is no account. -/
def nonceOf (accounts : Accounts) (k : Pubkey) : ℕ := (accounts.getOrNew k systemProgramId).nonce

theorem nonceOf_of_lookup (h : accounts.lookup k = some account) :
    accounts.nonceOf k = account.nonce := by
  rw [nonceOf, getOrNew_of_lookup h]

theorem nonceOf_of_lookup_none (h : accounts.lookup k = none) : accounts.nonceOf k = 0 := by
  rw [nonceOf, getOrNew, h]
  rfl

theorem nonceOf_congr (h : accounts.lookup k = accounts'.lookup k) :
    accounts.nonceOf k = accounts'.nonceOf k := by
  rw [nonceOf, getOrNew_congr h, nonceOf]

@[simp] theorem nonce_getOrNew :
    ((accounts.getOrNew k owner).nonce : ℕ) = accounts.nonceOf k := by
  rw [nonceOf, getOrNew, getOrNew]
  cases accounts.lookup k <;> rfl

theorem nonceOf_insert :
    nonceOf (accounts.insert k account) k' = if k' = k then (account.nonce : ℕ)
      else accounts.nonceOf k' := by
  by_cases h : k' = k
  · subst h
    rw [if_pos rfl, nonceOf_of_lookup (lookup_insert accounts)]
  · rw [if_neg h]
    exact nonceOf_congr (lookup_insert_of_ne accounts h)

/-- Where there is a copy it shows, and the store elsewhere. -/
theorem nonceOf_union {store : Accounts} :
    nonceOf (accounts ∪ store) k =
      if k ∈ accounts then accounts.nonceOf k else store.nonceOf k := by
  split_ifs with h
  · exact nonceOf_congr (lookup_union_of_covers (.inl h))
  · apply nonceOf_congr
    rw [lookup_union_eq, lookup_eq_none.2 h, Option.none_or]

end Accounts

section

variable [Crypto] {cfg : LedgerConfig} {payer collector k : Pubkey} {names keys : List Pubkey}
  {round dust : U64} {w₀ w v v' store : Accounts} {account : Account}
  {paidIn takenOut amountIn amountOut : ℕ}

/-- Native programs do not change nonces, except that a program is deployed with a new one. -/
theorem Effects.nonceOf_eq_or (h : Effects payer names keys w₀ paidIn takenOut w) :
    w.nonceOf k = w₀.nonceOf k ∨
      w.nonceOf k = 0 ∧ ∃ salt, k = deriveProgramAddress payer salt := by
  induction h with
  | refl => exact .inl rfl
  | @write _ _ _ _ w k' account _ hwrite ih =>
    rw [Accounts.nonceOf_insert]
    by_cases hk : k = k'
    · subst hk
      rw [if_pos rfl]
      cases hwrite with
      | credit | data | openPosition | position => rwa [Accounts.nonce_getOrNew]
      | debit _ hlookup | stake _ _ _ hlookup | closeStake _ _ hlookup | proposal _ hlookup
      | closeProposal _ hlookup => rwa [← Accounts.nonceOf_of_lookup hlookup]
      | create _ hnone | openStake _ hnone | openProposal _ hnone =>
        rw [Accounts.nonceOf_of_lookup_none hnone]
        exact .inl rfl
      | deploy _ haddr => exact .inr ⟨rfl, _, haddr⟩
    · rwa [if_neg hk]

/-- Contracts do not change nonces. -/
theorem ContractEffect.nonceOf_eq {programId : Pubkey}
    (h : ContractEffect programId payer names w v) : v.nonceOf k = w.nonceOf k := by
  by_cases hname : k ∈ names
  · obtain ⟨after, hafter, hwrite⟩ := h.write k hname
    rw [Accounts.nonceOf_of_lookup hafter, hwrite.frame.1, Accounts.nonce_getOrNew]
  · exact Accounts.nonceOf_congr (h.frame k hname)

/-! ### Wallets -/

/-- An address of a wallet: none of the protocol's, and none where programs are deployed. -/
structure IsWallet (k : Pubkey) : Prop where
  singleton : ¬IsProtocolId k
  program : ∀ deployer salt, k ≠ deriveProgramAddress deployer salt

theorem Runs.nonceOf_eq_or {e : Execution} (h : Runs cfg e) :
    e.after.nonceOf k = e.before.nonceOf k ∨ e.after.nonceOf k = 0 ∧ ¬IsWallet k := by
  cases h with
  | native _ hrun =>
    obtain ⟨paidIn, takenOut, heffects⟩ := NativeProgram.process_effects _ _ hrun
    refine heffects.nonceOf_eq_or.imp_right ?_
    rintro ⟨hzero, salt, haddr⟩
    exact ⟨hzero, fun hwallet => hwallet.program _ _ haddr⟩
  | contract _ heffect => exact .inl heffect.nonceOf_eq

/-- An execution makes copies of accounts it names and of accounts of the protocol only. -/
theorem Runs.notMem {e : Execution} (h : Runs cfg e) (hprotocol : ¬IsProtocolId k)
    (hnames : k ∉ e.payer :: e.ix.accounts) (hmem : k ∉ e.before) : k ∉ e.after := by
  cases h with
  | @native program _ hrun =>
    obtain ⟨paidIn, takenOut, heffects⟩ := NativeProgram.process_effects _ _ hrun
    have hkeys : ∀ k ∈ program.keys, IsProtocolId k := by
      cases program <;> decide
    exact heffects.lookup_of_notMem hnames (fun hk => hprotocol (hkeys k hk)) hmem
  | contract _ heffect =>
    rw [← lookup_eq_none, heffect.frame k fun hk => hnames (mem_cons_of_mem _ hk),
      lookup_eq_none]
    exact hmem

/-- An execution leaves the nonces of wallets as they are, and no other address gets one. -/
theorem Runs.nonceOf_union {e : Execution} (h : Runs cfg e)
    (hcovers : Covers e.before store (e.payer :: e.ix.accounts)) :
    (IsWallet k → Accounts.nonceOf (e.after ∪ store) k = Accounts.nonceOf (e.before ∪ store) k) ∧
      (Accounts.nonceOf (e.before ∪ store) k = 0 → Accounts.nonceOf (e.after ∪ store) k = 0) := by
  have hcopy : e.before.nonceOf k = 0 → e.after.nonceOf k = 0 := by
    intro hzero
    rcases h.nonceOf_eq_or (k := k) with heq | ⟨heq, _⟩
    · exact heq.trans hzero
    · exact heq
  rw [Accounts.nonceOf_union, Accounts.nonceOf_union]
  by_cases hbefore : k ∈ e.before
  · rw [if_pos hbefore, if_pos (h.mem hbefore)]
    refine ⟨fun hwallet => ?_, hcopy⟩
    rcases h.nonceOf_eq_or (k := k) with heq | ⟨_, hnot⟩
    · exact heq
    · exact absurd hwallet hnot
  · rw [if_neg hbefore]
    by_cases hafter : k ∈ e.after
    · rw [if_pos hafter]
      -- a copy that was made out of nothing has no nonce
      have hzero : e.after.nonceOf k = 0 := by
        apply hcopy
        exact Accounts.nonceOf_of_lookup_none (lookup_eq_none.2 hbefore)
      refine ⟨fun hwallet => ?_, fun _ => hzero⟩
      have hnamed : k ∈ e.payer :: e.ix.accounts := by
        by_contra hnames
        exact h.notMem hwallet.singleton hnames hbefore hafter
      have hstore : k ∉ store := (hcovers k hnamed).resolve_left hbefore
      rw [hzero, Accounts.nonceOf_of_lookup_none (lookup_eq_none.2 hstore)]
    · rw [if_neg hafter]
      exact ⟨fun _ => rfl, id⟩

/-! ### The invariant -/

/-- Accounts with no nonce lower than a bound, in which only wallets have sent transactions. -/
structure Sent (bound : Pubkey → ℕ) (v : Accounts) : Prop where
  le : ∀ k, bound k ≤ v.nonceOf k
  wallet : ∀ k, v.nonceOf k ≠ 0 → IsWallet k

namespace Sent

variable {bound : Pubkey → ℕ}

theorem of_wallets (h : Sent bound v) (hle : ∀ k, IsWallet k → v.nonceOf k ≤ v'.nonceOf k)
    (hzero : ∀ k, ¬IsWallet k → v.nonceOf k = 0 → v'.nonceOf k = 0) : Sent bound v' := by
  have hnone : ∀ k, ¬IsWallet k → v.nonceOf k = 0 := fun k hk =>
    by_contra fun hne => hk (h.wallet k hne)
  constructor
  · intro k
    by_cases hk : IsWallet k
    · exact (h.le k).trans (hle k hk)
    · have := h.le k
      rw [hnone k hk] at this
      omega
  · intro k hne
    by_contra hk
    exact hne (hzero k hk (hnone k hk))

theorem of_eq (h : Sent bound v) (heq : ∀ k, v'.nonceOf k = v.nonceOf k) : Sent bound v' :=
  h.of_wallets (fun k _ => (heq k).ge) fun k _ hzero => (heq k).trans hzero

/-- A write that keeps or raises the nonce of a wallet, and gives none to other addresses. -/
theorem insert (h : Sent bound v) (hle : IsWallet k → v.nonceOf k ≤ account.nonce)
    (hzero : ¬IsWallet k → v.nonceOf k = 0 → (account.nonce : ℕ) = 0) :
    Sent bound (v.insert k account) := by
  refine h.of_wallets (fun k' hk' => ?_) fun k' hk' hv => ?_
  · rw [Accounts.nonceOf_insert]
    split_ifs with heq
    · subst heq
      exact hle hk'
    · exact le_rfl
  · rw [Accounts.nonceOf_insert]
    split_ifs with heq
    · subst heq
      exact hzero hk' hv
    · exact hv

theorem insert_of_eq (h : Sent bound v) (heq : (account.nonce : ℕ) = v.nonceOf k) :
    Sent bound (v.insert k account) :=
  h.insert (fun _ => heq.ge) fun _ hzero => heq.trans hzero

theorem closingWrite (h : Sent bound v) (hwrite : ClosingWrite v k account amountIn amountOut) :
    Sent bound (v.insert k account) := by
  cases hwrite with
  | @emit _ old _ hold haccount =>
    -- the reserve is an account of the protocol and may be made anew
    have hprotocol : ¬IsWallet stakingReserveId := fun hwallet =>
      hwallet.singleton (isProtocolId_repeatedByte (by decide))
    refine h.insert (fun hwallet => absurd hwallet hprotocol) fun _ hzero => ?_
    rw [haccount]
    rcases hold with rfl | rfl
    · rfl
    · rwa [Accounts.nonce_getOrNew]
  | spend | reward | global => exact h.insert_of_eq Accounts.nonce_getOrNew
  | registry hlookup => exact h.insert_of_eq (Accounts.nonceOf_of_lookup hlookup).symm

theorem ledgerWrite (h : Sent bound v) (hpayer : IsWallet payer)
    (hwrite : LedgerWrite cfg payer collector v k account amountIn amountOut) :
    Sent bound (v.insert k account) := by
  cases hwrite with
  | fee | feeState | rewardPool => exact h.insert_of_eq Accounts.nonce_getOrNew
  | charge hlookup => exact h.insert_of_eq (Accounts.nonceOf_of_lookup hlookup).symm
  | reserve _ hnonce =>
    refine h.insert (fun _ => ?_) fun hnot => absurd hpayer hnot
    exact hnonce.ge.trans' (Nat.le_succ _)

/-- Every step of a transaction of a wallet keeps the invariant. -/
theorem keeps {ok : Execution → Prop} (hpayer : IsWallet payer) :
    Keeps cfg payer collector round dust ok fun _ v => Sent bound v where
  write _ _ _ _ _ _ h hwrite := h.ledgerWrite hpayer hwrite
  exec _ e store h _ hcovers _ _ hruns :=
    h.of_wallets (fun k hk => ((hruns.nonceOf_union hcovers).1 hk).ge) fun k _ hzero =>
      (hruns.nonceOf_union hcovers).2 hzero
  sweep _ v v' h hsweep := by
    refine h.of_eq fun k => ?_
    rcases hsweep k with hsame | ⟨account, hlookup, _, _, hlookup'⟩
    · exact Accounts.nonceOf_congr hsame
    · rw [Accounts.nonceOf_of_lookup hlookup', Accounts.nonceOf_of_lookup hlookup]

theorem steps {es : List Execution} {s₀ : Accounts} (hpayer : IsWallet payer)
    (h : Steps cfg payer collector round dust s₀ es paidIn takenOut v) (hstart : Sent bound s₀) :
    Sent bound v :=
  @Steps.invariant _ _ _ _ _ _ _ (fun _ => True) _ [] _ _ _ _ h (keeps hpayer)
    (fun _ _ => trivial) hstart

theorem closes {s₀ : Accounts} (h : Closes s₀ paidIn takenOut v) (hstart : Sent bound s₀) :
    Sent bound v :=
  h.invariant (fun _ _ _ _ _ h hwrite => h.closingWrite hwrite) hstart

/-- From any point on, the nonces there are a bound. -/
theorem restart (h : Sent bound v) : Sent v.nonceOf v := ⟨fun _ => le_rfl, h.wallet⟩

end Sent

/-- Nobody has sent anything at genesis. -/
theorem NodeConfig.seedGenesis_nonceOf [GenesisFormat] {config : NodeConfig} {accounts : Accounts}
    (hseed : config.seedGenesis = some accounts) (k : Pubkey) : accounts.nonceOf k = 0 := by
  revert k
  refine seedGenesis_induction (P := fun v => ∀ k, v.nonceOf k = 0) ?_ (fun _ => rfl) hseed
  intro v k account h hwrite k'
  have hnonce : (account.nonce : ℕ) = 0 := by
    cases hwrite with
    | allocation =>
      exact h k
    | singleton _ _ hnonce => rw [hnonce]; rfl
    | adminFeeWallet => rfl
  rw [Accounts.nonceOf_insert]
  split_ifs
  · exact hnonce
  · exact h k'

end

/-! ### Transactions -/

namespace Ledger

variable [Crypto] [WasmEngine] {cfg : LedgerConfig} {tx : Transaction} {collector : Pubkey}
  {round : U64} {admission : Admission} {l l₁ l' : Ledger} {bound : Pubkey → ℕ}

omit [Crypto] [WasmEngine] in
theorem nonce_payerAccountOf :
    ((payerAccountOf tx l).nonce : ℕ) = l.store.nonceOf tx.message.payer := by
  rw [payerAccountOf, Accounts.nonceOf, Accounts.getOrNew]
  cases l.store.lookup tx.message.payer <;> rfl

omit [WasmEngine] in
/-- A transaction that is admitted carries the nonce of its payer, which is raised before
anything else happens. -/
theorem exists_raised (hpayer : tx.message.payer ∉ closingKeys)
    (hwallet : IsWallet tx.message.payer)
    (hstart : (start cfg tx round).run l = .ok (.ok admission, l₁)) (hsent : Sent bound l.store) :
    l.store.nonceOf tx.message.payer = tx.message.nonce ∧ ∃ raised : Accounts,
      Sent raised.nonceOf raised ∧ raised.nonceOf tx.message.payer = tx.message.nonce + 1 ∧
        ∀ collector dust,
          Steps cfg tx.message.payer collector round dust raised [] 0 0 l₁.store := by
  obtain ⟨_, l₂, hclose, hadmitted, hreserve⟩ := wp_start _ _ hstart
  obtain ⟨_, _, _, hcloses⟩ := closeDueQuantos_closes _ _ hclose
  obtain ⟨_, hsame, _⟩ := payerAccountOf_closes hcloses hpayer
  have hnonce : l.store.nonceOf tx.message.payer = tx.message.nonce := by
    rw [← nonce_payerAccountOf, hadmitted.nonce]
  have hraised : Wp (reserve tx (payerAccountOf tx l) admission round) l₂ fun _ l' =>
      ∃ raised : Accounts, Sent raised.nonceOf raised ∧
        raised.nonceOf tx.message.payer = tx.message.nonce + 1 ∧
        ∀ collector dust,
          Steps cfg tx.message.payer collector round dust raised [] 0 0 l'.store := by
    simp only [reserve, wp_rules, wp_writeAccount, checkedSub_eq_some, Word.checked_eq_some]
    intro balance _ nonce hraise _ l' hadvance
    refine ⟨_, (Sent.insert (hsent.closes hcloses) (fun _ => ?_) fun hnot =>
      absurd hwallet hnot).restart, ?_, fun collector dust =>
        Steps.advanceDynamicFee (l := { l₂ with store := _ }) .refl _ _ hadvance⟩
    · rw [← Accounts.nonce_getOrNew, ← hsame, hraise]
      exact Nat.le_succ _
    · rw [Accounts.nonceOf_insert, if_pos rfl, hraise, hadmitted.nonce]
  exact ⟨hnonce, hraised _ _ hreserve⟩

/-- After a transaction that is admitted, the nonce of its payer is past the one it carried. -/
theorem nonce_lt_of_admitted (hpayer : tx.message.payer ∉ closingKeys)
    (hwallet : IsWallet tx.message.payer)
    (hstart : (start cfg tx round).run l = .ok (.ok admission, l₁)) (hsent : Sent bound l.store)
    {result : Except ExecError U64}
    (happly : (applyTransaction cfg tx collector round).run l = .ok (result, l')) :
    tx.message.nonce < l'.store.nonceOf tx.message.payer := by
  obtain ⟨_, raised, hraised, hnonce, hsteps⟩ := exists_raised hpayer hwallet hstart hsent
  have hrest : (do
      let result ← execInstructions cfg tx collector admission round tx.message.instructions
        (workingSet tx l₁.store) 0
      settle cfg tx collector admission result).run l₁ = .ok (result, l') := by
    rw [applyTransaction, StateT.run_bind, hstart] at happly
    exact happly
  obtain ⟨_, _, _, hend⟩ := admitted_steps False (fun h => h.elim)
    (hsteps collector admission.params.dustThreshold) (fun h => h.elim) rfl _ _ hrest
  have hle := (Sent.steps hwallet hend hraised).le tx.message.payer
  rw [hnonce] at hle
  exact hle

end Ledger

namespace Chain

variable [Crypto] [WasmEngine] {cfg : LedgerConfig} {c : Chain} {tx : Transaction}
  {collector : Pubkey} {round : U64} {bound : Pubkey → ℕ} {events : List ChainEvent}

/-- An event that had no effect of its own: nothing was executed, and the accounts are as they
were or as the close of the quantos that are due and the tick of the dynamic fee leave them. -/
def Idle (cfg : LedgerConfig) (round : U64) (c c' : Chain) : Prop :=
  c'.log = c.log ∧ (c'.ledger = c.ledger ∨
    ∃ l, (Ledger.closeDueQuantos cfg round).run c.ledger = .ok ((), l) ∧
      Ledger.Refused round l c'.ledger)

/-- The payer of a transaction is none of the addresses where programs are deployed. -/
def WalletPayer : ChainEvent → Prop
  | .transaction tx _ _ => ∀ deployer salt, tx.message.payer ≠ deriveProgramAddress deployer salt
  | .participation .. => True

/-- A transaction is admitted, or has no effect of its own. -/
theorem idle_or_admitted (cfg : LedgerConfig) (c : Chain) (tx : Transaction) (collector : Pubkey)
    (round : U64) :
    Idle cfg round c (step cfg c (.transaction tx collector round)) ∨
      tx.verifySignature = true ∧ ∃ admission l₁ result l',
        (Ledger.start cfg tx round).run c.ledger = .ok (.ok admission, l₁) ∧
        (Ledger.applyTransaction cfg tx collector round).run c.ledger = .ok (result, l') ∧
        (step cfg c (.transaction tx collector round)).ledger = l' := by
  rcases step_transaction cfg c tx collector round with heq | ⟨result, l', happly, heq⟩
  · rw [heq]
    exact .inl ⟨rfl, .inl rfl⟩
  · rw [heq]
    cases hstart : (Ledger.start cfg tx round).run c.ledger with
    | error _ =>
      rw [Ledger.applyTransaction, StateT.run_bind, hstart] at happly
      cases happly
    | ok r =>
      obtain ⟨r, l₁⟩ := r
      have hr := Ledger.wp_start _ _ hstart
      cases r with
      | ok admission => exact .inr ⟨hr.1, admission, l₁, result, l', rfl, happly, rfl⟩
      | error e =>
        rw [Ledger.applyTransaction, StateT.run_bind, hstart] at happly
        obtain ⟨rfl, rfl⟩ := Prod.mk.inj (Except.ok.inj happly)
        exact .inl ⟨append_nil _, hr⟩

section

variable (hsha : ∀ bytes, ¬IsProtocolId (Crypto.sha3 bytes))

include hsha

omit [WasmEngine] in
theorem isWallet_payer (hverify : tx.verifySignature = true)
    (hwallet : ∀ deployer salt, tx.message.payer ≠ deriveProgramAddress deployer salt) :
    IsWallet tx.message.payer := by
  refine ⟨?_, hwallet⟩
  rw [payer_of_verifySignature hverify]
  exact hsha _

/-- Runs keep nonces. -/
theorem sent_run (hwallets : ∀ event ∈ events, WalletPayer event) (h : Sent bound c.ledger.store) :
    Sent bound (run cfg c events).ledger.store := by
  have hmeets : Run.Meets (step cfg) (fun _ event => WalletPayer event) c events :=
    Run.meets_of_forall (fun _ event hevent => hwallets event hevent) c
  refine invariant (I := fun _ v => Sent bound v) hsha (fun c tx feeCollector round _ h => ?_) ?_
    hmeets h
  · exact invariant_closed (I := fun _ v => Sent bound v)
      (fun _ _ _ _ _ _ h hwrite => h.closingWrite hwrite) h
  · intro c tx feeCollector round hverify hwallet
    exact Sent.keeps (isWallet_payer hsha hverify hwallet)

/-- After a transaction that had an effect, the nonce of its payer is past the one it carried,
which was the payer's until then. -/
theorem nonce_of_not_idle (hwallet : WalletPayer (.transaction tx collector round))
    (hsent : Sent bound c.ledger.store)
    (h : ¬Idle cfg round c (step cfg c (.transaction tx collector round))) :
    c.ledger.store.nonceOf tx.message.payer = tx.message.nonce ∧ tx.message.nonce <
      (step cfg c (.transaction tx collector round)).ledger.store.nonceOf tx.message.payer := by
  obtain ⟨hverify, admission, l₁, result, l', hstart, happly, heq⟩ :=
    (idle_or_admitted cfg c tx collector round).resolve_left h
  have hpayer := payer_notMem_closingKeys hsha hverify
  have hwallet' := isWallet_payer hsha hverify hwallet
  rw [heq]
  exact ⟨(Ledger.exists_raised hpayer hwallet' hstart hsent).1,
    Ledger.nonce_lt_of_admitted hpayer hwallet' hstart hsent happly⟩

end

/-- A transaction that is applied past the last round it names has no effect of its own. -/
theorem idle_of_expired (hset : (tx.message.validUntilRound : ℕ) ≠ 0)
    (hexpired : tx.message.validUntilRound < round) :
    Idle cfg round c (step cfg c (.transaction tx collector round)) := by
  rcases idle_or_admitted cfg c tx collector round with hidle | ⟨_, _, _, _, _, hstart, _, _⟩
  · exact hidle
  · obtain ⟨_, _, _, hadmitted, _⟩ := Ledger.wp_start _ _ hstart
    rcases hadmitted.current with hzero | hle
    · exact absurd hzero hset
    · exact absurd hexpired (not_lt.2 hle)

/-- Of two transactions with the same payer and nonce, one has no effect of its own. -/
theorem idle_of_repeated (hsha : ∀ bytes, ¬IsProtocolId (Crypto.sha3 bytes))
    {tx' : Transaction} {collector' : Pubkey} {round' : U64} {ms : List ChainEvent}
    (hwallets : ∀ event ∈ .transaction tx collector round :: ms, WalletPayer event)
    (hwallet' : WalletPayer (.transaction tx' collector' round'))
    (hpayer : tx'.message.payer = tx.message.payer) (hnonce : tx'.message.nonce = tx.message.nonce)
    (hsent : Sent bound c.ledger.store) {c' : Chain}
    (hrun : run cfg c (.transaction tx collector round :: ms) = c') :
    Idle cfg round c (step cfg c (.transaction tx collector round)) ∨
      Idle cfg round' c' (step cfg c' (.transaction tx' collector' round')) := by
  by_contra hboth
  obtain ⟨hfirst, hsecond⟩ := not_or.1 hboth
  have hwallet := hwallets _ (mem_cons_self ..)
  obtain ⟨_, hpast⟩ := nonce_of_not_idle hsha hwallet hsent hfirst
  -- the nonce the first transaction left is a lower bound from then on
  have hafter : Sent bound (run cfg c [.transaction tx collector round]).ledger.store := by
    refine sent_run hsha (fun event hevent => ?_) hsent
    rw [List.mem_singleton.1 hevent]
    exact hwallet
  have hlater : Sent (step cfg c (.transaction tx collector round)).ledger.store.nonceOf
      c'.ledger.store := by
    have hms : ∀ event ∈ ms, WalletPayer event := fun event hevent =>
      hwallets event (mem_cons_of_mem _ hevent)
    rw [← hrun, run, Run.run_cons]
    exact sent_run hsha hms hafter.restart
  obtain ⟨hcarried, _⟩ := nonce_of_not_idle hsha hwallet' hlater hsecond
  have hle := hlater.le tx.message.payer
  rw [hpayer, hnonce] at hcarried
  omega

/-- In a run from genesis nonces never fall, of two transactions with the same payer and nonce
one has no effect of its own, and neither has a transaction that has expired. -/
theorem replay_protection [GenesisFormat] (hsha : ∀ bytes, ¬IsProtocolId (Crypto.sha3 bytes))
    {config : NodeConfig} {accounts : Accounts} (hseed : config.seedGenesis = some accounts)
    (hwallets : ∀ event ∈ events, WalletPayer event) :
    (∀ es ms fs, events = es ++ ms ++ fs → ∀ k,
      (run cfg (ofAccounts accounts) es).ledger.store.nonceOf k ≤
        (run cfg (ofAccounts accounts) (es ++ ms)).ledger.store.nonceOf k) ∧
    (∀ es ms fs tx collector round tx' collector' round',
      events = es ++ .transaction tx collector round :: ms ++
        .transaction tx' collector' round' :: fs →
      tx'.message.payer = tx.message.payer → tx'.message.nonce = tx.message.nonce →
      Idle cfg round (run cfg (ofAccounts accounts) es)
          (run cfg (ofAccounts accounts) (es ++ [.transaction tx collector round])) ∨
        Idle cfg round'
          (run cfg (ofAccounts accounts) (es ++ .transaction tx collector round :: ms))
          (run cfg (ofAccounts accounts) (es ++ .transaction tx collector round :: ms ++
            [.transaction tx' collector' round']))) ∧
    (∀ es fs tx collector round, events = es ++ .transaction tx collector round :: fs →
      (tx.message.validUntilRound : ℕ) ≠ 0 → tx.message.validUntilRound < round →
      Idle cfg round (run cfg (ofAccounts accounts) es)
        (run cfg (ofAccounts accounts) (es ++ [.transaction tx collector round]))) := by
  have hgenesis : Sent 0 (ofAccounts accounts).ledger.store :=
    ⟨fun _ => Nat.zero_le _, fun k hne => absurd (NodeConfig.seedGenesis_nonceOf hseed k) hne⟩
  have hsent : ∀ es fs, events = es ++ fs →
      Sent 0 (run cfg (ofAccounts accounts) es).ledger.store := by
    rintro es fs rfl
    refine sent_run hsha (fun event hevent => hwallets event ?_) hgenesis
    exact mem_append_left _ hevent
  refine ⟨?_, ?_, ?_⟩
  · rintro es ms fs heq k
    have hes := (hsent es (ms ++ fs) (by rw [heq, append_assoc])).restart
    rw [run, run, Run.run_append]
    apply Sent.le
    refine sent_run hsha (fun event hevent => hwallets event ?_) hes
    rw [heq]
    exact mem_append_left _ (mem_append_right _ hevent)
  · intro es ms fs tx collector round tx' collector' round' heq hpayer hnonce
    rw [run, run, run, run, Run.run_concat, Run.run_concat]
    refine idle_of_repeated hsha (fun event hevent => hwallets event ?_) (hwallets _ ?_) hpayer
      hnonce (hsent es _ (by rw [heq, append_assoc])) (Run.run_append _ _ _ _).symm
    · rw [heq]
      exact mem_append_left _ (mem_append_right _ hevent)
    · rw [heq]
      exact mem_append_right _ (mem_cons_self ..)
  · intro es fs tx collector round _ hset hexpired
    rw [run, run, Run.run_concat]
    exact idle_of_expired hset hexpired

end Chain

/-! ### A wallet that repeats itself -/

/-- The addresses of the wallets are not where programs are deployed: what is hashed for them
starts with another byte. -/
theorem walletPayer_capEvent (feeLimit tip : U64) :
    @Chain.WalletPayer capCrypto (capEvent feeLimit tip) := by
  intro deployer salt
  have hhead : ∀ entry ∈ walletHashes, entry.1.head? = some 1 := by decide
  have hdomain : (programAccountDomain ++ deployer.toBytes ++ salt).head? ≠ some 1 := by
    show some _ ≠ some _
    decide
  have hderived : @deriveProgramAddress capCrypto deployer salt =
      0xa7ffc6f8bf1ed76651c14756a061d662f580ff4de43b49fa82d80a4b80f8434a := by
    apply Crypto.sha3_ofHashes_of_ne
    intro entry hentry heq
    exact hdomain (heq ▸ hhead entry hentry)
  rw [hderived]
  show capCrypto.sha3 (componentBytes (walletKeys 0).components) ≠ _
  decide

/-- A wallet whose transaction is applied twice. -/
theorem Chain.replay_protection_wallet :
    ∃ (chain : List ChainEvent → Chain) (event : ChainEvent),
      chain = @Chain.run capCrypto WasmEngine.none capSettings
        (.ofAccounts (capAccounts 1000000000)) ∧ event = capEvent 1000000000 0 ∧
      (chain [event]).ledger.store.nonceOf
        (capCrypto.sha3 (componentBytes (walletKeys 0).components)) = 1 ∧
      (∀ k, (chain [event]).ledger.store.nonceOf k ≤
        (chain [event, event]).ledger.store.nonceOf k) ∧
      (Chain.Idle capSettings 0 (chain []) (chain [event]) ∨
        Chain.Idle capSettings 0 (chain [event]) (chain [event, event])) := by
  have hseed : @NodeConfig.seedGenesis capFormat capCrypto (capConfig 1000000000) =
    some (capAccounts 1000000000) := by decide +kernel
  have hnonce : (@Chain.run capCrypto WasmEngine.none capSettings
      (.ofAccounts (capAccounts 1000000000)) [capEvent 1000000000 0]).ledger.store.nonceOf
      (capCrypto.sha3 (componentBytes (walletKeys 0).components)) = 1 := by decide +kernel
  obtain ⟨tx, collector, hevent⟩ : ∃ tx collector,
      capEvent 1000000000 0 = .transaction tx collector 0 := ⟨_, _, rfl⟩
  have hwallet := walletPayer_capEvent 1000000000 0
  rw [hevent] at hnonce hwallet
  have hwallets : ∀ e ∈ [ChainEvent.transaction tx collector 0, .transaction tx collector 0],
      @Chain.WalletPayer capCrypto e := by
    intro e he
    simp only [mem_cons, not_mem_nil, or_false, or_self] at he
    rw [he]
    exact hwallet
  obtain ⟨hnonces, hrepeated, _⟩ := @replay_protection capCrypto WasmEngine.none capSettings
    _ capFormat (not_isProtocolId_ofHashes (by decide +kernel)) _ _ hseed hwallets
  refine ⟨_, _, rfl, hevent.symm, hnonce, hnonces [_] [_] [] rfl, ?_⟩
  exact hrepeated [] [] [] tx collector 0 tx collector 0 rfl rfl rfl

end QChain
