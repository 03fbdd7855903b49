import QChain.Execution.FeeSteps

/-!
# Transactions as steps

Applying a transaction, taken apart: the close of the quantos that are due, then the steps of
the transaction itself. Whatever a transaction does to the accounts is one of the writes listed
in `ClosingWrite` and `LedgerWrite`, an execution of one of its instructions, or the sweep of
dust.
-/

namespace QChain

open Accounts Exec Finmap List Option Transact

/-! ### Executions keep the copies -/

section

variable [Crypto] {cfg : LedgerConfig} {payer collector : Pubkey} {round dust : U64}
  {s₀ store : Accounts} {es : List Execution} {paidIn takenOut : ℕ}

variable {names : List Pubkey} {k : Pubkey} {w w' : Accounts}

theorem Effects.mem {keys : List Pubkey} {w₀ : Accounts}
    (h : Effects payer names keys w₀ paidIn takenOut w) (hk : k ∈ w₀) :
    k ∈ w := by
  induction h with
  | refl => exact hk
  | write _ _ ih => exact mem_insert.2 (.inr ih)

theorem ContractEffect.mem {programId : Pubkey} (h : ContractEffect programId payer names w w')
    (hk : k ∈ w) :
    k ∈ w' := by
  by_cases hname : k ∈ names
  · obtain ⟨after, hafter, _⟩ := h.write k hname
    exact Finmap.mem_iff.2 ⟨after, hafter⟩
  · rw [Finmap.mem_iff, h.frame k hname]
    exact Finmap.mem_iff.1 hk

/-- No execution drops a copy. -/
theorem Runs.mem {e : Execution} (h : Runs cfg e) (hk : k ∈ e.before) : k ∈ e.after := by
  cases h with
  | native _ hrun =>
    obtain ⟨paidIn, takenOut, heffects⟩ := NativeProgram.process_effects _ _ hrun
    exact heffects.mem hk
  | contract _ heffect => exact heffect.mem hk

omit [Crypto]

/-- What working copies cover is read from them as it is. -/
theorem Covers.lookup_eq (h : Covers w store names) (hk : k ∈ names) :
    w.lookup k = (w ∪ store).lookup k := by
  rw [lookup_union_eq]
  rcases h k hk with hmem | hmem
  · obtain ⟨account, hlookup⟩ := Finmap.mem_iff.1 hmem
    rw [hlookup, some_or]
  · rw [lookup_eq_none.2 hmem, or_none]

theorem Covers.mono (h : Covers w store names) (hw : ∀ k ∈ w, k ∈ w') : Covers w' store names := by
  intro k hk
  exact (h k hk).imp_left (hw k)

theorem Covers.subset {names' : List Pubkey} (h : Covers w store names) (hnames : names' ⊆ names) :
    Covers w store names' :=
  fun k hk => h k (hnames hk)

theorem Covers.head {ix : Instruction} {rest : List Instruction}
    (h : Covers w store (payer :: (ix :: rest).flatMap (·.accounts))) :
    Covers w store (payer :: ix.accounts) := by
  refine h.subset (cons_subset_cons _ ?_)
  exact subset_append_left _ _

theorem Covers.tail {ix : Instruction} {rest : List Instruction}
    (h : Covers w store (payer :: (ix :: rest).flatMap (·.accounts))) (hw : ∀ k ∈ w, k ∈ w') :
    Covers w' store (payer :: rest.flatMap (·.accounts)) := by
  refine (h.mono hw).subset (cons_subset_cons _ ?_)
  exact subset_append_right _ _

end

namespace Ledger

variable [Crypto] [WasmEngine] {cfg : LedgerConfig} {tx : Transaction} {collector : Pubkey}
  {round dust : U64} {s₀ store : Accounts} {es : List Execution} {paidIn takenOut : ℕ}
  {admission : Admission} {l : Ledger}

variable {storeIn storeOut : ℕ} {w : Accounts}

omit [Crypto] in
theorem wp_validateDeploy {ix : Instruction} {Q : Unit → Accounts → Prop} (h : Q () w) :
    Wp (validateDeploy ix) w Q := by
  unfold validateDeploy
  split
  · rw [wp_ite]
    refine ⟨fun _ => ?_, fun _ => (wp_pure _).2 h⟩
    split
    · exact (wp_throw _).2 trivial
    · exact (wp_pure _).2 h
  · exact (wp_pure _).2 h

/-- An instruction runs its native program or a deployed one. -/
theorem dispatch_runs {ix : Instruction} {totalGasFee : U64} :
    Wp (match nativeProgram cfg.economicsV7 ix.programId with
      | some program => do
        program.process ix tx.message.payer round
        pure 0
      | none => callDeployed store tx admission totalGasFee ix round) w fun _ w' =>
        Runs cfg ⟨ix, tx.message.payer, round, w, w'⟩ := by
  split
  next program hprogram =>
    simp only [wp_rules]
    exact fun _ w' hrun => .native hprogram hrun
  next hnone =>
    simp only [callDeployed, wp_rules]
    intro _ _ _ _ _
    exact runWasmInstruction_effect.mono fun _ w' heffect => .contract hnone heffect

/-- An instruction that succeeds has run. -/
theorem execInstruction_runs {ix : Instruction} {totalGasFee : U64} :
    Wp (execInstruction cfg store tx admission round totalGasFee ix) w fun _ w' =>
      Runs cfg ⟨ix, tx.message.payer, round, w, w'⟩ := by
  unfold execInstruction
  simp only [wp_ite, wp_bind]
  exact ⟨fun _ => wp_validateDeploy dispatch_runs, fun _ => dispatch_runs⟩

/-! ### The instructions -/

/-- The instructions of a transaction, until one fails. The store changes only by the charge for
a call that trapped. -/
theorem execInstructions_steps {instructions : List Instruction} {totalGasFee : U64}
    (h : Steps cfg tx.message.payer collector round dust s₀ es paidIn takenOut (w ∪ l.store))
    (hstore : Steps cfg tx.message.payer collector round dust s₀ [] storeIn storeOut l.store)
    (hcovers : Covers w l.store (tx.message.payer :: instructions.flatMap (·.accounts))) :
    Wp (execInstructions cfg tx collector admission round instructions w totalGasFee) l
      fun r l' => match r with
        | .ok (w', _) => l' = l ∧
          Steps cfg tx.message.payer collector round dust s₀
            (es ++ executed cfg l.store tx admission round instructions w totalGasFee)
            paidIn takenOut (w' ∪ l.store)
        | .error _ => ∃ paid charged, (cfg.economicsV7 → paid ≤ charged) ∧
          Steps cfg tx.message.payer collector round dust s₀ [] (storeIn + paid)
            (storeOut + charged) l'.store := by
  induction instructions generalizing w totalGasFee es with
  | nil =>
    rw [execInstructions, wp_pure, executed, append_nil]
    exact ⟨rfl, h⟩
  | cons ix rest ih =>
    simp only [execInstructions, wp_rules, wp_runOn]
    constructor
    · intro fee w' hrun
      have hruns : Runs cfg ⟨ix, tx.message.payer, round, w, w'⟩ := execInstruction_runs _ _ hrun
      have hstep := h.exec hcovers.head rfl rfl hruns
      refine (ih hstep (hcovers.tail fun k hk => hruns.mem hk)).mono ?_
      intro r l' hr
      cases r with
      | error e => exact hr
      | ok result =>
        obtain ⟨hl, hsteps⟩ := hr
        refine ⟨hl, ?_⟩
        have hexecuted : executed cfg l.store tx admission round (ix :: rest) w totalGasFee =
            ⟨ix, tx.message.payer, round, w, w'⟩ ::
              executed cfg l.store tx admission round rest w' (Word.clamp (totalGasFee + fee)) := by
          rw [executed, hrun]
        rw [hexecuted, append_cons]
        exact hsteps
    · intro e _
      simp only [wp_ite, wp_rules]
      refine ⟨fun _ => hstore.billTrappedWasmFuel.mono fun _ _ h' => h', fun _ => ?_⟩
      exact ⟨0, 0, fun _ => le_rfl, hstore⟩

/-! ### The end of a transaction -/

section

omit [WasmEngine]

omit [Crypto] in
/-- Dust is burned where working copies are written back. -/
theorem lookup_swept {k : Pubkey} :
    Swept dust (w ∪ store) (w.mapValues (sweep cfg collector dust) ∪ store) k := by
  rw [Swept, lookup_union_eq, lookup_union_eq, lookup_mapValues]
  cases w.lookup k with
  | none => exact .inl rfl
  | some account =>
    rw [map_some, some_or, some_or, sweep]
    by_cases hdust : isDust cfg collector dust k account
    · rw [if_pos hdust]
      obtain ⟨_, howner, _, hlt⟩ := of_decide_eq_true hdust
      exact .inr ⟨account, rfl, howner, hlt, rfl⟩
    · rw [if_neg hdust]
      exact .inl rfl

/-- What follows the instructions. If the fee was reserved in full, no more is credited than was
taken. -/
theorem settle_steps (funded : Prop) {r : Except ExecError (Accounts × U64)}
    (hv7 : funded → cfg.economicsV7)
    (hstore : Steps cfg tx.message.payer collector round dust s₀ [] storeIn storeOut l.store)
    (hstoreFunded : funded →
      storeIn + (admission.byteFee + tx.message.priorityFee : ℕ) ≤ storeOut)
    (hview : ∀ w gas, r = .ok (w, gas) →
      Steps cfg tx.message.payer collector round dust s₀ es storeIn storeOut (w ∪ l.store))
    (hdust : dust = admission.params.dustThreshold) :
    Wp (settle cfg tx collector admission r) l fun result l' =>
      ∃ paidIn takenOut, (funded → paidIn ≤ takenOut) ∧
        Steps cfg tx.message.payer collector round dust s₀
          (if result.isOk then es else []) paidIn takenOut l'.store := by
  have hpaid : ∀ {paid : ℕ},
      (cfg.economicsV7 → paid ≤ (admission.byteFee : ℕ) + tx.message.priorityFee) →
      funded → storeIn + paid ≤ storeOut := by
    intro paid hle hfunded
    have := hle (hv7 hfunded)
    have := hstoreFunded hfunded
    omega
  cases r with
  | error e =>
    have hprogress : Progress cfg tx.message.payer collector round dust s₀ s₀ [] false none l.store
        storeIn storeOut storeIn storeOut := ⟨rfl, hstore, hstore⟩
    refine hprogress.distributeUpfrontFee.bind ?_
    rintro result l₁ ⟨paid, hle, hends⟩
    cases result with
    | error e' => exact (wp_pure _).2 ⟨_, _, hpaid hle, hends⟩
    | ok working => exact (wp_pure _).2 ⟨_, _, hpaid hle, hends.store⟩
  | ok result =>
    obtain ⟨w, gas⟩ := result
    have hprogress : Progress cfg tx.message.payer collector round dust s₀ s₀ es true (some w)
        l.store storeIn storeOut storeIn storeOut := ⟨rfl, hview w gas rfl, hstore⟩
    refine hprogress.distributeUpfrontFee.bind ?_
    rintro result l₁ ⟨paid, hle, hends⟩
    cases result with
    | error e => exact (wp_pure _).2 ⟨_, _, hpaid hle, hends⟩
    | ok working =>
      obtain ⟨w₁, rfl⟩ := isSome_iff_exists.1 (Progress.isSome hends)
      rw [wp_ite]
      refine ⟨fun _ => (wp_pure _).2 ⟨_, _, hpaid hle, Progress.store hends⟩, fun _ => ?_⟩
      rw [wp_bind]
      refine (Progress.chargeGas hends).mono ?_
      intro charged l₂ hcharged
      cases charged with
      | error e => exact (wp_pure _).2 ⟨_, _, hpaid hle, hcharged⟩
      | ok w₂ =>
        obtain ⟨gasPaid, hgas, hsteps⟩ := hcharged
        simp only [commit, wp_rules, wp_modify]
        refine ⟨_, _, fun hfunded => ?_, hsteps.sweep fun k => ?_⟩
        · have hfees := hpaid hle hfunded
          have hgasLe := hgas (hv7 hfunded)
          exact Nat.add_le_add hfees hgasLe
        · rw [hdust]
          exact lookup_swept

/-! ### The start of a transaction -/

omit [Crypto] in
theorem wp_checkRegistryStatus {isNewAccount : Bool} {Q : Option ExecError → Ledger → Prop}
    (h : ∀ e, Q e l) : Wp (checkRegistryStatus tx isNewAccount round) l Q := by
  unfold checkRegistryStatus currentRegistry
  split
  · exact (wp_pure _).2 (h _)
  · split
    · exact (wp_pure _).2 (h _)
    · simp only [wp_rules]
      split
      · simp only [wp_pure]
        exact h _
      · simp only [wp_rules]
        exact fun _ _ => h _

/-- The accounts after the close of the quantos that are due when a transaction is applied. -/
def closed (cfg : LedgerConfig) (tx : Transaction) (round : U64) (l : Ledger) : Accounts :=
  if tx.verifySignature = false then
    l.store
  else
    match (checkRegistryStatus tx ((payerAccountOf tx l).nonce = (0 : ℕ)) round).run l with
    | .ok (none, l₁) =>
      match (closeDueQuantos cfg round).run l₁ with
      | .ok (_, l₂) => l₂.store
      | .error _ => l.store
    | _ => l.store

/-- What holds of the accounts before the quantos that are due are closed and after. -/
theorem closed_of {P : Accounts → Prop} (h : P l.store)
    (hclose : Wp (closeDueQuantos cfg round) l fun _ l' => P l'.store) :
    P (closed cfg tx round l) := by
  unfold closed
  split_ifs
  · exact h
  · split
    next l₁ hcheck =>
      obtain rfl : l₁ = l :=
        wp_checkRegistryStatus (Q := fun _ l' => l' = l) (fun _ => rfl) _ _ hcheck
      split
      next hrun => exact hclose _ _ hrun
      · exact h
    · exact h

theorem closed_closes : ∃ paidIn takenOut, (cfg.hardCapSupply → paidIn ≤ takenOut) ∧
    Closes l.store paidIn takenOut (closed cfg tx round l) :=
  closed_of (P := fun v => ∃ paidIn takenOut, (cfg.hardCapSupply → paidIn ≤ takenOut) ∧
    Closes l.store paidIn takenOut v) ⟨0, 0, fun _ => le_rfl, .refl⟩ closeDueQuantos_closes

theorem precheck_steps {payerAccount : Account}
    (h : Steps cfg tx.message.payer collector round dust s₀ [] paidIn takenOut l.store) :
    Wp (precheck tx payerAccount round) l fun r l' =>
      Steps cfg tx.message.payer collector round dust s₀ [] paidIn takenOut l'.store ∧
        ∀ admission, r = .ok admission → l' = l ∧
          storedParams l.store = some admission.params ∧
          admission.upfrontFee = Word.clamp (admission.byteFee + tx.message.priorityFee) ∧
          admission.upfrontFee ≤ payerAccount.balance := by
  -- a refusal still advances the dynamic fee, except one by the nonce
  have hrefuse : ∀ e : ExecError, Wp (do
      advanceDynamicFee round 0
      pure (.error e : Except ExecError Admission)) l fun r l' =>
        Steps cfg tx.message.payer collector round dust s₀ [] paidIn takenOut l'.store ∧
          ∀ admission, r = .ok admission → l' = l ∧
            storedParams l.store = some admission.params ∧
            admission.upfrontFee = Word.clamp (admission.byteFee + tx.message.priorityFee) ∧
            admission.upfrontFee ≤ payerAccount.balance := by
    intro e
    simp only [wp_rules]
    exact h.advanceDynamicFee.mono fun _ l' h' => ⟨h', fun _ hok => by cases hok⟩
  have hbase : ∀ {Q : U64 → Ledger → Prop}, (∀ base, Q base l) →
      Wp (effectiveBaseFeeAt round) l Q := by
    intro Q hQ
    simp only [effectiveBaseFeeAt, wp_rules, wp_currentParams]
    intro _ _
    split
    · exact (wp_pure _).2 (hQ _)
    · simp only [wp_rules]
      exact fun _ _ => hQ _
  unfold precheck
  simp only [wp_ite]
  refine ⟨fun _ => hrefuse _, fun _ => ⟨fun _ => hrefuse _, fun _ => ?_⟩⟩
  rw [wp_bind, wp_currentParams]
  intro params hparams
  rw [wp_bind]
  refine hbase fun base => ?_
  simp only [wp_ite, wp_pure]
  refine ⟨fun _ => hrefuse _, fun hbalance => ⟨fun _ => hrefuse _, fun _ => ?_⟩⟩
  refine ⟨fun _ => ⟨h, fun _ hok => by cases hok⟩, fun _ =>
    ⟨fun _ => ⟨h, fun _ hok => by cases hok⟩, fun _ => ⟨h, fun admission hok => ?_⟩⟩⟩
  obtain rfl := Except.ok.inj hok
  exact ⟨trivial, hparams, rfl, not_lt.1 hbalance⟩

omit [Crypto] in
theorem balance_payerAccountOf :
    ((payerAccountOf tx l).balance : ℕ) = l.store.balanceOf tx.message.payer := by
  unfold payerAccountOf
  cases hlookup : l.store.lookup tx.message.payer with
  | none =>
    rw [balanceOf_of_lookup_none hlookup]
    rfl
  | some account =>
    rw [balanceOf_of_lookup hlookup]
    rfl

omit [Crypto] in
/-- The payer's account as it was before quantos were closed, against the one after. -/
theorem payerAccountOf_closes {v : Accounts} (hcloses : Closes l.store paidIn takenOut v)
    (hpayer : tx.message.payer ∉ closingKeys) :
    l.store.balanceOf tx.message.payer ≤ v.balanceOf tx.message.payer ∧
      (payerAccountOf tx l).nonce = (v.getOrNew tx.message.payer systemProgramId).nonce ∧
      ∃ algorithmId, ∀ balance nonce : U64,
        { payerAccountOf tx l with balance := balance, nonce := nonce } =
          { v.getOrNew tx.message.payer systemProgramId with
            balance := balance, nonce := nonce, algorithmId := algorithmId } := by
  refine ⟨?_, ?_, (payerAccountOf tx l).algorithmId, fun balance nonce => ?_⟩
  · rcases hcloses.lookup_eq_or hpayer with hsame | ⟨balance, hle, hnew⟩
    · exact (balanceOf_congr hsame).ge
    · rw [balanceOf_of_lookup hnew]
      exact hle
  · rcases hcloses.lookup_eq_or hpayer with hsame | ⟨balance', _, hnew⟩
    · rw [getOrNew_congr hsame, payerAccountOf, Accounts.getOrNew]
      cases l.store.lookup tx.message.payer <;> rfl
    · rw [getOrNew_of_lookup hnew, payerAccountOf, Accounts.getOrNew]
      cases l.store.lookup tx.message.payer <;> rfl
  · -- a wallet made by the first transaction or by a reward differs in the algorithm only
    rcases hcloses.lookup_eq_or hpayer with hsame | ⟨balance', _, hnew⟩
    · rw [getOrNew_congr hsame, payerAccountOf, Accounts.getOrNew]
      cases l.store.lookup tx.message.payer <;> rfl
    · rw [getOrNew_of_lookup hnew, payerAccountOf, Accounts.getOrNew]
      cases l.store.lookup tx.message.payer <;> rfl

theorem reserve_steps {l₀ : Ledger} (hcloses : Closes l₀.store storeIn storeOut l.store)
    (hpayer : tx.message.payer ∉ closingKeys) :
    Wp (reserve tx (payerAccountOf tx l₀) admission round) l fun _ l' =>
      Steps cfg tx.message.payer collector round dust l.store [] 0 admission.upfrontFee
        l'.store := by
  obtain ⟨hle, hsame, algorithmId, haccount⟩ := payerAccountOf_closes hcloses hpayer
  simp only [reserve, wp_rules, wp_writeAccount, checkedSub_eq_some, Word.checked_eq_some]
  intro balance hbalance nonce hnonce
  rw [hsame] at hnonce
  have hreserved : (balance : ℕ) + admission.upfrontFee ≤ l.store.balanceOf tx.message.payer := by
    rw [hbalance, balance_payerAccountOf]
    exact hle
  have h : Steps cfg tx.message.payer collector round dust l.store [] 0 admission.upfrontFee
      (l.store.insert tx.message.payer
        { payerAccountOf tx l₀ with balance := balance, nonce := nonce }) := by
    rw [haccount, ← Nat.zero_add (admission.upfrontFee : ℕ)]
    exact .write .refl (.reserve hreserved hnonce)
  exact Steps.advanceDynamicFee (l := { l with store := _ }) h

omit [Crypto] in
/-- The close of quantos does not change parameters that can be read afterwards. -/
theorem storedParams_of_closes {v : Accounts} {params : EconomicParams} {s₀ : Accounts}
    (hcloses : Closes s₀ paidIn takenOut v) (hparams : storedParams v = some params) :
    storedParams s₀ = some params := by
  rw [← hparams, storedParams, storedParams]
  rcases hcloses.lookup_eq_or (k := paramsAccountId) (by decide +kernel) with
    hsame | ⟨balance, _, hnew⟩
  · rw [hsame]
  · rw [hnew]
    cases hlookup : s₀.lookup paramsAccountId with
    | some account => rw [getOrNew_of_lookup hlookup]
    | none =>
      -- the account a reward makes has no data, which are no parameters
      have hempty : EconomicParams.readOrLegacy [] = none := by decide +kernel
      rw [storedParams, hnew, Accounts.getOrNew, hlookup] at hparams
      exact absurd (hempty.symm.trans hparams) (by simp)

/-- The dust threshold of the accounts. -/
def storedDust (accounts : Accounts) : U64 :=
  ((storedParams accounts).map (·.dustThreshold)).getD 0

/-- The start of a transaction: the quantos that are due are closed and the upfront fee is
taken. -/
theorem start_steps (collector : Pubkey)
    (hpayer : tx.verifySignature = true → tx.message.payer ∉ closingKeys) :
    Wp (start cfg tx round) l fun r l' =>
      match r with
      | .error _ => ∀ dust, Steps cfg tx.message.payer collector round dust
          (closed cfg tx round l) [] 0 0 l'.store
      | .ok admission =>
        (∀ dust, Steps cfg tx.message.payer collector round dust
          (closed cfg tx round l) [] 0 admission.upfrontFee l'.store) ∧
        admission.params.dustThreshold = storedDust l.store ∧
        (l.store.balanceOf tx.message.payer < 2 ^ 64 - 1 →
          (admission.byteFee + tx.message.priorityFee : ℕ) ≤ admission.upfrontFee) := by
  unfold start closed
  by_cases hsig : tx.verifySignature = false
  · rw [if_pos hsig, if_pos hsig, wp_pure]
    exact fun _ => .refl
  · rw [if_neg hsig, if_neg hsig, wp_bind, wp_get, wp_bind]
    intro refusal l₁ hcheck
    obtain rfl : l₁ = l :=
      wp_checkRegistryStatus (Q := fun _ l' => l' = l) (fun _ => rfl) _ _ hcheck
    rw [hcheck]
    cases refusal with
    | some e => exact (wp_pure _).2 fun _ => .refl
    | none =>
      rw [wp_bind]
      intro _ l₂ hclose
      obtain ⟨paidIn, takenOut, _, hcloses⟩ := closeDueQuantos_closes _ _ hclose
      simp only [hclose]
      have hpayer' := hpayer (Bool.eq_true_of_not_eq_false hsig)
      have hstart : ∀ dust, Steps cfg tx.message.payer collector round dust l₂.store [] 0 0
          l₂.store := fun _ => .refl
      rw [wp_bind]
      intro r l₃ hprecheck
      have h₃ := fun dust => precheck_steps (hstart dust) _ _ hprecheck
      cases r with
      | error e => exact (wp_pure _).2 fun dust => (h₃ dust).1
      | ok admission =>
        obtain ⟨rfl, hparams, hupfront, hfunds⟩ := (h₃ 0).2 admission rfl
        simp only [wp_rules]
        intro _ l₄ hreserve
        refine ⟨fun dust => reserve_steps hcloses hpayer' _ _ hreserve, ?_, fun hmax => ?_⟩
        · rw [storedDust, storedParams_of_closes hcloses hparams]
          rfl
        · rw [Word.le_iff, balance_payerAccountOf] at hfunds
          have hclamp : (admission.upfrontFee : ℕ) =
              min (admission.byteFee + tx.message.priorityFee : ℕ) (2 ^ 64 - 1) := by
            rw [hupfront]
            exact Word.toNat_clamp _
          omega

end

/-! ### The whole transaction -/

/-- The executions that a transaction leaves behind: none if it fails. -/
def committed (cfg : LedgerConfig) (tx : Transaction) (round : U64) (l : Ledger)
    (result : Except ExecError U64) : List Execution :=
  if result.isOk then executions cfg tx round l else []

/-- What follows the start of a transaction. If the fee was reserved in full, no more is credited
than was taken. -/
theorem admitted_steps (funded : Prop) (hv7 : funded → cfg.economicsV7)
    (h : Steps cfg tx.message.payer collector round dust s₀ [] storeIn storeOut l.store)
    (hfunds : funded → storeIn + (admission.byteFee + tx.message.priorityFee : ℕ) ≤ storeOut)
    (hdust : dust = admission.params.dustThreshold) :
    Wp (do
      let result ← execInstructions cfg tx collector admission round tx.message.instructions
        (workingSet tx l.store) 0
      settle cfg tx collector admission result) l fun r l' =>
        ∃ paidIn takenOut, (funded → paidIn ≤ takenOut) ∧
          Steps cfg tx.message.payer collector round dust s₀
            (if r.isOk then executed cfg l.store tx admission round tx.message.instructions
              (workingSet tx l.store) 0 else []) paidIn takenOut l'.store := by
  have hview : Steps cfg tx.message.payer collector round dust s₀ [] storeIn storeOut
      (workingSet tx l.store ∪ l.store) := by
    rw [workingSet, copies_union]
    exact h
  have hcovers : Covers (workingSet tx l.store) l.store
      (tx.message.payer :: tx.message.instructions.flatMap (·.accounts)) := covers_copies
  rw [wp_bind]
  refine Wp.mono (execInstructions_steps hview h hcovers) fun result l₂ hresult => ?_
  cases result with
  | error e =>
    obtain ⟨paid, charged, hpaid, h₂⟩ := hresult
    refine settle_steps funded hv7 h₂ (fun hfunded => ?_) (fun w gas h => nomatch h) hdust
    have := hpaid (hv7 hfunded)
    have := hfunds hfunded
    omega
  | ok result =>
    obtain ⟨rfl, h₂⟩ := hresult
    refine settle_steps funded hv7 h hfunds (fun w gas heq => ?_) hdust
    obtain rfl := Except.ok.inj heq
    exact h₂

/-- Applying a transaction, after the close of quantos. Unless the payer holds as much as an
account can hold, no more is credited than was taken. -/
theorem applyTransaction_steps
    (hpayer : tx.verifySignature = true → tx.message.payer ∉ closingKeys) :
    Wp (applyTransaction cfg tx collector round) l fun r l' =>
      ∃ paidIn takenOut,
        (cfg.economicsV7 ∧ l.store.balanceOf tx.message.payer < 2 ^ 64 - 1 →
          paidIn ≤ takenOut) ∧
        Steps cfg tx.message.payer collector round (storedDust l.store) (closed cfg tx round l)
          (committed cfg tx round l r) paidIn takenOut l'.store := by
  unfold applyTransaction
  rw [wp_bind]
  intro r l₁ hstart
  have hsteps := start_steps collector hpayer _ _ hstart
  cases r with
  | error e => exact (wp_pure _).2 ⟨0, 0, fun _ => le_rfl, hsteps _⟩
  | ok admission =>
    obtain ⟨hreserved, hdust, hfunds⟩ := hsteps
    have hexecutions : executions cfg tx round l = executed cfg l₁.store tx admission round
        tx.message.instructions (workingSet tx l₁.store) 0 := by
      rw [executions, hstart]
    simp only [committed, hexecutions]
    refine admitted_steps _ (fun h => h.1) (hreserved _) (fun hfunded => ?_) hdust.symm
    omega

end Ledger

end QChain
