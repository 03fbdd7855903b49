import QChain.Execution.Admission
import QChain.Execution.Chain

/-!
# What a transaction costs its payer

The payer is charged at three places: the upfront fee is reserved before anything runs, the gas of a
transaction that succeeds is taken from the payer's working copy, and the fuel of a call that traps
is billed to the payer's account in the store. Every contract call is metered to what the signed
limit still allows. Nothing else the ledger does for a transaction lowers the payer's balance.
-/

namespace QChain

open Accounts Exec Finmap Transact

/-! ### Balances that only grow -/

section

variable [Crypto] {cfg : LedgerConfig} {payer collector k : Pubkey} {round : U64}
  {s₀ s₁ v : Accounts} {paidIn takenOut storeIn storeOut : ℕ}

omit [Crypto] in
/-- The ledger's own writes lower no balance but the payer's. -/
theorem LedgerWrite.balanceOf_le {k' : Pubkey} {account : Account}
    (h : LedgerWrite cfg payer collector v k' account paidIn takenOut) (hk : k ≠ payer) :
    v.balanceOf k ≤ balanceOf (v.insert k' account) k := by
  rw [balanceOf_insert]
  split_ifs with heq
  · subst heq
    cases h with
    | fee _ hbalance =>
      rw [hbalance]
      exact Nat.le_add_right _ _
    | charge | reserve => exact absurd rfl hk
    | feeState => exact balance_getOrNew.ge
    | rewardPool _ hbalance => exact hbalance
  · exact le_rfl

/-- Steps without executions, where no balance is dust, lower none but the payer's. -/
theorem Steps.balanceOf_le (h : Steps cfg payer collector round 0 s₀ [] paidIn takenOut v)
    (hk : k ≠ payer) : s₀.balanceOf k ≤ v.balanceOf k := by
  generalize hes : ([] : List Execution) = es at h
  induction h with
  | refl => exact le_rfl
  | write _ hwrite ih => exact (ih hes).trans (hwrite.balanceOf_le hk)
  | exec => exact absurd hes (by simp)
  | sweep _ hsweep ih =>
    rcases hsweep k with hsame | ⟨_, _, _, hlt, _⟩
    · exact (ih hes).trans (balanceOf_congr hsame).ge
    · exact absurd hlt (Nat.not_lt_zero _)
  | weaken _ _ _ ih => exact ih hes

/-- However a distribution of fees ends, no balance but the payer's is lower, in the store and, if
it succeeds, among the copies over it. -/
theorem Progress.Ends.balanceOf_le {copied : Bool} {r : Except ExecError (Option Accounts)}
    {l : Ledger} (h : Ends cfg payer collector round 0 s₀ s₁ [] copied paidIn takenOut storeIn
      storeOut r l) (hk : k ≠ payer) :
    s₁.balanceOf k ≤ l.store.balanceOf k ∧ ∀ working, r = .ok working →
      working.isSome = copied ∧ s₀.balanceOf k ≤ (overlay working l.store).balanceOf k := by
  cases r with
  | error e => exact ⟨Steps.balanceOf_le h hk, fun _ heq => by cases heq⟩
  | ok working =>
    refine ⟨h.store.balanceOf_le hk, fun working' heq => ?_⟩
    obtain rfl := Except.ok.inj heq
    exact ⟨h.isSome, h.view.balanceOf_le hk⟩

end

namespace Ledger

variable [Crypto] {cfg : LedgerConfig} {tx : Transaction} {collector : Pubkey} {round : U64}
  {admission : Admission} {l : Ledger} {w : Accounts} {gas : U64}

omit [Crypto] in
/-- An address to take for a payer that an account is not. -/
theorem exists_payer_ne (k : Pubkey) : ∃ payer : Pubkey, k ≠ payer := by
  by_cases h : k = systemProgramId
  · refine ⟨stakingProgramId, ?_⟩
    rw [h]
    decide +kernel
  · exact ⟨systemProgramId, h⟩

/-- The dynamic fee lowers no balance. -/
theorem balanceOf_advanceDynamicFee {txBytes : U64} {k : Pubkey} :
    Wp (advanceDynamicFee round txBytes) l fun _ l' =>
      l.store.balanceOf k ≤ l'.store.balanceOf k := by
  obtain ⟨payer, hpayer⟩ := exists_payer_ne k
  have h : Steps ⟨false, 0, false, k⟩ payer k round 0 l.store [] 0 0 l.store := .refl
  exact h.advanceDynamicFee.mono fun _ _ h' => h'.balanceOf_le hpayer

/-- Neither does the distribution of byte fee and tip. -/
theorem balanceOf_distributeUpfrontFee {working : Option Accounts} {k : Pubkey} :
    Wp (distributeUpfrontFee cfg tx collector admission working) l fun r l' =>
      l.store.balanceOf k ≤ l'.store.balanceOf k ∧ ∀ working', r = .ok working' →
        working'.isSome = working.isSome ∧
          (overlay working l.store).balanceOf k ≤ (overlay working' l'.store).balanceOf k := by
  obtain ⟨payer, hpayer⟩ := exists_payer_ne k
  have h : Progress cfg payer collector 0 0 (overlay working l.store) l.store [] working.isSome
      working l.store 0 0 0 0 := ⟨rfl, .refl, .refl⟩
  refine h.distributeUpfrontFee.mono ?_
  rintro r l' ⟨paid, _, hends⟩
  exact hends.balanceOf_le hpayer

/-! ### Charges -/

/-- What is reserved is the upfront fee. -/
theorem balanceOf_reserve {account : Account} :
    Wp (reserve tx account admission round) l fun _ l' =>
      (account.balance : ℕ) ≤ l'.store.balanceOf tx.message.payer + admission.upfrontFee := by
  simp only [reserve, wp_rules, wp_writeAccount, checkedSub_eq_some]
  intro balance hbalance nonce _
  refine (balanceOf_advanceDynamicFee (k := tx.message.payer)).mono fun _ l' hle => ?_
  rw [balanceOf_insert, if_pos rfl] at hle
  dsimp only at hle
  omega

/-- What a trapped call is billed is at most what the upfront fee leaves of the signed limit. -/
theorem balanceOf_billTrappedWasmFuel {err : ExecError} :
    Wp (billTrappedWasmFuel cfg tx collector admission err) l fun _ l' =>
      l.store.balanceOf tx.message.payer ≤ l'.store.balanceOf tx.message.payer +
        (tx.message.feeLimit - admission.upfrontFee) := by
  unfold billTrappedWasmFuel
  split
  next message fuelConsumed =>
    simp only [wp_ite, wp_rules, wp_currentParams]
    refine ⟨fun _ params _ => ?_, fun _ => Nat.le_add_right _ _⟩
    cases hlookup : l.store.lookup tx.message.payer with
    | none => exact (wp_pure _).2 (Nat.le_add_right _ _)
    | some account =>
      simp only [wp_rules, wp_writeAccount]
      generalize hcharge : min (min (Word.clamp (fuelConsumed * params.gasPricePerFuel) : U64)
        (Word.ofNat (tx.message.feeLimit - admission.upfrontFee))) account.balance = charge
      have hfunds : charge ≤ account.balance := hcharge ▸ min_le_right _ _
      have hlimit : charge ≤ Word.ofNat (tx.message.feeLimit - admission.upfrontFee) :=
        hcharge ▸ (min_le_left _ _).trans (min_le_right _ _)
      have hle : (charge : ℕ) ≤ tx.message.feeLimit - admission.upfrontFee :=
        (Word.le_iff.1 hlimit).trans (Nat.mod_le _ _)
      obtain ⟨payer, hpayer⟩ := exists_payer_ne tx.message.payer
      have h : Progress cfg payer collector 0 0 _ _ [] false none (l.store.insert tx.message.payer
          { account with balance := Word.ofNat (account.balance - charge) }) 0 0 0 0 :=
        ⟨rfl, .refl, .refl⟩
      refine Wp.mono (Progress.distributeFee (l := { l with store := _ }) h) ?_
      rintro r l' ⟨paid, _, hends⟩
      have hgrown := (hends.balanceOf_le hpayer).1
      rw [balanceOf_insert, if_pos rfl] at hgrown
      dsimp only at hgrown
      have hpaid := toNat_ofNat_sub_add (Word.le_iff.1 hfunds)
      rw [balanceOf_of_lookup hlookup]
      omega
  next => exact (wp_pure _).2 (Nat.le_add_right _ _)

/-- What is charged for gas is the fee for it, and nothing if the charge fails. -/
theorem balanceOf_chargeGas : Wp (chargeGas cfg tx collector w gas) l fun r l' => match r with
      | .ok w' => balanceOf (w ∪ l.store) tx.message.payer ≤
          balanceOf (w' ∪ l'.store) tx.message.payer + gas
      | .error _ => l'.store = l.store := by
  unfold chargeGas
  simp only [wp_ite, wp_pure]
  refine ⟨fun _ => Nat.le_add_right _ _, fun _ => ?_⟩
  cases hlookup : w.lookup tx.message.payer with
  | none => exact (wp_pure _).2 rfl
  | some account =>
    simp only [wp_ite, wp_pure, implies_true, true_and]
    intro hfunds
    obtain ⟨payer, hpayer⟩ := exists_payer_ne tx.message.payer
    have h : Progress cfg payer collector 0 0 _ l.store [] true (some (w.insert tx.message.payer
        { account with balance := Word.ofNat (account.balance - gas) })) l.store 0 0 0 0 :=
      ⟨rfl, .refl, .refl⟩
    refine h.distributeGas.mono fun r l' hr => ?_
    cases r with
    | error e => exact hr
    | ok w' =>
      obtain ⟨paid, _, hsteps⟩ := hr
      have hgrown := hsteps.balanceOf_le hpayer
      rw [overlay, Option.elim_some, ← insert_union, balanceOf_insert, if_pos rfl] at hgrown
      dsimp only at hgrown
      have hpaid := toNat_ofNat_sub_add (Word.le_iff.1 (not_lt.1 hfunds))
      have hview : (w ∪ l.store).lookup tx.message.payer = some account := by
        rw [lookup_union_eq, hlookup, Option.some_or]
      rw [balanceOf_of_lookup hview]
      omega

/-- What follows the instructions charges the fee for gas if the transaction succeeds, and nothing
if it fails. Of a transaction that succeeds the copies are written back, but for dust. -/
theorem balanceOf_settle {r : Except ExecError (Accounts × U64)} :
    Wp (settle cfg tx collector admission r) l fun result l' => match result with
      | .ok fee => ∃ w gas settled, r = .ok (w, gas) ∧
          fee = Word.clamp (admission.upfrontFee + gas) ∧
          Swept admission.params.dustThreshold settled l'.store tx.message.payer ∧
          balanceOf (w ∪ l.store) tx.message.payer ≤ settled.balanceOf tx.message.payer + gas
      | .error _ => l.store.balanceOf tx.message.payer ≤ l'.store.balanceOf tx.message.payer := by
  cases r with
  | error e =>
    refine (balanceOf_distributeUpfrontFee (k := tx.message.payer)).bind ?_
    rintro (_ | _) l₁ ⟨hstore, _⟩ <;> exact (wp_pure _).2 hstore
  | ok result =>
    obtain ⟨w, gas⟩ := result
    refine (balanceOf_distributeUpfrontFee (k := tx.message.payer)).bind ?_
    rintro result l₁ ⟨hstore, hview⟩
    cases result with
    | error e => exact (wp_pure _).2 hstore
    | ok working =>
      obtain ⟨hsome, hview⟩ := hview working rfl
      obtain ⟨w₁, rfl⟩ := Option.isSome_iff_exists.1 hsome
      rw [wp_ite]
      refine ⟨fun _ => (wp_pure _).2 hstore, fun _ => ?_⟩
      refine balanceOf_chargeGas.bind fun charged l₂ hcharged => ?_
      cases charged with
      | error e =>
        rw [wp_pure, hcharged]
        exact hstore
      | ok w₂ =>
        simp only [commit, wp_rules, wp_modify]
        exact ⟨w, gas, w₂ ∪ l₂.store, rfl, rfl, lookup_swept, hview.trans hcharged⟩

variable [WasmEngine] {store : Accounts} {ix : Instruction} {instructions : List Instruction}

/-! ### Metering -/

omit [Crypto] [WasmEngine] in
/-- The fuel a call is given is paid for by what is left of a budget. -/
theorem wasmFuelBudget_mul_le {budget price : U64} (hprice : 0 < (price : ℕ)) :
    (wasmFuelBudget budget price : ℕ) * price ≤ budget := by
  rw [wasmFuelBudget, if_neg (Nat.pos_iff_ne_zero.1 hprice)]
  have hle : (min (Word.ofNat (budget / price)) defaultFuelLimit : U64) ≤
      Word.ofNat (budget / price) := min_le_left _ _
  calc ((min (Word.ofNat (budget / price)) defaultFuelLimit : U64) : ℕ) * price
      ≤ ((Word.ofNat (budget / price) : U64) : ℕ) * price := Nat.mul_le_mul_right _ hle
    _ ≤ (budget / price : ℕ) * price := Nat.mul_le_mul_right _ (Nat.mod_le _ _)
    _ ≤ budget := Nat.div_mul_le_self _ _

/-- A contract call costs no more than the fuel it is given. -/
theorem wp_callContract {moduleBytes : List UInt8} {entryPoint : Utf8} {payer deployer : Pubkey}
    {price fuelLimit : U64} :
    Wp (callContract moduleBytes entryPoint ix payer price round deployer fuelLimit) w fun r _ =>
      (r.1 : ℕ) ≤ fuelLimit * price := by
  simp only [callContract, wp_rules]
  intro _
  split
  next result hresult =>
    have hfuel := WasmCall.fuelConsumed_le hresult
    unfold checkContractCall
    split
    · exact (wp_throw _).2 trivial
    · simp only [wp_rules]
      intro _ _ _ _
      exact (Word.toNat_clamp_le _).trans (Nat.mul_le_mul_right _ hfuel)
  next => exact (wp_throw _).2 trivial

/-- An instruction costs no more than the upfront fee and the gas so far leave of the limit. -/
theorem wp_execInstruction : Wp (execInstruction cfg store tx admission round gas ix) w fun fee _ =>
    (fee : ℕ) ≤ tx.message.feeLimit - admission.upfrontFee - gas := by
  have hcall : Wp (callDeployed store tx admission gas ix round) w fun fee _ =>
      (fee : ℕ) ≤ tx.message.feeLimit - admission.upfrontFee - gas := by
    simp only [callDeployed, runWasmInstruction, wp_rules]
    intro program _ data _ _
    refine wp_callContract.mono fun r w' hfee _ _ _ => ?_
    by_cases hprice : 0 < (admission.params.gasPricePerFuel : ℕ)
    · exact hfee.trans ((wasmFuelBudget_mul_le hprice).trans (Nat.mod_le _ _))
    · rw [Nat.eq_zero_of_not_pos hprice] at hfee
      omega
  unfold execInstruction
  simp only [wp_ite, wp_bind]
  refine ⟨fun hsystem => wp_validateDeploy ?_, fun _ => ?_⟩
  · rw [nativeProgram, if_pos hsystem]
    simp only [wp_rules]
    exact fun _ _ _ => Nat.zero_le _
  · split
    · simp only [wp_rules]
      exact fun _ _ _ => Nat.zero_le _
    · exact hcall

/-- The instructions cost gas within what the upfront fee leaves of the limit, or one fails and the
payer is billed no more than that. -/
theorem balanceOf_execInstructions
    (hgas : (gas : ℕ) ≤ tx.message.feeLimit - admission.upfrontFee) :
    Wp (execInstructions cfg tx collector admission round instructions w gas) l fun r l' =>
      match r with
      | .ok (_, gas') => l' = l ∧ (gas' : ℕ) ≤ tx.message.feeLimit - admission.upfrontFee
      | .error _ => l.store.balanceOf tx.message.payer ≤ l'.store.balanceOf tx.message.payer +
          (tx.message.feeLimit - admission.upfrontFee) := by
  induction instructions generalizing w gas with
  | nil =>
    rw [execInstructions, wp_pure]
    exact ⟨rfl, hgas⟩
  | cons ix rest ih =>
    simp only [execInstructions, wp_rules, wp_runOn]
    constructor
    · refine wp_execInstruction.mono fun fee w' hfee => ih ?_
      have hsum : ((Word.clamp (gas + fee) : U64) : ℕ) ≤ gas + fee := Word.toNat_clamp_le _
      omega
    · intro e _
      simp only [wp_ite, wp_rules]
      refine ⟨fun _ => balanceOf_billTrappedWasmFuel.mono fun _ _ h => h, fun _ => ?_⟩
      exact Nat.le_add_right _ _

/-- However a transaction ends, the ledger takes at most the limit it signed from its payer. After a
failure no more than the limit is missing; a transaction that is refused costs nothing, and leaves
what the close of quantos leaves. One that succeeds is charged the fee it returns: that much at
most is missing from what the payer had before the transaction and from what the instructions made
of it, until dust is swept. -/
theorem charged_le_feeLimit : Wp (applyTransaction cfg tx collector round) l fun result l' =>
    match result with
    | .error e =>
      l.store.balanceOf tx.message.payer ≤
          l'.store.balanceOf tx.message.payer + tx.message.feeLimit ∨
        (start cfg tx round).run l = .ok (.error e, l') ∧
          ∃ l₁, (closeDueQuantos cfg round).run l = .ok ((), l₁) ∧
            l₁.store.balanceOf tx.message.payer ≤ l'.store.balanceOf tx.message.payer
    | .ok fee => (fee : ℕ) ≤ tx.message.feeLimit ∧ ∃ admission l₁ w gas settled,
        (start cfg tx round).run l = .ok (.ok admission, l₁) ∧
        (execInstructions cfg tx collector admission round tx.message.instructions
          (workingSet tx l₁.store) 0).run l₁ = .ok (.ok (w, gas), l₁) ∧
        Swept admission.params.dustThreshold settled l'.store tx.message.payer ∧
        l.store.balanceOf tx.message.payer + balanceOf (w ∪ l₁.store) tx.message.payer ≤
          l₁.store.balanceOf tx.message.payer + settled.balanceOf tx.message.payer + fee := by
  unfold applyTransaction
  rw [wp_bind]
  intro r l₁ hstart
  have hstarted := wp_start _ _ hstart
  cases r with
  | error e =>
    rw [wp_pure]
    rcases hstarted with rfl | ⟨l₂, hclose, rfl | hadvance⟩
    · exact .inl (Nat.le_add_right _ _)
    · exact .inr ⟨hstart, l₁, hclose, le_rfl⟩
    · exact .inr ⟨hstart, l₂, hclose, balanceOf_advanceDynamicFee _ _ hadvance⟩
  | ok admission =>
    obtain ⟨_, l₂, _, hadmitted, hreserve⟩ := hstarted
    have hupfront := balanceOf_reserve _ _ hreserve
    have hlimit : (admission.upfrontFee : ℕ) ≤ tx.message.feeLimit := hadmitted.limit
    rw [balance_payerAccountOf] at hupfront
    simp only [wp_rules]
    intro r l₃ hexec
    have hr := balanceOf_execInstructions (Nat.zero_le _) _ _ hexec
    refine balanceOf_settle.mono fun result l' hresult => ?_
    cases result with
    | error e =>
      left
      cases r with
      | error e' =>
        dsimp only at hr hresult
        omega
      | ok r =>
        obtain ⟨rfl, _⟩ := hr
        dsimp only at hresult
        omega
    | ok fee =>
      obtain ⟨w, gas, settled, rfl, hfee, hswept, hpaid⟩ := hresult
      obtain ⟨rfl, hgas⟩ := hr
      have hlt := tx.message.feeLimit.toNat_lt
      have hsum : (fee : ℕ) = admission.upfrontFee + gas := by
        rw [hfee, Word.toNat_clamp_of_lt (by omega)]
      refine ⟨by omega, admission, l₃, w, gas, settled, hstart, hexec, hswept, ?_⟩
      omega

end Ledger

/-! ### A call that traps

A network with one deployed contract, which takes a number and traps unless it is zero. -/

section Trap

open Ledger

/-- A module whose function `run` traps unless its argument is zero. -/
def fuelModule : List UInt8 :=
  [0, 97, 115, 109, 1, 0, 0, 0, 1, 5, 1, 96, 1, 126, 0, 3, 2, 1, 0, 7, 7, 1, 3, 114, 117, 110, 0,
    0, 10, 12, 1, 10, 0, 32, 0, 80, 4, 64, 5, 0, 11, 11]

/-- SHA3-256 on the keys of the wallets and on the module. -/
@[reducible] def fuelCrypto : Crypto :=
  .ofHashes (walletHashes ++
    [(fuelModule, 0x8e254e0ef9424f1473190c5526660cce381808d4673105bd4da14f32aa69a8af)])

/-- An engine that runs the module, with four units of fuel for its instructions. -/
@[reducible] def fuelEngine : WasmEngine where
  validateDeploy _ _ := none
  run c := .ok
    { calls := []
      remaining := Word.ofNat (c.fuelLimit - 4)
      trap := if c.params = [0] then none else some "unreachable" }

/-- The wallet that pays and has deployed the module. -/
def fuelPayer : Pubkey := fuelCrypto.sha3 (componentBytes (walletKeys 0).components)

/-- The address the first wallet deploys at without a salt. -/
def fuelProgram : Pubkey := 0xcd19c756611f80a6f9e2236832fbf8ae9ba734cb14ca701db076f24cf32a5726

def fuelLedger : Ledger :=
  .ofAccounts <|
    ((∅ : Accounts).insert fuelPayer
      { Account.newWallet systemProgramId with balance := 1000000000 }).insert fuelProgram
      { Account.newWallet loaderProgramId with
        codeHash := fuelCrypto.sha3 fuelModule
        data := (Borsh.toVec
          (WasmProgramData.mk ⟨[114, 117, 110], by decide⟩ fuelModule fuelPayer)).getD [] }

/-- Calls of the module with the given numbers. -/
def fuelTransaction (feeLimit : U64) (arguments : List UInt8) : Transaction where
  message :=
    { version := 1
      payer := fuelPayer
      payerKeys := walletKeys 0
      nonce := 0
      chainId := 0
      feeLimit := feeLimit
      priorityFee := 0
      validUntilRound := 0
      instructions := arguments.map fun n => ⟨fuelProgram, [], n :: List.replicate 7 0⟩ }
  signature := hybridSignature

/-- The wallet that collects the fees. -/
def fuelCollector : Pubkey := fuelCrypto.sha3 (componentBytes (walletKeys 1).components)

/-- A run that is evaluated to a success has a result. -/
theorem exists_run_of_isOk {α : Type} {m : LedgerM α} {l : Ledger}
    (h : (m.run l).isOk = true) : ∃ r l', m.run l = .ok (r, l') := by
  cases hrun : m.run l with
  | ok p => exact ⟨p.1, p.2, rfl⟩
  | error _ =>
    rw [hrun] at h
    cases h

/-- Of two calls the first leaves the second two units of fuel, which it uses up and is billed. -/
theorem Ledger.charged_le_feeLimit_trap :
    let tx := fuelTransaction 58506 [0, 1]
    ∃ e l', (@applyTransaction fuelCrypto fuelEngine ⟨true, 0, false, adminFeeWallet⟩ tx
        fuelCollector 0).run fuelLedger = .ok (.error e, l') ∧
      l'.store.balanceOf fuelPayer = 999941498 ∧
      fuelLedger.store.balanceOf fuelPayer ≤
        l'.store.balanceOf fuelPayer + tx.message.feeLimit := by
  let := fuelCrypto
  let := fuelEngine
  intro tx
  have hresult : ((applyTransaction ⟨true, 0, false, adminFeeWallet⟩ tx fuelCollector 0).run
      fuelLedger).toOption.map (fun r => (r.1.isOk, r.2.store.balanceOf fuelPayer)) =
        some (false, 999941498) := by decide +kernel
  have hstart : ((start ⟨true, 0, false, adminFeeWallet⟩ tx 0).run fuelLedger).toOption.map
      (fun r => r.1.isOk) = some true := by decide +kernel
  cases hrun : (applyTransaction ⟨true, 0, false, adminFeeWallet⟩ tx fuelCollector 0).run
      fuelLedger with
  | error _ =>
    rw [hrun] at hresult
    cases hresult
  | ok p =>
    obtain ⟨r, l'⟩ := p
    rw [hrun] at hresult
    obtain ⟨herror, hbalance⟩ := Prod.mk.inj (Option.some.inj hresult)
    cases r with
    | ok fee => cases herror
    | error e =>
      refine ⟨e, l', rfl, hbalance, ?_⟩
      rcases charged_le_feeLimit _ _ hrun with hle | ⟨hrefused, _⟩
      · exact hle
      · rw [hrefused] at hstart
        cases hstart

end Trap

end QChain
