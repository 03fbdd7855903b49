import QChain.Execution.Closing

/-!
# Fees

Where fees go, as steps of a transaction. While a transaction runs, its working copies lie over
the store, and a fee is credited to the copy of its target if there is one. What both hold
together decides what a transaction that succeeds leaves behind, the store alone what one that
fails does, so `Progress` follows the two side by side.
-/

namespace QChain

open Accounts Exec Finmap Ledger List Option Transact

/-- What working copies and a store hold together. -/
def overlay (working : Option Accounts) (store : Accounts) : Accounts :=
  working.elim store (· ∪ store)

/-- The steps of a transaction so far: from `s₀` with what the copies and the store hold together,
and from `s₁` with what the store holds alone, where nothing has been executed. Whether there are
copies does not change. -/
structure Progress [Crypto] (cfg : LedgerConfig) (payer collector : Pubkey) (round dust : U64)
    (s₀ s₁ : Accounts) (es : List Execution) (copied : Bool) (working : Option Accounts)
    (store : Accounts) (paidIn takenOut storeIn storeOut : ℕ) : Prop where
  isSome : working.isSome = copied
  view : Steps cfg payer collector round dust s₀ es paidIn takenOut (overlay working store)
  store : Steps cfg payer collector round dust s₁ [] storeIn storeOut store

section

variable [Crypto] {cfg : LedgerConfig} {payer collector k : Pubkey} {round dust : U64}
  {s₀ s₁ store : Accounts} {es : List Execution} {copied : Bool} {working : Option Accounts}
  {account : Account} {paidIn takenOut storeIn storeOut amount : ℕ} {l : Ledger}

omit [Crypto] in
theorem lookup_overlay : (overlay working store).lookup k =
    (working.bind fun w => w.lookup k).or (store.lookup k) := by
  cases working with
  | none => rfl
  | some w => exact lookup_union_eq w store k

omit [Crypto] in
theorem lookup_overlay_of_notMem (h : ∀ w, working = some w → k ∉ w) :
    (overlay working store).lookup k = store.lookup k := by
  rw [lookup_overlay]
  cases working with
  | none => rfl
  | some w => rw [bind_some, lookup_eq_none.2 (h w rfl), none_or]

omit [Crypto] in
theorem overlay_insert (h : ∀ w, working = some w → k ∉ w) :
    overlay working (store.insert k account) = (overlay working store).insert k account := by
  cases working with
  | none => rfl
  | some w => exact union_insert_of_notMem (h w rfl)

namespace Progress

theorem weaken {paidIn' storeIn' : ℕ}
    (h : Progress cfg payer collector round dust s₀ s₁ es copied working store paidIn takenOut
      storeIn storeOut)
    (hin : paidIn ≤ paidIn') (hstore : storeIn ≤ storeIn') :
    Progress cfg payer collector round dust s₀ s₁ es copied working store paidIn' takenOut storeIn'
      storeOut :=
  ⟨h.isSome, h.view.weaken hin le_rfl, h.store.weaken hstore le_rfl⟩

/-- A write to a working copy. -/
theorem put_copy {w : Accounts}
    (h : Progress cfg payer collector round dust s₀ s₁ es copied (some w) store paidIn takenOut
      storeIn storeOut)
    (hwrite : LedgerWrite cfg payer collector (w ∪ store) k account amount 0) :
    Progress cfg payer collector round dust s₀ s₁ es copied (some (w.insert k account)) store
      (paidIn + amount) takenOut (storeIn + amount) storeOut := by
  refine ⟨h.isSome, ?_, h.store.weaken (Nat.le_add_right _ _) le_rfl⟩
  have hview : overlay (some (w.insert k account)) store = (w ∪ store).insert k account :=
    insert_union.symm
  rw [hview]
  exact h.view.write hwrite

/-- A write to the store of an account that has not been copied. -/
theorem put_store
    (h : Progress cfg payer collector round dust s₀ s₁ es copied working store paidIn takenOut
      storeIn storeOut)
    (hk : ∀ w, working = some w → k ∉ w)
    (hview : LedgerWrite cfg payer collector (overlay working store) k account amount 0)
    (hstore : LedgerWrite cfg payer collector store k account amount 0) :
    Progress cfg payer collector round dust s₀ s₁ es copied working (store.insert k account)
      (paidIn + amount) takenOut (storeIn + amount) storeOut := by
  refine ⟨h.isSome, ?_, h.store.write hstore⟩
  rw [overlay_insert hk]
  exact h.view.write hview

/-! ### Credits -/

theorem creditFeeTarget {amount : U64}
    (h : Progress cfg payer collector round dust s₀ s₁ es copied working l.store paidIn takenOut
      storeIn storeOut)
    (hk : k ∈ feeTargets cfg collector) :
    Wp (Ledger.creditFeeTarget working k amount) l fun working' l' =>
      Progress cfg payer collector round dust s₀ s₁ es copied working' l'.store (paidIn + amount)
        takenOut (storeIn + amount) storeOut := by
  unfold Ledger.creditFeeTarget
  rw [wp_ite]
  refine ⟨fun _ => (wp_pure _).2 (h.weaken (Nat.le_add_right _ _) (Nat.le_add_right _ _)),
    fun _ => ?_⟩
  split
  next w copied hcopied =>
    obtain ⟨w', rfl, hw'⟩ := bind_eq_some_iff.1 hcopied
    obtain ⟨copied', hlookup, heq⟩ := map_eq_some_iff.1 hw'
    obtain ⟨rfl, rfl⟩ := Prod.mk.inj heq
    simp only [wp_rules, Word.checked_eq_some]
    intro balance hbalance
    have hview : (w' ∪ l.store).lookup k = some copied' := by
      rw [lookup_union_eq, hlookup, some_or]
    have haccount : Accounts.getOrNew (w' ∪ l.store) k systemProgramId = copied' :=
      getOrNew_of_lookup hview
    rw [← haccount]
    refine h.put_copy (.fee hk ?_)
    rw [balanceOf_of_lookup hview, hbalance]
  next hnone =>
    have hnotMem : ∀ w, working = some w → k ∉ w := by
      rintro w rfl hw
      obtain ⟨copied, hlookup⟩ := Finmap.mem_iff.1 hw
      simp [hlookup] at hnone
    have hview : (overlay working l.store).lookup k = l.store.lookup k :=
      lookup_overlay_of_notMem hnotMem
    simp only [Ledger.credit, wp_rules, wp_writeAccount, Word.checked_eq_some, balance_getOrNew]
    intro balance hbalance
    refine h.put_store hnotMem ?_ (.fee hk hbalance)
    rw [← getOrNew_congr hview]
    rw [← balanceOf_congr hview] at hbalance
    exact .fee hk hbalance

/-! ### The v7 split -/

omit [Crypto] in
theorem feeSplit_sum (fee : U64) :
    ((feeSplit fee).burn : ℕ) + (feeSplit fee).validator + (feeSplit fee).admin = fee := by
  have hlt := fee.toNat_lt
  simp only [feeSplit]
  rw [Word.toNat_ofNat_of_lt (by omega), Word.toNat_ofNat_of_lt (by omega),
    Word.toNat_ofNat_of_lt (by omega)]
  omega

theorem routeFeeV7 {fee : U64}
    (h : Progress cfg payer collector round dust s₀ s₁ es copied working l.store paidIn takenOut
      storeIn storeOut) :
    Wp (Ledger.routeFeeV7 cfg working fee) l fun working' l' =>
      Progress cfg payer collector round dust s₀ s₁ es copied working' l'.store (paidIn + fee)
        takenOut (storeIn + fee) storeOut := by
  have hsum := feeSplit_sum fee
  unfold Ledger.routeFeeV7
  -- what follows the burned part, which is credited under the hard cap only
  have hrest : ∀ (working' : Option Accounts) (l' : Ledger),
      Progress cfg payer collector round dust s₀ s₁ es copied working' l'.store
        (paidIn + (feeSplit fee).burn) takenOut (storeIn + (feeSplit fee).burn) storeOut →
      Wp (Ledger.creditFeeTarget working' validatorFeePoolId (feeSplit fee).validator) l'
        fun working'' l'' => Wp (Ledger.creditFeeTarget working'' cfg.adminFeeWallet
          (feeSplit fee).admin)
          { l'' with poolEarned := Word.clamp (l''.poolEarned + (feeSplit fee).validator) }
          fun working' l' => Progress cfg payer collector round dust s₀ s₁ es copied working'
            l'.store (paidIn + fee) takenOut (storeIn + fee) storeOut := by
    intro working' l' h'
    have hadmin : cfg.adminFeeWallet ∈ feeTargets cfg collector := by
      simp [feeTargets]
    refine (h'.creditFeeTarget (by simp [feeTargets])).mono fun working₁ l₁ h₁ => ?_
    refine (creditFeeTarget
      (l := { l₁ with poolEarned := Word.clamp (l₁.poolEarned + (feeSplit fee).validator) })
      h₁ hadmin).mono fun working₂ l₂ h₂ => ?_
    exact h₂.weaken (by omega) (by omega)
  simp only [wp_ite, wp_rules, wp_modify]
  constructor
  · intro _
    exact (h.creditFeeTarget (by simp [feeTargets])).mono hrest
  · intro _
    exact hrest working (noteFeeBurned _ l)
      (h.weaken (Nat.le_add_right _ _) (Nat.le_add_right _ _))

/-! ### The v6 share of the validator -/

theorem writeFeeAccount
    (h : Progress cfg payer collector round dust s₀ s₁ es copied working l.store paidIn takenOut
      storeIn storeOut)
    (hwrite : ∀ v : Accounts, v.lookup k = (overlay working l.store).lookup k →
      LedgerWrite cfg payer collector v k account 0 0) :
    Wp (Ledger.writeFeeAccount working k account) l fun working' l' =>
      Progress cfg payer collector round dust s₀ s₁ es copied working' l'.store paidIn takenOut
        storeIn storeOut := by
  unfold Ledger.writeFeeAccount
  split
  next w hcopied =>
    obtain ⟨w', rfl, hw'⟩ := bind_eq_some_iff.1 hcopied
    obtain ⟨_, _, rfl⟩ := map_eq_some_iff.1 hw'
    exact (wp_pure _).2 (h.put_copy (hwrite _ rfl))
  next hnone =>
    have hnotMem : ∀ w, working = some w → k ∉ w := by
      rintro w rfl hw
      obtain ⟨copied, hlookup⟩ := Finmap.mem_iff.1 hw
      simp [hlookup] at hnone
    simp only [wp_rules, wp_writeAccount]
    refine h.put_store hnotMem (hwrite _ rfl) (hwrite _ ?_)
    exact (lookup_overlay_of_notMem hnotMem).symm

omit [Crypto] in
/-- The reward pool `creditValidatorShare` works on is the one copies and store hold. -/
theorem lookup_feeAccounts : (feeAccounts working l).lookup stakingRewardsPoolId =
    (overlay working l.store).lookup stakingRewardsPoolId := by
  have hne : stakingRewardsPoolId ≠ stakingStatsId := by decide +kernel
  have hread : readFeeAccount working stakingRewardsPoolId l =
      (overlay working l.store).lookup stakingRewardsPoolId := lookup_overlay.symm
  rw [feeAccounts, foldl_cons, foldl_cons, foldl_nil, hread]
  cases (overlay working l.store).lookup stakingRewardsPoolId with
  | some account => exact lookup_insert _
  | none =>
    cases readFeeAccount working stakingStatsId l with
    | none => rfl
    | some stats => exact (lookup_insert_of_ne _ hne).trans (lookup_empty _)

/-- How a distribution of fees ends: with new working copies, or with an error, when the store
alone counts. -/
def Ends (cfg : LedgerConfig) (payer collector : Pubkey) (round dust : U64) (s₀ s₁ : Accounts)
    (es : List Execution) (copied : Bool) (paidIn takenOut storeIn storeOut : ℕ) :
    Except ExecError (Option Accounts) → Ledger → Prop
  | .ok working, l =>
    Progress cfg payer collector round dust s₀ s₁ es copied working l.store paidIn takenOut storeIn
      storeOut
  | .error _, l => Steps cfg payer collector round dust s₁ [] storeIn storeOut l.store

variable (h : Progress cfg payer collector round dust s₀ s₁ es copied working l.store paidIn
  takenOut storeIn storeOut)

include h

/-- The pool's account with its share, written where the account is. -/
theorem writeRewardPool {accounts : Accounts} (hv6 : cfg.economicsV7 = false)
    (hpool : accounts.lookup stakingRewardsPoolId =
        (overlay working l.store).lookup stakingRewardsPoolId ∨
      ∃ (balance : U64) (bytes : List UInt8),
        (overlay working l.store).balanceOf stakingRewardsPoolId ≤ balance ∧
        accounts.lookup stakingRewardsPoolId =
        some { (overlay working l.store).getOrNew stakingRewardsPoolId stakingProgramId with
          balance := balance, data := bytes }) :
    Wp (Ledger.writeRewardPool working accounts) l fun working' l' =>
      Progress cfg payer collector round dust s₀ s₁ es copied working' l'.store paidIn takenOut
        storeIn storeOut := by
  unfold Ledger.writeRewardPool
  cases hlookup : accounts.lookup stakingRewardsPoolId with
  | none => exact (wp_pure _).2 h
  | some pool =>
    apply h.writeFeeAccount
    intro v hv
    rw [hlookup] at hpool
    -- in both cases the pool is written with some balance and data
    have haccount : pool = { v.getOrNew stakingRewardsPoolId stakingProgramId with
        balance := pool.balance, data := pool.data } := by
      rcases hpool with hsame | ⟨balance, bytes, _, hnew⟩
      · rw [getOrNew_of_lookup (hv.trans hsame.symm)]
      · rw [Option.some.inj hnew, getOrNew_congr hv]
    have hbalance : v.balanceOf stakingRewardsPoolId ≤ pool.balance := by
      rw [balanceOf_congr hv]
      rcases hpool with hsame | ⟨balance, bytes, hle, hnew⟩
      · exact (balanceOf_of_lookup hsame.symm).le
      · rw [Option.some.inj hnew]
        exact hle
    rw [haccount]
    exact .rewardPool (.inl hv6) hbalance

/-- The share of the validator in the v6 economy. A commission of more than the share is paid
all the same. -/
theorem creditValidatorShare {validatorShare : U64} {params : EconomicParams}
    (hv6 : cfg.economicsV7 = false) :
    Wp (Ledger.creditValidatorShare working collector validatorShare params) l fun r l' =>
      ∃ paid, Ends cfg payer collector round dust s₀ s₁ es copied (paidIn + paid) takenOut
        (storeIn + paid) storeOut r l' := by
  have hcollector : collector ∈ feeTargets cfg collector := mem_cons_self ..
  unfold Ledger.creditValidatorShare
  rw [wp_ite, wp_pure]
  refine ⟨fun _ => ⟨0, h⟩, fun _ => ?_⟩
  simp only [wp_bind, wp_get, wp_runOn]
  refine ⟨wp_accrueRewardPool.mono fun paid accounts' hpaid => ?_,
    fun e _ => (wp_pure _).2 ⟨0, h.store⟩⟩
  cases paid with
  | true =>
    have hpool : accounts'.lookup stakingRewardsPoolId =
          (overlay working l.store).lookup stakingRewardsPoolId ∨
        ∃ (balance : U64) (bytes : List UInt8),
          (overlay working l.store).balanceOf stakingRewardsPoolId ≤ balance ∧
          accounts'.lookup stakingRewardsPoolId =
          some { (overlay working l.store).getOrNew stakingRewardsPoolId stakingProgramId with
            balance := balance, data := bytes } := by
      rcases hpaid rfl with rfl | ⟨balance, bytes, hle, rfl⟩
      · exact .inl lookup_feeAccounts
      · rw [balanceOf_congr lookup_feeAccounts] at hle
        refine .inr ⟨balance, bytes, hle, ?_⟩
        rw [lookup_insert, getOrNew_congr lookup_feeAccounts]
    simp only [wp_rules, wp_modify]
    refine (h.writeRewardPool hv6 hpool).mono fun working₁ l₁ h₁ => ?_
    exact (h₁.creditFeeTarget hcollector).mono fun working₂ l₂ h₂ => ⟨_, h₂⟩
  | false =>
    simp only [wp_rules, wp_modify]
    exact (h.creditFeeTarget hcollector).mono fun working' l' h' => ⟨_, h'⟩

/-! ### Distribution -/

/-- A fee is distributed. In the v7 economy no more than the fee is credited. -/
theorem distributeFee {fee : U64} {params : EconomicParams} :
    Wp (Ledger.distributeFee cfg working collector fee params) l fun r l' =>
      ∃ paid, (cfg.economicsV7 → paid ≤ (fee : ℕ)) ∧
        Ends cfg payer collector round dust s₀ s₁ es copied (paidIn + paid) takenOut (storeIn +
          paid) storeOut r l' := by
  simp only [Ledger.distributeFee, wp_ite, wp_rules, wp_modify]
  constructor
  · intro _
    exact h.routeFeeV7.mono fun working' l' h' => ⟨fee, fun _ => le_rfl, h'⟩
  · intro hv7
    refine Wp.mono (creditValidatorShare (l := noteFeeBurned _ l) h
      (Bool.eq_false_iff.2 hv7)) ?_
    rintro r l' ⟨paid, h'⟩
    exact ⟨paid, fun htrue => absurd htrue hv7, h'⟩

/-- Byte fee and tip are distributed. In the v7 economy no more than the two is credited. -/
theorem distributeUpfrontFee {tx : Transaction} {admission : Ledger.Admission} :
    Wp (Ledger.distributeUpfrontFee cfg tx collector admission working) l fun r l' =>
      ∃ paid, (cfg.economicsV7 → paid ≤ (admission.byteFee : ℕ) + tx.message.priorityFee) ∧
        Ends cfg payer collector round dust s₀ s₁ es copied (paidIn + paid) takenOut (storeIn +
          paid) storeOut r l' := by
  have hcollector : collector ∈ feeTargets cfg collector := mem_cons_self ..
  refine h.distributeFee.bind ?_
  rintro r l₁ ⟨paid, hpaid, hends⟩
  have hle : cfg.economicsV7 → paid ≤ (admission.byteFee : ℕ) + tx.message.priorityFee :=
    fun hv7 => (hpaid hv7).trans (Nat.le_add_right _ _)
  cases r with
  | error e => exact (wp_pure _).2 ⟨paid, hle, hends⟩
  | ok working₁ =>
    simp only [wp_ite, wp_rules, wp_modify]
    refine ⟨fun _ => ?_, fun _ => ⟨paid, hle, hends⟩⟩
    refine (creditFeeTarget hends hcollector).mono fun working₂ l₂ h₂ => ?_
    refine ⟨paid + tx.message.priorityFee, fun hv7 => Nat.add_le_add_right (hpaid hv7) _, ?_⟩
    rw [← Nat.add_assoc, ← Nat.add_assoc]
    exact h₂

end Progress

/-! ### Gas -/

/-- The fee for gas is distributed. In the v7 economy no more than it is credited. -/
theorem Progress.distributeGas {w : Accounts} {totalGasFee : U64}
    (h : Progress cfg payer collector round dust s₀ s₁ es copied (some w) l.store paidIn takenOut
      storeIn storeOut) :
    Wp (Ledger.distributeGas cfg collector w totalGasFee) l fun r l' =>
      match r with
      | .ok w' => ∃ paid, (cfg.economicsV7 → paid ≤ (totalGasFee : ℕ)) ∧
          Steps cfg payer collector round dust s₀ es (paidIn + paid) takenOut (w' ∪ l'.store)
      | .error _ => l'.store = l.store := by
  unfold Ledger.distributeGas
  rw [wp_ite]
  constructor
  · intro _
    rw [wp_bind]
    refine h.routeFeeV7.mono fun working' l' h' => ?_
    obtain ⟨w', rfl⟩ := isSome_iff_exists.1 (h'.isSome.trans h.isSome.symm)
    exact (wp_pure _).2 ⟨totalGasFee, fun _ => le_rfl, h'.view⟩
  · intro hv6
    simp only [wp_rules, wp_modify]
    have hcollector : (w.lookup collector).getD (l.store.getOrNew collector systemProgramId) =
        Accounts.getOrNew (w ∪ l.store) collector systemProgramId := by
      rw [Accounts.getOrNew, Accounts.getOrNew, lookup_union_eq]
      cases w.lookup collector <;> rfl
    have hnote : (noteFeeBurned (totalGasFee / 2) l).store = l.store := rfl
    rw [hnote, hcollector]
    split
    · exact (wp_pure _).2 rfl
    next balance hchecked =>
      rw [Word.checked_eq_some, balance_getOrNew] at hchecked
      have h₁ := h.put_copy (.fee (mem_cons_self ..) hchecked)
      exact (wp_pure _).2 ⟨_, fun hv7 => absurd hv7 hv6, h₁.view⟩

omit [Crypto] in
/-- A charge that an account can pay. -/
theorem toNat_ofNat_sub_add {balance charge : U64} (h : (charge : ℕ) ≤ balance) :
    ((Word.ofNat (balance - charge) : U64) : ℕ) + charge = balance := by
  have hlt := balance.toNat_lt
  rw [Word.toNat_ofNat_of_lt (by omega)]
  omega

/-- The charge for gas: the working copies pay it, and in the v7 economy no more than it is
credited. -/
theorem Progress.chargeGas {tx : Transaction} {w : Accounts} {totalGasFee : U64}
    (h : Progress cfg tx.message.payer collector round dust s₀ s₁ es copied (some w) l.store paidIn
      takenOut storeIn storeOut) :
    Wp (Ledger.chargeGas cfg tx collector w totalGasFee) l fun r l' =>
      match r with
      | .ok w' => ∃ paid, (cfg.economicsV7 → paid ≤ (totalGasFee : ℕ)) ∧
          Steps cfg tx.message.payer collector round dust s₀ es (paidIn + paid)
            (takenOut + totalGasFee) (w' ∪ l'.store)
      | .error _ =>
        Steps cfg tx.message.payer collector round dust s₁ [] storeIn storeOut l'.store := by
  unfold Ledger.chargeGas
  rw [wp_ite]
  constructor
  · intro hzero
    rw [wp_pure]
    exact ⟨0, fun _ => Nat.zero_le _, h.view.weaken le_rfl (by omega)⟩
  · intro _
    cases hlookup : w.lookup tx.message.payer with
    | none => exact (wp_pure _).2 h.store
    | some account =>
      rw [wp_ite]
      refine ⟨fun _ => (wp_pure _).2 h.store, fun hle => ?_⟩
      rw [not_lt, Word.le_iff] at hle
      have hview : (w ∪ l.store).lookup tx.message.payer = some account := by
        rw [lookup_union_eq, hlookup, some_or]
      have hpaid := h.view.write (.charge hview (toNat_ofNat_sub_add hle))
      rw [overlay, elim_some, insert_union] at hpaid
      refine Wp.mono (Progress.distributeGas ⟨h.isSome, hpaid, h.store⟩) fun r l' hr => ?_
      cases r with
      | ok w' => exact hr
      | error e =>
        rw [hr]
        exact h.store

/-- The fuel of a trapped call is paid for by the payer's account in the store. -/
theorem Steps.billTrappedWasmFuel {tx : Transaction} {admission : Ledger.Admission}
    {err : ExecError}
    (h : Steps cfg tx.message.payer collector round dust s₀ [] paidIn takenOut l.store) :
    Wp (Ledger.billTrappedWasmFuel cfg tx collector admission err) l fun _ l' =>
      ∃ paid charged, (cfg.economicsV7 → paid ≤ charged) ∧
        Steps cfg tx.message.payer collector round dust s₀ [] (paidIn + paid)
          (takenOut + charged) l'.store := by
  have hsame : ∃ paid charged, (cfg.economicsV7 → paid ≤ charged) ∧
      Steps cfg tx.message.payer collector round dust s₀ [] (paidIn + paid)
        (takenOut + charged) l.store := ⟨0, 0, fun _ => le_rfl, h⟩
  unfold Ledger.billTrappedWasmFuel
  split
  next message fuelConsumed =>
    rw [wp_ite]
    refine ⟨fun _ => ?_, fun _ => (wp_pure _).2 hsame⟩
    rw [wp_bind]
    refine wp_currentParams.2 fun params _ => ?_
    rw [wp_bind, wp_get]
    cases hlookup : l.store.lookup tx.message.payer with
    | none => exact (wp_pure _).2 hsame
    | some account =>
      simp only [wp_rules, wp_writeAccount]
      have hle : min (min (Word.clamp (fuelConsumed * params.gasPricePerFuel) : U64)
          (Word.ofNat (tx.message.feeLimit - admission.upfrontFee))) account.balance ≤
        account.balance := min_le_right _ _
      generalize min (min (Word.clamp (fuelConsumed * params.gasPricePerFuel) : U64)
        (Word.ofNat (tx.message.feeLimit - admission.upfrontFee))) account.balance = charge at hle ⊢
      rw [Word.le_iff] at hle
      have h₁ := h.write (.charge hlookup (toNat_ofNat_sub_add hle))
      -- without copies, both parts of the progress are the store
      have hprogress : Progress cfg tx.message.payer collector round dust s₀ s₀ [] false none
          (l.store.insert tx.message.payer
            { account with balance := Word.ofNat (account.balance - charge) })
          paidIn (takenOut + charge) paidIn (takenOut + charge) := ⟨rfl, h₁, h₁⟩
      refine Wp.mono (Progress.distributeFee (l := { l with store := _ }) hprogress) ?_
      rintro r l' ⟨paid, hpaid, hends⟩
      refine ⟨paid, charge, hpaid, ?_⟩
      cases r with
      | error e => exact hends
      | ok working => exact hends.store
  next => exact (wp_pure _).2 hsame

/-! ### The dynamic fee -/

namespace Steps

variable (h : Steps cfg payer collector round dust s₀ es paidIn takenOut l.store)

include h

theorem rollBaseFee {fs : FeeState} : Wp (Ledger.rollBaseFee fs round) l fun _ l' =>
      Steps cfg payer collector round dust s₀ es paidIn takenOut l'.store ∧
        l'.store.lookup feeStateAccountId = l.store.lookup feeStateAccountId := by
  simp only [Ledger.rollBaseFee, wp_rules, wp_currentParams, wp_ite, wp_writeAccount, and_true]
  intro params _
  refine ⟨fun _ bytes hbytes => ⟨h.write (.feeState (.inr rfl) (.inr ⟨_, hbytes⟩)), ?_⟩,
    fun _ => h⟩
  exact lookup_insert_of_ne _ (by decide)

/-- The v6 emission pays the reward pool, and only if anyone stakes. -/
theorem emitForRounds {fs : FeeState} {params : EconomicParams} :
    Wp (Ledger.emitForRounds fs params round) l fun _ l' =>
      Steps cfg payer collector round dust s₀ es paidIn takenOut l'.store ∧
        l'.store.lookup feeStateAccountId = l.store.lookup feeStateAccountId := by
  simp only [Ledger.emitForRounds, wp_rules, wp_ite, and_true, wp_runOn]
  refine ⟨fun hstaked => ⟨fun _ => ⟨?_, fun _ _ => h⟩, fun _ => h⟩, fun _ => h⟩
  refine wp_accrueRewardPool.mono fun paid accounts' hpaid => ?_
  cases paid with
  | false => exact (wp_pure _).2 ⟨h, rfl⟩
  | true =>
    simp only [wp_rules, Ledger.writeBack, wp_modify, foldl_cons]
    have hcopies : (Ledger.copies l.store [stakingStatsId, stakingRewardsPoolId]).lookup
        stakingRewardsPoolId = l.store.lookup stakingRewardsPoolId := by
      rw [lookup_copies, if_pos (by simp)]
    rcases hpaid rfl with rfl | ⟨balance, bytes, hle, rfl⟩
    · rw [copyAt_of_lookup_eq hcopies]
      exact ⟨h, rfl⟩
    · rw [copyAt, lookup_insert, getOrNew_congr hcopies]
      rw [balanceOf_congr hcopies] at hle
      refine ⟨h.write (.rewardPool (.inr hstaked.1) hle), ?_⟩
      exact lookup_insert_of_ne _ (by decide)

/-- The dynamic fee moves no funds. -/
theorem advanceDynamicFee {txBytes : U64} :
    Wp (Ledger.advanceDynamicFee round txBytes) l fun _ l' =>
      Steps cfg payer collector round dust s₀ es paidIn takenOut l'.store := by
  have hroll : ∀ fs, Wp (rollFeeState fs round) l fun _ l' =>
      Steps cfg payer collector round dust s₀ es paidIn takenOut l'.store ∧
        l'.store.lookup feeStateAccountId = l.store.lookup feeStateAccountId := by
    intro fs
    simp only [rollFeeState, wp_ite, wp_rules, and_true]
    refine ⟨fun _ => h.rollBaseFee.mono ?_, fun _ => h⟩
    rintro params l₁ ⟨h₁, hlookup₁⟩
    refine h₁.emitForRounds.mono ?_
    rintro fs' l₂ ⟨h₂, hlookup₂⟩
    exact ⟨h₂, hlookup₂.trans hlookup₁⟩
  simp only [Ledger.advanceDynamicFee, wp_rules]
  have hread : Wp (feeStateOf (l.store.lookup feeStateAccountId) round) l
      fun _ l' => l' = l := by
    unfold feeStateOf
    cases l.store.lookup feeStateAccountId <;> simp
  refine hread.mono ?_
  rintro fs _ rfl
  refine (hroll fs).mono ?_
  rintro fs' l₁ ⟨h₁, hlookup₁⟩
  simp only [wp_writeAccount]
  intro bytes hbytes
  rw [← hlookup₁]
  exact h₁.write (.feeState (.inl rfl) (.inl ⟨_, hbytes⟩))

end Steps

end

end QChain
