import QChain.Execution.LedgerSteps

/-!
# Which transactions are admitted

The start of a transaction, taken apart. A transaction that is admitted has passed every check
against the payer's account as it was before quantos were closed; one that is refused leaves
nothing behind but the close of the quantos that are due and the tick of the dynamic fee, neither
of which depends on the transaction.
-/

namespace QChain

open Transact Exec

namespace Ledger

/-- What a transaction that is admitted has passed, with the payer's account it was checked
against and the accounts the fee was read from. -/
structure Admitted (tx : Transaction) (payerAccount : Account) (round : U64) (accounts : Accounts)
    (admission : Admission) : Prop where
  current : (tx.message.validUntilRound : ℕ) = 0 ∨ round ≤ tx.message.validUntilRound
  params : storedParams accounts = some admission.params
  upfrontFee : admission.upfrontFee = Word.clamp (admission.byteFee + tx.message.priorityFee)
  funds : admission.upfrontFee ≤ payerAccount.balance
  limit : admission.upfrontFee ≤ tx.message.feeLimit
  nonce : payerAccount.nonce = tx.message.nonce

/-- What a refused transaction leaves: the accounts as they were, or after a tick of the dynamic
fee. -/
def Refused (round : U64) (l l' : Ledger) : Prop :=
  l' = l ∨ (advanceDynamicFee round 0).run l = .ok ((), l')

variable [Crypto] {cfg : LedgerConfig} {tx : Transaction} {round : U64} {l : Ledger}

omit [Crypto] in
theorem wp_effectiveBaseFeeAt {Q : U64 → Ledger → Prop} (h : ∀ base, Q base l) :
    Wp (effectiveBaseFeeAt round) l Q := by
  simp only [effectiveBaseFeeAt, wp_rules, wp_currentParams]
  intro _ _
  split
  · exact (wp_pure _).2 (h _)
  · simp only [wp_rules]
    exact fun _ _ => h _

omit [Crypto] in
theorem wp_precheck {payerAccount : Account} :
    Wp (precheck tx payerAccount round) l fun r l' =>
      match r with
      | .ok admission => l' = l ∧ Admitted tx payerAccount round l.store admission
      | .error _ => Refused round l l' := by
  have hrefuse : ∀ e : ExecError, Wp (do
      advanceDynamicFee round 0
      pure (.error e : Except ExecError Admission)) l fun r l' =>
        match r with
        | .ok admission => l' = l ∧ Admitted tx payerAccount round l.store admission
        | .error _ => Refused round l l' := by
    intro e
    simp only [wp_rules]
    exact fun _ l' hrun => .inr hrun
  unfold precheck
  simp only [wp_ite]
  refine ⟨fun _ => hrefuse _, fun hcurrent => ⟨fun _ => hrefuse _, fun _ => ?_⟩⟩
  rw [wp_bind, wp_currentParams]
  intro params hparams
  rw [wp_bind]
  refine wp_effectiveBaseFeeAt fun base => ?_
  simp only [wp_ite, wp_pure]
  refine ⟨fun _ => hrefuse _, fun hfunds => ⟨fun _ => hrefuse _, fun hlimit => ?_⟩⟩
  refine ⟨fun _ => .inl rfl, fun hhigh => ⟨fun _ => .inl rfl, fun hlow => ⟨trivial, ?_⟩⟩⟩
  exact {
    current := by
      by_cases hzero : (tx.message.validUntilRound : ℕ) = 0
      · exact .inl hzero
      · exact .inr (not_lt.1 fun hlt => hcurrent ⟨hzero, hlt⟩)
    params := hparams
    upfrontFee := rfl
    funds := not_lt.1 hfunds
    limit := not_lt.1 hlimit
    nonce := le_antisymm (not_lt.1 hlow) (not_lt.1 hhigh) }

/-- The two ways the start of a transaction can go. -/
theorem wp_start : Wp (start cfg tx round) l fun r l' =>
    match r with
    | .ok admission => tx.verifySignature = true ∧
        ∃ l₂, (closeDueQuantos cfg round).run l = .ok ((), l₂) ∧
        Admitted tx (payerAccountOf tx l) round l₂.store admission ∧
        (reserve tx (payerAccountOf tx l) admission round).run l₂ = .ok ((), l')
    | .error _ => l' = l ∨ ∃ l₂, (closeDueQuantos cfg round).run l = .ok ((), l₂) ∧
        Refused round l₂ l' := by
  unfold start
  rw [wp_ite, wp_pure]
  refine ⟨fun _ => .inl rfl, fun hsignature => ?_⟩
  rw [wp_bind, wp_get, wp_bind]
  refine wp_checkRegistryStatus fun refusal => ?_
  cases refusal with
  | some e => exact (wp_pure _).2 (.inl rfl)
  | none =>
    rw [wp_bind]
    intro _ l₂ hclose
    rw [wp_bind]
    intro r l₃ hprecheck
    have hchecked := wp_precheck _ _ hprecheck
    cases r with
    | error e => exact (wp_pure _).2 (.inr ⟨l₂, hclose, hchecked⟩)
    | ok admission =>
      obtain ⟨rfl, hadmitted⟩ := hchecked
      simp only [wp_rules]
      refine fun _ l₄ hreserve => ⟨?_, l₃, hclose, hadmitted, hreserve⟩
      exact Bool.eq_true_of_not_eq_false hsignature

end Ledger

end QChain
