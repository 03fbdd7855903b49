import QChain.Execution.ProgramEffects

/-!
# The writes of any native program

The governance program and the v6 staking program, and with them all native programs. All but
the v6 undelegation take out at least what they pay in; that one pays the principal recorded
in the stake account's data and takes out the account's balance.
-/

namespace QChain

open Accounts Exec Transact

variable [Crypto] {ix : Instruction} {payer : Pubkey} {w₀ w : Accounts} {round : U64}
  {paidIn takenOut : ℕ}

/-! ### The governance program -/

namespace GovernanceProgram

/-- The accounts of the protocol that the program writes. -/
def keys : List Pubkey := [registryAccountId, paramsAccountId, emergencyAccountId]

theorem writeProposal_effects {k : Pubkey} {old new : Proposal}
    (h : Effects payer ix.accounts keys w₀ paidIn takenOut w)
    (hold : storedProposal w₀ k = some old) :
    Wp (writeProposal k new) w fun _ w' =>
      Effects payer ix.accounts keys w₀ paidIn takenOut w' := by
  simp only [writeProposal, writeData, wp_steps, Exec.wp_put]
  intro bytes _ account hlookup
  exact h.write (.proposal hold hlookup)

variable {action : ProposalAction}

theorem createProposal_balanced {id : U64} :
    Wp (createProposal ix payer round id action) w fun _ w' =>
      Balanced payer ix.accounts keys w w' := by
  simp only [createProposal, newProposal, wp_steps, wp_find, wp_ite, checkedSub_eq_some]
  intro proposer _ k hk _ _ _ _ _ _ hproposer haddr hnone _ _ _ _ _ _ params _
  subst proposer
  have h₀ : Effects payer ix.accounts keys w 0 0 w := .refl
  constructor
  · intro _ account hlookup _ balance hbalance
    refine (h₀.wp_put (.debit (.inl rfl) hlookup hbalance)).mono
      fun _ w₁ h₁ votingEndsRound _ bytes _ => ?_
    refine (h₁.wp_put (.openProposal (List.mem_of_getElem? hk) hnone haddr)).mono
      fun _ w₂ h₂ => ?_
    exact ⟨_, _, by omega, h₂⟩
  · intro hdeposit votingEndsRound _ bytes _
    refine (h₀.wp_put (.openProposal (List.mem_of_getElem? hk) hnone haddr)).mono
      fun _ w₁ h₁ => ?_
    exact ⟨_, _, by omega, h₁⟩

theorem vote_balanced {choice : VoteChoice} :
    Wp (vote ix payer round choice) w fun _ w' => Balanced payer ix.accounts keys w w' := by
  simp only [vote, wp_steps, wp_readProposal, wp_find, Exec.wp_put]
  intro k _ stakePk _ account hlookup howner old hold hpayer _ proposal hproposal _ _ _ _ voted _
  have h₀ : Effects payer ix.accounts keys w 0 0 w := .refl
  refine (writeProposal_effects h₀ hproposal).mono fun _ w₁ h₁ bytes hbytes now hnow => ?_
  have hstored := storedStake_of_lookup hlookup hold
  refine ⟨_, _, le_rfl, h₁.write (.stake hstored hpayer ?_ hnow hbytes)⟩
  exact ⟨rfl, rfl⟩

theorem finalize_balanced :
    Wp (finalize ix round) w fun _ w' => Balanced payer ix.accounts keys w w' := by
  simp only [finalize, wp_steps, wp_readProposal]
  intro k _ _ _ _ proposal hproposal _ _
  have h₀ : Effects payer ix.accounts keys w 0 0 w := .refl
  exact (writeProposal_effects h₀ hproposal).mono fun _ w₁ h₁ => ⟨_, _, le_rfl, h₁⟩

omit [Crypto] in
theorem wp_applyRegistryAction {registry : List RegistryEntry}
    {Q : List RegistryEntry → Accounts → Prop} (h : ∀ registry', Q registry' w) :
    Wp (applyRegistryAction registry action round) w Q := by
  cases action with
  | activateAlgorithm entry =>
    simp only [applyRegistryAction, wp_rules]
    exact fun _ => h _
  | deprecateAlgorithm id retirementRound =>
    simp only [applyRegistryAction, wp_rules]
    exact fun _ _ _ _ _ => h _
  | retireAlgorithm id =>
    simp only [applyRegistryAction, wp_rules]
    intro _ _ entry _
    split <;> simp only [wp_rules, wp_throw]
    exact fun _ => h _
  | _ => exact (wp_throw _).2 trivial

omit [Crypto] in
theorem wp_applyEconomicAction {params : EconomicParams} {Q : EconomicParams → Accounts → Prop}
    (h : ∀ params', Q params' w) :
    Wp (applyEconomicAction params action) w Q := by
  cases action <;>
    simp only [applyEconomicAction, wp_rules, wp_throw] <;>
    intros <;> exact h _

theorem applyAction_neutral {targetPk : Pubkey} :
    Neutral payer ix.accounts keys (applyAction targetPk action round) := by
  intro w₀ w paidIn takenOut h
  unfold applyAction
  split
  · simp only [wp_steps, Exec.wp_put]
    rintro rfl account hlookup registry _
    refine wp_applyRegistryAction fun registry' bytes _ => ?_
    exact h.write (.newData (by simp [keys]) hlookup)
  · simp only [wp_steps, Exec.wp_put]
    rintro rfl account hlookup params _
    refine wp_applyEconomicAction fun params' bytes _ => ?_
    exact h.write (.newData (by simp [keys]) hlookup)

omit [Crypto] in
theorem wp_checkNotPaused {Q : Unit → Accounts → Prop} (h : Q () w) :
    Wp checkNotPaused w Q := by
  rw [checkNotPaused, wp_bind, wp_find]
  cases w.lookup emergencyAccountId with
  | none => exact (wp_pure _).2 h
  | some account =>
    simp only [wp_rules]
    exact fun _ _ _ => h

theorem execute_balanced :
    Wp (execute ix round) w fun _ w' => Balanced payer ix.accounts keys w w' := by
  simp only [execute, wp_steps, wp_readProposal]
  intro k _ target _ _ _ _
  refine wp_checkNotPaused fun proposal hproposal _ passedRound _ _ => ?_
  have h₀ : Effects payer ix.accounts keys w 0 0 w := .refl
  refine (applyAction_neutral h₀).mono fun _ w₁ h₁ => ?_
  exact (writeProposal_effects h₁ hproposal).mono fun _ w₂ h₂ => ⟨_, _, le_rfl, h₂⟩

theorem applyEmergencyApproval_balanced {wantPaused : Bool} :
    Wp (applyEmergencyApproval ix payer wantPaused) w fun _ w' =>
      Balanced payer ix.accounts keys w w' := by
  simp only [applyEmergencyApproval, wp_steps, Exec.wp_put]
  rintro _ _ rfl account hlookup state _ _ _ _ bytes _
  exact ⟨_, _, le_rfl, Effects.refl.write (.newData (by simp [keys]) hlookup)⟩

/-- A credit in the course of a program lowers no balance. -/
theorem credit_effects_le {k k' owner : Pubkey} {amount : U64} {n : ℕ}
    (h : Effects payer ix.accounts keys w₀ paidIn takenOut w)
    (hk : k ∈ keys ∨ owner = systemProgramId ∧ (k ∈ ix.accounts ∨ k = payer))
    (hn : n ≤ w.balanceOf k') :
    Wp (credit k owner amount) w fun _ w' =>
      Effects payer ix.accounts keys w₀ (paidIn + amount) takenOut w' ∧ n ≤ w'.balanceOf k' := by
  refine (h.wp_credit hk).and ?_
  rw [wp_credit]
  intro balance hbalance
  rw [balanceOf_insert]
  split_ifs with hk'
  · subst hk'
    show n ≤ (balance : ℕ)
    omega
  · exact hn

theorem closeProposal_balanced :
    Wp (closeProposal ix round) w fun _ w' => Balanced payer ix.accounts keys w w' := by
  simp only [closeProposal, wp_steps, wp_readProposal, wp_ite, Exec.wp_put, checkedSub_eq_some]
  intro k _ refundPk hrefund burnPk hburn _ proposal hproposal _ _ _ _ account hlookup burn hheld
  -- the account is emptied of at least what it held before the credits
  have hclose : ∀ {paidIn : ℕ} {w' : Accounts},
      Effects payer ix.accounts keys w paidIn 0 w' ∧ paidIn ≤ w'.balanceOf k →
        ∀ account, w'.lookup k = some account →
          Balanced payer ix.accounts keys w
            (w'.insert k { account with balance := 0, data := [] }) := by
    rintro paidIn w' ⟨h', hle⟩ account hlookup
    rw [balanceOf_of_lookup hlookup] at hle
    exact ⟨_, _, by omega, h'.write (.closeProposal hproposal hlookup)⟩
  have hmem : ∀ {k : Pubkey} {i : ℕ}, ix.accounts[i]? = some k → k ∈ keys ∨
      systemProgramId = systemProgramId ∧ (k ∈ ix.accounts ∨ k = payer) :=
    fun hk => .inr ⟨rfl, .inl (List.mem_of_getElem? hk)⟩
  have hn := balanceOf_of_lookup hlookup
  have h₀ : Effects payer ix.accounts keys w 0 0 w := .refl
  constructor
  · intro _
    refine (credit_effects_le h₀ (hmem hrefund) hn.ge).mono ?_
    rintro _ w₁ ⟨h₁, hle₁⟩
    constructor
    · intro _
      refine (credit_effects_le h₁ (hmem hburn) hle₁).mono ?_
      rintro _ w₂ ⟨h₂, hle₂⟩
      exact hclose ⟨h₂, by omega⟩
    · intro _
      exact hclose ⟨h₁, by omega⟩
  · intro _
    constructor
    · intro _
      refine (credit_effects_le h₀ (hmem hburn) hn.ge).mono ?_
      rintro _ w₁ ⟨h₁, hle₁⟩
      exact hclose ⟨h₁, by omega⟩
    · intro _
      exact hclose ⟨h₀, by omega⟩

theorem process_balanced :
    Wp (process ix payer round) w fun _ w' => Balanced payer ix.accounts keys w w' := by
  simp only [process, wp_rules]
  intro instr _
  cases instr with
  | createProposal id action => exact createProposal_balanced
  | vote choice => exact vote_balanced
  | finalize => exact finalize_balanced
  | execute => exact execute_balanced
  | emergencyPause | emergencyUnpause => exact applyEmergencyApproval_balanced
  | closeProposal => exact closeProposal_balanced

end GovernanceProgram

/-! ### The v6 staking program -/

namespace StakingProgram

/-- The accounts of the protocol that the program writes. -/
def keys : List Pubkey := [stakingStatsId, validatorRegistryAccountId, stakingRewardsPoolId]

theorem updateStats_effects {stats : Account} {total : Exec U64}
    (h : Effects payer ix.accounts keys w₀ paidIn takenOut w)
    (htotal : ∀ {Q : U64 → Accounts → Prop}, (∀ n, Q n w) → Wp total w Q)
    (hstats : ∀ bytes, { stats with data := bytes } =
      { w.getOrNew stakingStatsId stakingProgramId with data := bytes }) :
    Wp (updateStats stakingStatsId stats total) w fun _ w' =>
      Effects payer ix.accounts keys w₀ paidIn takenOut w' := by
  simp only [updateStats, wp_steps, Exec.wp_put]
  refine htotal fun n bytes _ => ?_
  rw [hstats]
  exact h.write (.data (by simp [keys]))

/-- The total is lowered in a stats account that is there. -/
theorem lowerStats_effects {stats : Account} {amount : U64}
    (h : Effects payer ix.accounts keys w₀ paidIn takenOut w)
    (hlookup : w.lookup stakingStatsId = some stats) :
    Wp (updateStats stakingStatsId stats do subU64 (← readStats stats) amount) w fun _ w' =>
      Effects payer ix.accounts keys w₀ paidIn takenOut w' := by
  refine updateStats_effects h ?_ ?_
  · intro Q hQ
    simp only [wp_rules, wp_readStats]
    exact fun _ _ _ _ => hQ _
  · intro bytes
    rw [getOrNew_of_lookup hlookup]

theorem delegate_balanced {validator : Pubkey} {amount : U64} :
    Wp (delegate ix payer round validator amount) w fun _ w' =>
      Balanced payer ix.accounts keys w w' := by
  simp only [delegate, wp_steps, wp_find, checkedSub_eq_some]
  intro staker _ k hk statsPk _ poolPk _ hstats _ hstaker hnone account hlookup _ balance hbalance
  subst staker
  subst statsPk
  have h₀ : Effects payer ix.accounts keys w 0 0 w := .refl
  refine (h₀.wp_put (.debit (.inl rfl) hlookup hbalance)).mono fun _ w₁ h₁ => ?_
  refine wp_poolAccumulator fun acc bondingUntil _ bytes hbytes => ?_
  refine (h₁.wp_put (.openStake (List.mem_of_getElem? hk) hnone rfl hbytes)).mono
    fun _ w₂ h₂ => ?_
  refine (updateStats_effects h₂ ?_ ?_).mono fun _ w₃ h₃ => ⟨_, _, by simp, h₃⟩
  · intro Q hQ
    simp only [wp_rules, wp_readStats]
    exact fun _ _ _ _ => hQ _
  · intro bytes
    rw [Accounts.getOrNew]
    cases w₂.lookup stakingStatsId <;> rfl

omit [Crypto] in
theorem wp_checkUnbonded {stake : StakeAccountData} {Q : Unit → Accounts → Prop} (h : Q () w) :
    Wp (checkUnbonded stake round) w Q := by
  unfold checkUnbonded
  split
  · simp only [wp_ite, wp_rules]
    exact ⟨fun _ _ _ _ => h, fun _ => h⟩
  · exact (wp_pure _).2 h

theorem takeReward_effects {reward : U64}
    (h : Effects payer ix.accounts keys w₀ paidIn takenOut w) :
    Wp (takeReward stakingRewardsPoolId reward) w fun _ w' =>
      Effects payer ix.accounts keys w₀ paidIn (takenOut + reward) w' := by
  simp only [takeReward, wp_ite, wp_steps, checkedSub_eq_some]
  constructor
  · intro _ pool hlookup balance hbalance
    exact h.wp_put (.debit (.inr (by simp [keys])) hlookup hbalance)
  · intro hzero
    have hreward : (reward : ℕ) = 0 := by omega
    rw [hreward]
    exact h

/-- What undelegating pays in exceeds what it takes out by no more than the principal exceeds
the balance of the stake account. -/
theorem payOut_effects (ix : Instruction) {stakePk : Pubkey} {account : Account}
    {stake : StakeAccountData} (hlookup : w.lookup stakePk = some account)
    (hstake : storedStake w stakePk = some stake) :
    Wp (payOut payer stakePk stakingStatsId stakingRewardsPoolId account stake) w fun _ w' =>
      ∃ paidIn takenOut, Effects payer ix.accounts keys w paidIn takenOut w' ∧
        paidIn + account.balance = takenOut + stake.amount := by
  simp only [payOut, wp_steps, Word.checked_eq_some]
  refine wp_poolAccumulator fun acc bytes hbytes => ?_
  have h₀ : Effects payer ix.accounts keys w 0 0 w := .refl
  refine (h₀.wp_put (.closeStake hstake ?_ hlookup hbytes)).mono fun _ w₁ h₁ => ?_
  · exact ⟨rfl, rfl⟩
  refine (takeReward_effects h₁).mono fun _ w₂ h₂ paid hpaid => ?_
  refine (h₂.wp_credit (.inr ⟨rfl, .inr rfl⟩)).mono fun _ w₃ h₃ stats hstats => ?_
  refine (lowerStats_effects h₃ hstats).mono fun _ w₄ h₄ => ⟨_, _, h₄, ?_⟩
  omega

theorem undelegate_effects :
    Wp (undelegate ix payer round) w fun _ w' => ∃ stakePk account stake paidIn takenOut,
      ix.accounts[0]? = some stakePk ∧ w.lookup stakePk = some account ∧
      StakeAccountData.readOrLegacy account.data = some stake ∧
      Effects payer ix.accounts keys w paidIn takenOut w' ∧
      (paidIn ≤ takenOut ∨ paidIn + account.balance = takenOut + stake.amount) := by
  simp only [undelegate, wp_steps, wp_readStake, wp_ite]
  intro stakePk hstakePk statsPk _ poolPk _ hstats hpool account hlookup stake hstake hpayer _ _
  subst statsPk
  subst poolPk
  have hstored := storedStake_of_lookup hlookup hstake
  constructor
  · intro _ bytes hbytes
    have h₀ : Effects payer ix.accounts keys w 0 0 w := .refl
    refine (h₀.wp_put (.stake hstored hpayer ?_ hlookup hbytes)).mono fun _ w₁ h₁ => ?_
    · exact ⟨rfl, rfl⟩
    · exact ⟨stakePk, account, stake, _, _, hstakePk, hlookup, hstake, h₁, .inl le_rfl⟩
  · intro _
    apply wp_checkUnbonded
    refine (payOut_effects ix hlookup hstored).mono ?_
    rintro _ w' ⟨paidIn, takenOut, h', heq⟩
    exact ⟨stakePk, account, stake, paidIn, takenOut, hstakePk, hlookup, hstake, h', .inr heq⟩

theorem claimReward_balanced :
    Wp (claimReward ix payer) w fun _ w' => Balanced payer ix.accounts keys w w' := by
  simp only [claimReward, wp_steps, wp_readStake, wp_readPool, wp_ite, wp_find, checkedSub_eq_some]
  rintro stakePk _ _ _ rfl account hlookup stake hstake hpayer _ _ pool _ bytes hbytes
  have h₀ : Effects payer ix.accounts keys w 0 0 w := .refl
  have hstored := storedStake_of_lookup hlookup hstake
  refine (h₀.wp_put (.stake hstored hpayer ?_ hlookup hbytes)).mono fun _ w₁ h₁ => ?_
  · exact ⟨rfl, rfl⟩
  constructor
  · intro _ pool hpool balance hbalance
    refine (h₁.wp_put (.debit (.inr (by simp [keys])) hpool hbalance)).mono fun _ w₂ h₂ => ?_
    exact (h₂.wp_credit (.inr ⟨rfl, .inr rfl⟩)).mono fun _ w₃ h₃ => ⟨_, _, by omega, h₃⟩
  · intro _
    exact ⟨_, _, le_rfl, h₁⟩

theorem reportEquivocation_balanced {evidence : EquivocationEvidence} :
    Wp (reportEquivocation ix evidence) w fun _ w' => Balanced payer ix.accounts keys w w' := by
  simp only [reportEquivocation, checkEvidence, readChainId, wp_steps, wp_readStake, wp_ite]
  intro stakePk _ _ _ _ _ _ _ _ _ _ account hlookup stake hstake _ _ bytes hbytes
  have h₀ : Effects payer ix.accounts keys w 0 0 w := .refl
  have hstored := storedStake_of_lookup hlookup hstake
  refine (h₀.wp_put (.closeStake hstored ?_ hlookup hbytes)).mono fun _ w₁ h₁ => ?_
  · exact ⟨rfl, rfl⟩
  constructor
  · intro _ stats hstats
    exact (lowerStats_effects h₁ hstats).mono fun _ w₂ h₂ => ⟨_, _, by omega, h₂⟩
  · intro _
    exact ⟨_, _, by omega, h₁⟩

theorem registerValidator_balanced {pubkeyBundle : PublicKeyBundle} {address : Utf8} :
    Wp (registerValidator ix payer pubkeyBundle address) w fun _ w' =>
      Balanced payer ix.accounts keys w w' := by
  simp only [registerValidator, readRegistry, wp_steps, wp_readStake]
  rintro _ _ _ _ _ _ _ _ _ rfl _ _ _ _ _ _ _ account hlookup _ _
  split <;> simp only [wp_steps, Exec.wp_put] <;> intros <;>
    exact ⟨_, _, le_rfl, Effects.refl.write (.newData (by simp [keys]) hlookup)⟩

theorem unregisterValidator_balanced :
    Wp (unregisterValidator ix payer) w fun _ w' => Balanced payer ix.accounts keys w w' := by
  simp only [unregisterValidator, readRegistry, wp_steps, Exec.wp_put]
  rintro _ _ _ _ _ rfl account hlookup _ _ _ _ bytes _
  exact ⟨_, _, le_rfl, Effects.refl.write (.newData (by simp [keys]) hlookup)⟩

theorem process_effects :
    Wp (process ix payer round) w fun _ w' =>
      ∃ paidIn takenOut, Effects payer ix.accounts keys w paidIn takenOut w' := by
  simp only [process, wp_rules]
  intro instr _
  cases instr with
  | delegate validator amount => exact delegate_balanced.mono fun _ _ h => h.effects
  | undelegate =>
    refine undelegate_effects.mono ?_
    rintro _ w' ⟨_, _, _, paidIn, takenOut, _, _, _, h', _⟩
    exact ⟨paidIn, takenOut, h'⟩
  | claimReward => exact claimReward_balanced.mono fun _ _ h => h.effects
  | reportEquivocation evidence => exact reportEquivocation_balanced.mono fun _ _ h => h.effects
  | registerValidator bundle address => exact registerValidator_balanced.mono fun _ _ h => h.effects
  | unregisterValidator => exact unregisterValidator_balanced.mono fun _ _ h => h.effects

end StakingProgram

/-! ### Any program -/

namespace NativeProgram

/-- The accounts of the protocol that a program writes. -/
def keys : NativeProgram → List Pubkey
  | system => []
  | staking => StakingProgram.keys
  | stakingV7 => StakingV7Program.keys
  | validatorV7 => ValidatorV7Program.keys
  | treasuryV7 => TreasuryV7Program.keys
  | governance => GovernanceProgram.keys

variable {program : NativeProgram}

theorem process_balanced (h : program ≠ staking) : Wp (program.process ix payer round) w fun _ w' =>
      Balanced payer ix.accounts program.keys w w' := by
  cases program with
  | system => exact SystemProgram.process_balanced
  | staking => exact absurd rfl h
  | stakingV7 => exact StakingV7Program.process_balanced
  | validatorV7 => exact ValidatorV7Program.process_balanced
  | treasuryV7 => exact TreasuryV7Program.process_balanced
  | governance => exact GovernanceProgram.process_balanced

theorem process_effects : Wp (program.process ix payer round) w fun _ w' =>
      ∃ paidIn takenOut, Effects payer ix.accounts program.keys w paidIn takenOut w' := by
  by_cases h : program = staking
  · subst h
    exact StakingProgram.process_effects
  · exact (process_balanced h).mono fun _ _ h' => h'.effects

end NativeProgram

end QChain
