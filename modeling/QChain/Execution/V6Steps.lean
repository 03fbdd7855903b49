import QChain.Execution.StakeBooks

/-!
# Steps of the v6 economy

What the instructions of the staking and the governance program do to the books. Each is one of a
few steps, so that an invariant of the books is proved by one case split.
-/

namespace QChain

open Borsh Exec List Option Transact Working

/-- The owner of an account, as a fact about whatever is at its address. -/
theorem owner_of_lookup {w : Accounts} {k owner : Pubkey} {account : Account}
    (hlookup : w.lookup k = some account) (howner : account.owner = owner) :
    ∀ account', w.lookup k = some account' → account'.owner = owner := by
  intro account' hlookup'
  rw [← mem_unique hlookup hlookup', howner]

/-- A report of equivocation that does not name the stats account. -/
def Instruction.Unaccounted (ix : Instruction) : Prop :=
  ∃ evidence, StakingInstruction.decode.all ix.data = some (.reportEquivocation evidence) ∧
    stakingStatsId ∉ ix.accounts

/-- What a call does to the books: a stake is opened or replaced, and the total moves with it. Only
some calls may replace a stake and leave the total. -/
inductive StakeStep (unaccounted : Prop) (b : StakeBooks) : StakeBooks → Prop
  | opens {k : Pubkey} {stake : StakeAccountData} {total : U64} (hk : k ∉ b.stakes)
      (htotal : (total : ℕ) = b.total + stake.amount) :
      StakeStep unaccounted b ⟨b.stakes.insert k stake, total⟩
  | replaces {k : Pubkey} {stake stake' : StakeAccountData} {total : U64}
      (hstake : b.stakes.lookup k = some stake)
      (htotal : (total : ℕ) + stake.amount = b.total + stake'.amount) :
      StakeStep unaccounted b ⟨b.stakes.insert k stake', total⟩
  | burns {k : Pubkey} {stake stake' : StakeAccountData} (h : unaccounted)
      (hstake : b.stakes.lookup k = some stake) :
      StakeStep unaccounted b { b with stakes := b.stakes.insert k stake' }
  | keeps : StakeStep unaccounted b b

/-- The copies are those of the books after a step of an instruction. -/
def Stepped (unaccounted : Prop) (ix : Instruction) (payer : Pubkey) (store : Accounts)
    (b : StakeBooks) (w : Accounts) : Prop :=
  ∃ b', StakeStep unaccounted b b' ∧ Working (payer :: ix.accounts) store w b'

variable {w store : Accounts} {ix : Instruction} {payer k : Pubkey} {round amount : U64}
  {b : StakeBooks} {U : Prop}

/-- The instruction names an address. -/
theorem mem_names {i : ℕ} (h : ix.accounts[i]? = some k) : k ∈ payer :: ix.accounts :=
  mem_cons_of_mem _ (mem_of_getElem? h)

/-- A stake was replaced by one of the same amount. -/
theorem Working.updated {stake stake' : StakeAccountData}
    (h : Working (payer :: ix.accounts) store w
      { b with stakes := b.stakes.insert k stake' })
    (hstake : b.stakes.lookup k = some stake) (hamount : stake'.amount = stake.amount) :
    Stepped U ix payer store b w :=
  ⟨_, .replaces hstake (by rw [hamount]), h⟩

theorem Working.stepped (h : Working (payer :: ix.accounts) store w b) :
    Stepped U ix payer store b w := ⟨b, .keeps, h⟩

/-! ### The staking program -/

namespace StakingProgram

section

variable (h : Working (payer :: ix.accounts) store w b)

include h

theorem wp_takeReward {reward : U64} :
    Wp (takeReward stakingRewardsPoolId reward) w fun _ w' =>
      Working (payer :: ix.accounts) store w' b := by
  unfold takeReward
  simp only [wp_ite, wp_steps, wp_put]
  exact ⟨fun _ account hlookup balance _ => h.put_balance hlookup balance, fun _ => h⟩

theorem wp_delegate {validator : Pubkey} :
    Wp (delegate ix payer round validator amount) w fun _ w' =>
      Stepped ix.Unaccounted ix payer store b w' := by
  unfold delegate
  simp only [wp_rules, wp_named, wp_find, wp_load, wp_put]
  rintro payer _ k hk _ hstats _ _ rfl rfl rfl hnone account hlookup _ balance _
  obtain ⟨hnew, hfree⟩ := h.absent (mem_names hk) hnone
  have hne : k ≠ payer := by
    rintro rfl
    rw [hnone] at hlookup
    cases hlookup
  have h₁ := h.put_balance hlookup balance
  refine wp_poolAccumulator fun acc bondingUntilRound _ => ?_
  simp only [wp_toData]
  intro bytes hbytes
  have h₂ := h₁.put_stake (a := { Account.newWallet stakingProgramId with
      balance := amount, data := bytes }) (mem_names hk) hfree ?_ rfl hbytes
  · obtain ⟨stats, hstats, htotal⟩ := h₂.exists_stats (mem_names hstats)
    rw [hstats]
    refine (h₂.wp_updateStats (P := fun total => (total : ℕ) = b.total + amount) hstats ?_).mono ?_
    · simp [htotal]
    · rintro _ w' ⟨total, htotal, hw'⟩
      exact ⟨_, .opens hnew htotal, hw'⟩
  · intro account' hlookup'
    rw [Finmap.lookup_insert_of_ne _ hne, hnone] at hlookup'
    cases hlookup'

theorem wp_payOut {account : Account} (hk : k ∈ ix.accounts)
    (hstats : stakingStatsId ∈ payer :: ix.accounts)
    (hlookup : w.lookup k = some account) (hfree : IsStakeKey k)
    (howner : account.owner = stakingProgramId) (stake : StakeAccountData) :
    Wp (payOut payer k stakingStatsId stakingRewardsPoolId account stake) w fun _ w' =>
      ∃ total : U64, (total : ℕ) + stake.amount = b.total ∧
        Working (payer :: ix.accounts) store w'
          ⟨b.stakes.insert k { stake with amount := 0, rewardDebt := 0 }, total⟩ := by
  unfold payOut
  simp only [wp_steps, wp_put]
  refine wp_poolAccumulator fun acc bytes hbytes => ?_
  have h₁ := h.put_stake (a := { account with balance := 0, data := bytes })
    (mem_cons_of_mem _ hk) hfree (owner_of_lookup hlookup howner) howner hbytes
  refine (wp_takeReward h₁).mono fun _ w₂ h₂ paid _ => ?_
  refine (h₂.wp_credit mem_cons_self).mono ?_
  intro _ w₃ h₃ stats hlookup'
  obtain ⟨stats', hlookup'', htotal⟩ := h₃.exists_stats hstats
  obtain rfl := mem_unique hlookup' hlookup''
  refine (h₃.wp_updateStats (P := fun total => (total : ℕ) + stake.amount = b.total) hlookup'
    ?_).mono fun _ _ h' => h'
  simp [htotal]

variable (hgenuine : ∀ k ∈ ix.accounts, Accounts.Genuine (w ∪ store) k)

include hgenuine

theorem wp_undelegate :
    Wp (undelegate ix payer round) w fun _ w' => Stepped ix.Unaccounted ix payer store b w' := by
  unfold undelegate
  simp only [wp_steps, wp_readStake]
  rintro k hk _ hstats _ _ rfl rfl account hlookup stake hread _ _ _
  have hname : k ∈ ix.accounts := mem_of_getElem? hk
  obtain ⟨hstake, hfree, howner⟩ := h.read (hgenuine k hname) hlookup hread
  simp only [wp_ite, wp_steps, wp_put]
  refine ⟨fun _ bytes hbytes => ?_, fun _ => ?_⟩
  · have h₁ := h.put_stake (a := { account with data := bytes }) (mem_names hk) hfree
      (owner_of_lookup hlookup howner) howner hbytes
    exact h₁.updated hstake rfl
  · have hcheck : Wp (checkUnbonded stake round) w fun _ w' => w' = w := by
      unfold checkUnbonded
      cases stake.unbondingRequestedAtRound with
      | none => exact (wp_pure _).2 rfl
      | some requestedRound => simp
    refine hcheck.mono ?_
    rintro _ _ rfl
    refine (wp_payOut h hname (mem_names hstats) hlookup hfree howner stake).mono ?_
    rintro _ w' ⟨total, htotal, hw'⟩
    exact ⟨_, .replaces hstake htotal, hw'⟩

theorem wp_claimReward :
    Wp (claimReward ix payer) w fun _ w' => Stepped ix.Unaccounted ix payer store b w' := by
  unfold claimReward
  simp only [wp_steps, wp_readStake, wp_readPool]
  rintro k hk _ _ rfl account hlookup stake hread _ poolAccount _ pool _ bytes hbytes
  have hname : k ∈ ix.accounts := mem_of_getElem? hk
  obtain ⟨hstake, hfree, howner⟩ := h.read (hgenuine k hname) hlookup hread
  have h₁ := h.put_stake (a := { account with data := bytes }) (mem_names hk) hfree
    (owner_of_lookup hlookup howner) howner hbytes
  simp only [wp_ite, wp_rules, wp_find, wp_put]
  refine ⟨fun _ poolAccount' hpool balance _ => ?_, fun _ => h₁.updated hstake rfl⟩
  refine ((h₁.put_balance hpool balance).wp_credit mem_cons_self).mono fun _ w' hw' => ?_
  exact hw'.updated hstake rfl

end

/-- The validator registry is written. -/
theorem put_registry (h : Working (payer :: ix.accounts) store w b) {account : Account}
    (hlookup : w.lookup validatorRegistryAccountId = some account) (bytes : List UInt8) :
    Stepped ix.Unaccounted ix payer store b
      (w.insert validatorRegistryAccountId { account with data := bytes }) :=
  (h.put_same (records_registry h.seeded (lookup_union hlookup) bytes)).stepped

theorem wp_unregisterValidator (h : Working (payer :: ix.accounts) store w b) :
    Wp (unregisterValidator ix payer) w fun _ w' => Stepped ix.Unaccounted ix payer store b w' := by
  simp only [unregisterValidator, readRegistry, wp_steps, wp_put]
  rintro _ _ _ _ _ rfl account hlookup _ _ _ _ bytes _
  exact put_registry h hlookup bytes

variable [Crypto]

theorem wp_reportEquivocation (h : Working (payer :: ix.accounts) store w b)
    (hgenuine : ∀ k ∈ ix.accounts, Accounts.Genuine (w ∪ store) k)
    {evidence : EquivocationEvidence}
    (hix : StakingInstruction.decode.all ix.data = some (.reportEquivocation evidence)) :
    Wp (reportEquivocation ix evidence) w fun _ w' =>
      Stepped ix.Unaccounted ix payer store b w' := by
  unfold reportEquivocation
  have hchain : ∀ {Q : Bytes32 → Accounts → Prop}, (∀ chainId, Q chainId w) →
      Wp readChainId w Q := by
    intro Q hQ
    simp [readChainId, hQ]
  simp only [wp_steps, wp_readStake, wp_put]
  intro k hk _
  refine hchain fun chainId _ _ => ?_
  simp only [checkEvidence, wp_rules]
  intro _ _ _ account hlookup stake hread _ _ bytes hbytes
  have hname : k ∈ ix.accounts := mem_of_getElem? hk
  obtain ⟨hstake, hfree, howner⟩ := h.read (hgenuine k hname) hlookup hread
  have h₁ := h.put_stake (a := { account with balance := 0, data := bytes }) (mem_names hk) hfree
    (owner_of_lookup hlookup howner) howner hbytes
  simp only [wp_ite, wp_steps]
  refine ⟨fun hnamed stats hstats => ?_, fun hunnamed => ?_⟩
  · obtain ⟨stats', hstats', htotal⟩ := h₁.exists_stats (mem_cons_of_mem _ hnamed)
    obtain rfl := mem_unique hstats hstats'
    refine (h₁.wp_updateStats (P := fun total => (total : ℕ) + stake.amount = b.total) hstats
      ?_).mono ?_
    · simp [htotal]
    · rintro _ w' ⟨total, htotal, hw'⟩
      exact ⟨_, .replaces hstake htotal, hw'⟩
  · exact ⟨_, .burns ⟨evidence, hix, hunnamed⟩ hstake, h₁⟩

theorem wp_registerValidator (h : Working (payer :: ix.accounts) store w b)
    {pubkeyBundle : PublicKeyBundle} {address : Utf8} :
    Wp (registerValidator ix payer pubkeyBundle address) w fun _ w' =>
      Stepped ix.Unaccounted ix payer store b w' := by
  simp only [registerValidator, wp_steps, wp_readStake]
  rintro _ _ _ _ _ _ _ _ _ rfl stakeAccount _ _ stake _ _ _ account hlookup
  simp only [readRegistry, wp_orThrow]
  intro registry _
  split
  · simp only [wp_steps, wp_put]
    exact fun bytes _ => put_registry h hlookup bytes
  · simp only [wp_steps, wp_put]
    exact fun _ bytes _ => put_registry h hlookup bytes

/-- Every instruction is a step of the books. -/
theorem wp_process (h : Working (payer :: ix.accounts) store w b)
    (hgenuine : ∀ k ∈ ix.accounts, Accounts.Genuine (w ∪ store) k) :
    Wp (process ix payer round) w fun _ w' => Stepped ix.Unaccounted ix payer store b w' := by
  simp only [process, wp_rules]
  intro instr hix
  cases instr with
  | delegate validator amount => exact wp_delegate h
  | undelegate => exact wp_undelegate h hgenuine
  | claimReward => exact wp_claimReward h hgenuine
  | reportEquivocation evidence => exact wp_reportEquivocation h hgenuine hix
  | registerValidator pubkeyBundle address => exact wp_registerValidator h
  | unregisterValidator => exact wp_unregisterValidator h

end StakingProgram

/-! ### Rewards -/

/-- A share of the fees leaves the books as they are. -/
theorem wp_accrueRewardPool_books {names : List Pubkey} {share : U64} (h : Working names store w b)
    (hpool : stakingRewardsPoolId ∈ names) :
    Wp (accrueRewardPool stakingRewardsPoolId stakingStatsId share) w fun _ w' =>
      Working names store w' b := by
  obtain ⟨pool, hlookup, _⟩ := h.seeded.pool
  rw [h.lookup_eq hpool] at hlookup
  have hshare : ∀ total : U64, Wp (accrueShare stakingRewardsPoolId total share) w fun _ w' =>
      Working names store w' b := by
    intro total
    simp only [accrueShare, wp_ite, wp_pure]
    refine ⟨fun _ => h, fun _ => ?_⟩
    rw [wp_bind, wp_get, hlookup, getD_some]
    simp only [wp_steps, wp_readPool, wp_put]
    intro _ _ _ _ _ _ bytes hbytes balance _
    exact h.put_same (records_pool h.seeded (lookup_union hlookup) hbytes balance)
  simp only [accrueRewardPool, wp_ite, wp_rules, wp_find]
  refine ⟨fun _ => h, fun _ => ?_⟩
  split
  · rw [wp_bind, wp_readStats]
    exact fun total _ => hshare total
  · rw [wp_bind, wp_pure]
    exact hshare 0

/-! ### The governance program -/

namespace GovernanceProgram

/-- There is an account, and the governance program owns it. -/
def Governed (w : Accounts) (k : Pubkey) : Prop :=
  ∃ account, w.lookup k = some account ∧ account.owner = governanceProgramId

theorem governed_of_storedProposal {proposal : Proposal}
    (h : storedProposal w k = some proposal) : Governed w k := by
  rw [storedProposal, bind_eq_some_iff] at h
  obtain ⟨account, hfilter, _⟩ := h
  rw [filter_eq_some_iff] at hfilter
  exact ⟨account, hfilter.1, of_decide_eq_true hfilter.2⟩

theorem Governed.owner_eq {account : Account} (h : Governed w k)
    (hlookup : w.lookup k = some account) : account.owner = governanceProgramId := by
  obtain ⟨account', hlookup', howner⟩ := h
  rwa [mem_unique hlookup hlookup']

/-- A write that keeps the owner. -/
theorem Governed.insert {k' : Pubkey} {a : Account} (h : Governed w k)
    (ha : ∀ account, w.lookup k' = some account → a.owner = account.owner) :
    Governed (w.insert k' a) k := by
  obtain ⟨account, hlookup, howner⟩ := h
  by_cases hk : k = k'
  · subst hk
    exact ⟨a, Finmap.lookup_insert _, (ha account hlookup).trans howner⟩
  · exact ⟨account, (Finmap.lookup_insert_of_ne _ hk).trans hlookup, howner⟩

section

variable (h : Working (payer :: ix.accounts) store w b)

include h

theorem wp_writeProposal {proposal : Proposal} (hname : k ∈ ix.accounts) (hk : Governed w k) :
    Wp (writeProposal k proposal) w fun _ w' => Working (payer :: ix.accounts) store w' b := by
  simp only [writeProposal, writeData, wp_steps, wp_put]
  intro bytes _ account hlookup
  have howner := hk.owner_eq hlookup
  exact h.put_governed (mem_cons_of_mem _ hname) (fun _ => hk.owner_eq) howner

theorem wp_finalize : Wp (finalize ix round) w fun _ w' => Stepped U ix payer store b w' := by
  simp only [finalize, wp_steps, wp_readProposal]
  intro k hk _ _ _ proposal hproposal _ _
  exact (wp_writeProposal h (mem_of_getElem? hk) (governed_of_storedProposal hproposal)).mono
    fun _ _ hw' => hw'.stepped

theorem wp_vote (hgenuine : ∀ k ∈ ix.accounts, Accounts.Genuine (w ∪ store) k)
    {choice : VoteChoice} :
    Wp (vote ix payer round choice) w fun _ w' => Stepped U ix payer store b w' := by
  simp only [vote, writeProposal, writeData, wp_steps, wp_readProposal, wp_find, wp_put]
  intro k hk stakePk hstakePk account hlookup _ stake hread _ _ proposal hproposal _ _ _ _ proposal'
    _ data _ proposalAccount hlookup' bytes hbytes account₁ hlookup₁
  have hgoverned := governed_of_storedProposal hproposal
  obtain ⟨hstake, hfree, howner⟩ :=
    h.read (hgenuine stakePk (mem_of_getElem? hstakePk)) hlookup hread
  have howner' := hgoverned.owner_eq hlookup'
  have h₁ := h.put_governed (a := { proposalAccount with data := data }) (mem_names hk)
    (fun _ => hgoverned.owner_eq) howner'
  -- the proposal and the stake are in accounts of different programs
  have hne : stakePk ≠ k := by
    rintro rfl
    exact absurd (howner.symm.trans (hgoverned.owner_eq hlookup)) (by decide)
  obtain rfl : account = account₁ := by
    rw [Finmap.lookup_insert_of_ne _ hne, hlookup] at hlookup₁
    exact Option.some.inj hlookup₁
  have h₂ := h₁.put_stake (a := { account with data := bytes }) (mem_names hstakePk) hfree
    (owner_of_lookup hlookup₁ howner) howner hbytes
  exact h₂.updated hstake rfl

/-- An account of the protocol that the program owns is written. -/
theorem put_key {target : Pubkey} {account : Account} (htarget : target ∈ keys)
    (hlookup : w.lookup target = some account) (bytes : List UInt8) :
    Working (payer :: ix.accounts) store (w.insert target { account with data := bytes }) b := by
  obtain ⟨account', hlookup', howner⟩ := h.seeded.governed target htarget
  obtain rfl := mem_unique (lookup_union hlookup) hlookup'
  exact h.put_same (records_governed h.seeded (owner_of_lookup hlookup' howner) howner)

/-- The account that an executed proposal changes belongs to the program. -/
theorem wp_applyAction {target : Pubkey} (hk : Governed w k) {action : ProposalAction} :
    Wp (applyAction target action round) w fun _ w' =>
      Governed w' k ∧ Working (payer :: ix.accounts) store w' b := by
  have hput : ∀ {account : Account} {bytes : List UInt8}, target ∈ keys →
      w.lookup target = some account →
      Governed (w.insert target { account with data := bytes }) k ∧
        Working (payer :: ix.accounts) store
          (w.insert target { account with data := bytes }) b := by
    intro account bytes htarget hlookup
    refine ⟨hk.insert fun account' hlookup' => ?_, put_key h htarget hlookup bytes⟩
    rw [mem_unique hlookup hlookup']
  unfold applyAction
  split
  · simp only [wp_steps, wp_put]
    rintro rfl account hlookup registry _
    exact wp_applyRegistryAction fun registry' bytes _ => hput (by simp [keys]) hlookup
  · simp only [wp_steps, wp_put]
    rintro rfl account hlookup params _
    exact wp_applyEconomicAction fun params' bytes _ => hput (by simp [keys]) hlookup

theorem wp_execute : Wp (execute ix round) w fun _ w' => Stepped U ix payer store b w' := by
  simp only [execute, wp_steps, wp_readProposal]
  intro k hk target _ _ _ _
  refine wp_checkNotPaused fun proposal hproposal _ passedRound _ _ => ?_
  refine (wp_applyAction h (governed_of_storedProposal hproposal)).mono ?_
  rintro _ w₁ ⟨hk₁, h₁⟩
  exact (wp_writeProposal h₁ (mem_of_getElem? hk) hk₁).mono fun _ _ hw' => hw'.stepped

theorem wp_applyEmergencyApproval {wantPaused : Bool} :
    Wp (applyEmergencyApproval ix payer wantPaused) w fun _ w' =>
      Stepped U ix payer store b w' := by
  simp only [applyEmergencyApproval, wp_steps, wp_put]
  rintro _ _ rfl account hlookup state _ _ _ _ bytes _
  exact (put_key h (by simp [keys]) hlookup bytes).stepped

/-- A credit keeps the owner of an account. -/
theorem wp_refund {i : ℕ} {refundPk : Pubkey} (hk : Governed w k)
    (hname : ix.accounts[i]? = some refundPk) :
    Wp (credit refundPk systemProgramId amount) w fun _ w' =>
      Governed w' k ∧ Working (payer :: ix.accounts) store w' b := by
  refine Wp.and ?_ (h.wp_credit (mem_names hname))
  rw [Exec.wp_credit]
  intro balance _
  refine hk.insert fun account hlookup => ?_
  rw [Accounts.getOrNew_of_lookup hlookup]

omit h in
/-- The account of the proposal is emptied. -/
theorem close {account : Account} (hname : k ∈ ix.accounts)
    (h : Governed w k ∧ Working (payer :: ix.accounts) store w b)
    (hlookup : w.lookup k = some account) :
    Stepped U ix payer store b (w.insert k { account with balance := 0, data := [] }) := by
  have howner := h.1.owner_eq hlookup
  exact (h.2.put_governed (a := { account with balance := 0, data := [] })
    (mem_cons_of_mem _ hname) (fun _ => h.1.owner_eq) howner).stepped

theorem wp_closeProposal :
    Wp (closeProposal ix round) w fun _ w' => Stepped U ix payer store b w' := by
  simp only [closeProposal, wp_steps, wp_readProposal, wp_ite, wp_put]
  intro k hk refundPk hrefund burnPk hburn _ proposal hproposal _ _ _ _ _ _ burn _
  have hname : k ∈ ix.accounts := mem_of_getElem? hk
  have hgoverned := governed_of_storedProposal hproposal
  -- up to two credits come before the account is emptied
  refine ⟨fun _ => (wp_refund h hgoverned hrefund).mono ?_,
    fun _ => ⟨fun _ => (wp_refund h hgoverned hburn).mono ?_, fun _ _ => ?_⟩⟩
  · intro _ w₁ h₁
    refine ⟨fun _ => (wp_refund h₁.2 h₁.1 hburn).mono fun _ w₂ h₂ _ => ?_, fun _ _ => ?_⟩
    · exact close hname h₂
    · exact close hname h₁
  · exact fun _ w₁ h₁ _ => close hname h₁
  · exact close hname ⟨hgoverned, h⟩

variable [Crypto]

theorem wp_createProposal {id : U64} {action : ProposalAction} :
    Wp (createProposal ix payer round id action) w fun _ w' => Stepped U ix payer store b w' := by
  simp only [createProposal, newProposal, wp_steps, wp_find, wp_ite, wp_put]
  rintro payer _ k hk _ _ rfl _ _ rfl rfl _ hnone stats _ total _ _ _ params _
  have hnew : ∀ {w' : Accounts}, w'.lookup k = none → ∀ account, w'.lookup k = some account →
      account.owner = governanceProgramId := by
    intro w' hnone' account hlookup
    rw [hnone'] at hlookup
    cases hlookup
  refine ⟨fun _ account hlookup _ balance _ votingEndsRound _ bytes _ => ?_,
    fun _ votingEndsRound _ bytes _ => ?_⟩
  · have hne : k ≠ payer := by
      rintro rfl
      rw [hnone] at hlookup
      cases hlookup
    refine ((h.put_balance hlookup balance).put_governed (mem_names hk) (hnew ?_) rfl).stepped
    rw [Finmap.lookup_insert_of_ne _ hne, hnone]
  · exact (h.put_governed (mem_names hk) (hnew hnone) rfl).stepped

/-- Every instruction is a step of the books. -/
theorem wp_process (hgenuine : ∀ k ∈ ix.accounts, Accounts.Genuine (w ∪ store) k) :
    Wp (process ix payer round) w fun _ w' => Stepped U ix payer store b w' := by
  simp only [process, wp_rules]
  intro instr _
  cases instr with
  | createProposal id action => exact wp_createProposal h
  | vote choice => exact wp_vote h hgenuine
  | finalize => exact wp_finalize h
  | execute => exact wp_execute h
  | emergencyPause | emergencyUnpause => exact wp_applyEmergencyApproval h
  | closeProposal => exact wp_closeProposal h

end

end GovernanceProgram

end QChain
