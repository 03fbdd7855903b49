import QChain.Execution.LedgerSteps

/-!
# Accounts that only receive

An account whose address no program can derive, whose data are nothing a program reads, and
which is not among the accounts of the protocol a program writes, can only receive funds while
an instruction of somebody else runs.
-/

namespace QChain

open Accounts Exec Finmap List Transact

/-- An address that is none of those programs derive for new accounts. -/
structure Underived [Crypto] (k : Pubkey) : Prop where
  program : ∀ payer salt, k ≠ deriveProgramAddress payer salt
  proposal : ∀ proposer id, k ≠ deriveProposalAddress proposer id
  pda : ∀ programId seed, k ≠ derivePda programId seed

theorem Underived.of_forall_ne [Crypto] {k : Pubkey} (h : ∀ bytes, Crypto.sha3 bytes ≠ k) :
    Underived k :=
  ⟨fun _ _ => (h _).symm, fun _ _ => (h _).symm, fun _ _ => (h _).symm⟩

/-- The account at an address was credited, or is as it was. -/
def Received (k : Pubkey) (w w' : Accounts) : Prop :=
  ∀ account, w.lookup k = some account → ∃ balance : U64, account.balance ≤ balance ∧
    w'.lookup k = some { account with balance := balance }

/-- Data that no native program takes for one of its own records. -/
structure Unclaimed (w : Accounts) (k : Pubkey) : Prop where
  fresh : ¬IsFresh w k
  position : storedPosition w k = none
  stake : storedStake w k = none
  proposal : storedProposal w k = none

namespace Received

variable {k : Pubkey} {w w' w'' : Accounts}

theorem refl : Received k w w := fun account h => ⟨account.balance, le_rfl, h⟩

theorem of_eq (h : w'.lookup k = w.lookup k) : Received k w w' :=
  fun account hlookup => ⟨account.balance, le_rfl, h.trans hlookup⟩

theorem trans (h : Received k w w') (h' : Received k w' w'') : Received k w w'' := by
  intro account hlookup
  obtain ⟨balance, hle, hlookup'⟩ := h account hlookup
  obtain ⟨balance', hle', hlookup''⟩ := h' _ hlookup'
  exact ⟨balance', hle.trans hle', hlookup''⟩

theorem insert_of_ne {k' : Pubkey} {account : Account} (hk : k ≠ k') :
    Received k w (w.insert k' account) :=
  of_eq (lookup_insert_of_ne w hk)

/-- A credit. -/
theorem credit {k' owner : Pubkey} {balance : U64} {amount : ℕ}
    (hbalance : (balance : ℕ) = w.balanceOf k' + amount) :
    Received k w (w.insert k' { w.getOrNew k' owner with balance := balance }) := by
  intro account hlookup
  by_cases hk : k = k'
  · subst hk
    refine ⟨balance, ?_, ?_⟩
    · rw [Word.le_iff, hbalance, balanceOf_of_lookup hlookup]
      exact Nat.le_add_right _ _
    · rw [lookup_insert, getOrNew_of_lookup hlookup]
  · exact insert_of_ne hk account hlookup

theorem balanceOf_le (h : Received k w w') : w.balanceOf k ≤ w'.balanceOf k := by
  cases hlookup : w.lookup k with
  | none =>
    rw [balanceOf_of_lookup_none hlookup]
    exact Nat.zero_le _
  | some account =>
    obtain ⟨balance, hle, hlookup'⟩ := h account hlookup
    rw [balanceOf_of_lookup hlookup, balanceOf_of_lookup hlookup']
    exact hle

end Received

section

variable [Crypto] {cfg : LedgerConfig} {payer k : Pubkey} {names keys : List Pubkey}
  {w₀ w store : Accounts} {paidIn takenOut : ℕ}

/-- Native programs only credit an account they have no claim to. -/
theorem Effects.received (h : Effects payer names keys w₀ paidIn takenOut w)
    (hpayer : k ≠ payer) (hkeys : k ∉ keys) (hunderived : Underived k)
    (hunclaimed : Unclaimed w₀ k) (hmem : k ∈ w₀) : Received k w₀ w := by
  induction h with
  | refl => exact .refl
  | @write _ _ _ _ w k' account _ hwrite ih =>
    refine ih.trans ?_
    by_cases hk : k = k'
    · subst hk
      cases hwrite with
      | credit _ hbalance => exact .credit hbalance
      | debit hk' => exact absurd hk' (not_or.2 ⟨hpayer, hkeys⟩)
      | data hk' => exact absurd hk' hkeys
      | create _ hnone | openStake _ hnone => exact absurd hmem (lookup_eq_none.1 hnone)
      | deploy _ haddr => exact absurd haddr (hunderived.program _ _)
      | openPosition _ _ hfresh => exact absurd hfresh hunclaimed.fresh
      | position hold => exact absurd (hunclaimed.position.symm.trans hold) (by simp)
      | stake hold | closeStake hold => exact absurd (hunclaimed.stake.symm.trans hold) (by simp)
      | openProposal _ _ haddr => exact absurd haddr (hunderived.proposal _ _)
      | proposal hold | closeProposal hold =>
        exact absurd (hunclaimed.proposal.symm.trans hold) (by simp)
    · exact .insert_of_ne hk

/-- Nothing is written at an address that is not there, not named and not the program's. -/
theorem Effects.lookup_of_notMem (h : Effects payer names keys w₀ paidIn takenOut w)
    (hnames : k ∉ payer :: names) (hkeys : k ∉ keys) (hmem : k ∉ w₀) : k ∉ w := by
  have hnone : w₀.lookup k = none := lookup_eq_none.2 hmem
  rw [mem_cons, not_or] at hnames
  induction h with
  | refl => exact hmem
  | @write _ _ _ _ w k' account _ hwrite ih =>
    rw [mem_insert, not_or]
    refine ⟨?_, ih⟩
    rintro rfl
    cases hwrite with
    | credit hk' =>
      rcases hk' with hk' | ⟨_, hk' | hk'⟩
      · exact hkeys hk'
      · exact hnames.2 hk'
      · exact hnames.1 hk'
    | debit hk' => exact hk'.elim hnames.1 hkeys
    | data hk' => exact hkeys hk'
    | create hk' | deploy hk' | openPosition hk' | openStake hk' | openProposal hk' =>
      exact hnames.2 hk'
    | position hold => simp [storedPosition, hnone] at hold
    | stake hold | closeStake hold => simp [storedStake, hnone] at hold
    | proposal hold | closeProposal hold => simp [storedProposal, hnone] at hold

variable {amountIn amountOut : ℕ} {w' : Accounts} {account : Account}

/-- A contract only credits accounts that are neither the payer's nor its own. -/
theorem ContractEffect.received {programId : Pubkey} (h : ContractEffect programId payer names w w')
    (hpayer : k ≠ payer) (hpda : ∀ seed, k ≠ derivePda programId seed)
    (howner : ∀ account, w.lookup k = some account → account.owner ≠ programId) :
    Received k w w' := by
  by_cases hname : k ∈ names
  · intro account hlookup
    obtain ⟨after, hafter, hwrite⟩ := h.write k hname
    rw [getOrNew_of_lookup hlookup] at hwrite
    have howner' := howner account hlookup
    have hsame : after.owner = account.owner := by
      by_contra hne
      obtain ⟨_, seed, hseed⟩ := hwrite.owner hne
      exact hpda seed hseed
    have hdata : after.data = account.data := by
      by_contra hne
      rcases hwrite.data hne with hk | hk | hk
      · exact hpayer hk
      · exact howner' hk
      · exact howner' (hsame.symm.trans hk)
    have hbalance : account.balance ≤ after.balance := by
      by_contra hlt
      exact (hwrite.debit (not_le.1 hlt)).elim hpayer howner'
    obtain ⟨hnonce, halgorithm, hcode⟩ := hwrite.frame
    refine ⟨after.balance, hbalance, ?_⟩
    rw [hafter, ← hsame, ← hdata, ← hnonce, ← halgorithm, ← hcode]
  · exact .of_eq (h.frame k hname)

/-! ### Over a store -/

omit [Crypto] in
theorem Unclaimed.congr (h : Unclaimed w k) (hlookup : w'.lookup k = w.lookup k) :
    Unclaimed w' k := by
  have hfresh : IsFresh w' k ↔ IsFresh w k := by
    rw [IsFresh, IsFresh, balanceOf_congr hlookup, getOrNew_congr hlookup]
  refine ⟨fun hw' => h.fresh (hfresh.1 hw'), ?_, ?_, ?_⟩
  · rw [storedPosition, hlookup]
    exact h.position
  · rw [storedStake, hlookup]
    exact h.stake
  · rw [storedProposal, hlookup]
    exact h.proposal

omit [Crypto] in
theorem Received.union (h : Received k w w') (hmem : k ∈ w) :
    Received k (w ∪ store) (w' ∪ store) := by
  intro account hlookup
  rw [lookup_union_of_covers (.inl hmem)] at hlookup
  obtain ⟨balance, hle, hlookup'⟩ := h account hlookup
  refine ⟨balance, hle, ?_⟩
  rw [lookup_union_eq, hlookup', Option.some_or]

omit [Crypto] in
/-- Where neither has a copy, the store shows. -/
theorem Received.of_notMem (hw : k ∉ w) (hw' : k ∉ w') : Received k (w ∪ store) (w' ∪ store) := by
  apply Received.of_eq
  rw [lookup_union_eq, lookup_union_eq, lookup_eq_none.2 hw,
    lookup_eq_none.2 hw']

/-- An execution only credits an account that the program has no claim to. -/
theorem Runs.received {e : Execution} (h : Runs cfg e)
    (hcovers : Covers e.before store (e.payer :: e.ix.accounts)) (hpayer : k ≠ e.payer)
    (hunderived : Underived k)
    (hkeys : ∀ program, nativeProgram cfg.economicsV7 e.ix.programId = some program →
      k ∉ program.keys)
    (hunclaimed : Unclaimed (e.before ∪ store) k)
    (howner : nativeProgram cfg.economicsV7 e.ix.programId = none →
      ∀ account, (e.before ∪ store).lookup k = some account → account.owner ≠ e.ix.programId) :
    Received k (e.before ∪ store) (e.after ∪ store) := by
  by_cases hmem : k ∈ e.before
  · have hview := lookup_union_of_covers (.inl hmem : _ ∨ k ∉ store)
    refine Received.union ?_ hmem
    cases h with
    | native hprogram hrun =>
      obtain ⟨paidIn, takenOut, heffects⟩ := NativeProgram.process_effects _ _ hrun
      exact heffects.received hpayer (hkeys _ hprogram) hunderived (hunclaimed.congr hview.symm)
        hmem
    | contract hnone heffect =>
      refine heffect.received hpayer (hunderived.pda _) fun account hlookup => ?_
      exact howner hnone account (hview.trans hlookup)
  · by_cases hstore : k ∈ store
    · -- what the store has there would have been copied if the instruction named it
      have hnames : k ∉ e.payer :: e.ix.accounts := fun hname =>
        (hcovers k hname).elim hmem fun hnot => hnot hstore
      refine Received.of_notMem hmem ?_
      cases h with
      | native hprogram hrun =>
        obtain ⟨paidIn, takenOut, heffects⟩ := NativeProgram.process_effects _ _ hrun
        exact heffects.lookup_of_notMem hnames (hkeys _ hprogram) hmem
      | contract _ heffect =>
        rw [← lookup_eq_none, heffect.frame k fun hk => hnames (mem_cons_of_mem _ hk),
          lookup_eq_none]
        exact hmem
    · intro account hlookup
      rw [lookup_union_eq, lookup_eq_none.2 hmem, lookup_eq_none.2 hstore]
        at hlookup
      cases hlookup

omit [Crypto]

theorem LedgerWrite.received {collector k' : Pubkey}
    (h : LedgerWrite cfg payer collector w k' account amountIn amountOut) (hpayer : k ≠ payer)
    (hk : k ∉ [feeStateAccountId, paramsAccountId, stakingRewardsPoolId]) :
    Received k w (w.insert k' account) := by
  simp only [mem_cons, not_mem_nil, or_false, not_or] at hk
  cases h with
  | fee _ hbalance => exact .credit hbalance
  | charge | reserve => exact .insert_of_ne hpayer
  | feeState hk' =>
    rcases hk' with rfl | rfl
    · exact .insert_of_ne hk.1
    · exact .insert_of_ne hk.2.1
  | rewardPool => exact .insert_of_ne hk.2.2

theorem ClosingWrite.received {k' : Pubkey} (h : ClosingWrite w k' account amountIn amountOut)
    (hk : k ∉ closingKeys) :
    Received k w (w.insert k' account) := by
  simp only [closingKeys, mem_cons, not_mem_nil, or_false, not_or] at hk
  cases h with
  | emit => exact .insert_of_ne hk.1
  | spend hk' =>
    rcases hk' with rfl | rfl
    · exact .insert_of_ne hk.2.1
    · exact .insert_of_ne hk.2.2.1
  | reward _ hbalance => exact .credit hbalance
  | registry => exact .insert_of_ne hk.2.2.2.1
  | global => exact .insert_of_ne hk.2.2.2.2

/-- The upkeep between two quantos pays out of the fee pool and keeps the registry only. -/
theorem UpkeepWrite.received {k' : Pubkey} (h : UpkeepWrite w k' account amountIn amountOut)
    (hk : k ≠ validatorFeePoolId ∧ k ≠ validatorRegistryAccountId) :
    Received k w (w.insert k' account) := by
  cases h with
  | spend => exact .insert_of_ne hk.1
  | reward _ hbalance => exact .credit hbalance
  | registry => exact .insert_of_ne hk.2

end

end QChain
