import QChain.Execution.Solvency

/-!
# The principal of a deposit

A deposit is priced at the index its quanto is expected to close with. Where the quanto closes with
that index, its shares are worth what was paid for them, up to the value of one share. Under the
hard cap a quanto closes with a lower index if the emission reserve does not pay for the growth. The
results are about runs of arbitrary transactions.
-/

namespace QChain

open Accounts Borsh Exec Finmap List Option Transact

/-! ### The totals -/

/-- The account of the totals, with these totals. -/
def Totals (g : GlobalStakingState) (v : Accounts) : Prop :=
  ∃ account, v.lookup stakingGlobalId = some account ∧ account.owner = stakingProgramId ∧
    fromSlice account.data = some g

/-- Two totals price deposits alike, in the same quanto. -/
structure SamePrice (g g' : GlobalStakingState) : Prop where
  index : g'.index = g.index
  rate : g'.rateFp = g.rateFp
  quanto : g'.currentQuanto = g.currentQuanto

namespace Totals

variable {g g' : GlobalStakingState} {v v' : Accounts} {k owner : Pubkey} {account : Account}
  {amount : U64}

theorem storedGlobal_eq (h : Totals g v) : storedGlobal v = some g := by
  obtain ⟨account, hlookup, _, hdata⟩ := h
  rw [storedGlobal, hlookup]
  exact hdata

theorem length_data (h : v.lookup stakingGlobalId = some account)
    (htotals : Totals g v) : account.data.length = 80 := by
  obtain ⟨account', hlookup, _, hdata⟩ := htotals
  obtain rfl := mem_unique h hlookup
  exact length_toVec (fromSlice_eq_some_iff.1 hdata)

variable (h : Totals g v)

include h

theorem storedPosition_eq_none : storedPosition v stakingGlobalId = none := by
  obtain ⟨account, hlookup, _⟩ := id h
  rw [storedPosition, hlookup]
  apply fromSlice_position_eq_none
  rw [length_data hlookup h]
  decide

theorem ne_of_storedPosition {pos : StakePositionV7} (hpos : storedPosition v k = some pos) :
    k ≠ stakingGlobalId := by
  rintro rfl
  rw [h.storedPosition_eq_none] at hpos
  cases hpos

theorem of_received (hreceived : Received stakingGlobalId v v') : Totals g v' := by
  obtain ⟨account, hlookup, howner, hdata⟩ := h
  obtain ⟨balance, _, hlookup'⟩ := hreceived account hlookup
  exact ⟨_, hlookup', howner, hdata⟩

theorem insert_of_ne (hk : stakingGlobalId ≠ k) : Totals g (v.insert k account) := by
  obtain ⟨account', hlookup, htotals⟩ := h
  exact ⟨account', (lookup_insert_of_ne _ hk).trans hlookup, htotals⟩

theorem insert_balance {balance : U64} :
    Totals g (v.insert k { v.getOrNew k owner with balance := balance }) := by
  by_cases hk : stakingGlobalId = k
  · subst hk
    obtain ⟨account, hlookup, howner, hdata⟩ := h
    refine ⟨_, lookup_insert _, ?_⟩
    rw [getOrNew_of_lookup hlookup]
    exact ⟨howner, hdata⟩
  · exact h.insert_of_ne hk

theorem insert_data {bytes : List UInt8} (hbytes : toVec g' = some bytes) :
    Totals g' (v.insert stakingGlobalId
      { v.getOrNew stakingGlobalId stakingProgramId with data := bytes }) := by
  obtain ⟨account, hlookup, howner, _⟩ := h
  refine ⟨_, lookup_insert _, ?_, fromSlice_eq_some_iff.2 hbytes⟩
  rw [getOrNew_of_lookup hlookup]
  exact howner

theorem wp_creditOrPanic : Wp (creditOrPanic k owner amount) v fun _ v' => Totals g v' := by
  rw [QChain.wp_creditOrPanic]
  exact fun _ _ => h.insert_balance

theorem wp_debitExisting : Wp (debitExisting k amount) v fun _ v' => Totals g v' := by
  rw [QChain.wp_debitExisting]
  intro account hlookup balance _
  obtain rfl : v.getOrNew k systemProgramId = account := getOrNew_of_lookup hlookup
  exact h.insert_balance

theorem wp_writeGlobal : Wp (writeGlobal g') v fun _ v' => Totals g' v' := by
  rw [QChain.wp_writeGlobal]
  exact fun _ hbytes => h.insert_data hbytes

theorem wp_writePosition {pos : StakePositionV7} (hk : k ≠ stakingGlobalId) :
    Wp (writePosition k pos) v fun _ v' => Totals g v' ∧ storedPosition v' k = some pos := by
  rw [QChain.wp_writePosition]
  intro bytes hbytes
  refine ⟨h.insert_of_ne (Ne.symm hk), ?_⟩
  rw [storedPosition_insert, if_pos rfl]
  exact fromSlice_eq_some_iff.2 hbytes

end Totals

/-! ### Staking instructions -/

namespace StakingV7Program

variable {g : GlobalStakingState} {w : Accounts} {ix : Instruction} {payer staker k : Pubkey}
  {pos : StakePositionV7} {amount : U64}

/-- What a staking instruction leaves of the totals: the price of deposits stays. -/
def Repriced (g : GlobalStakingState) (w : Accounts) : Prop :=
  ∃ g', Totals g' w ∧ SamePrice g g'

theorem samePrice_unstakeValue : SamePrice g (unstakeValue g pos amount).1 := by
  by_cases h : 0 < (amount : ℕ) - earningTaken g pos amount ∧ 0 < (pos.pendingAmount : ℕ)
  · rw [unstakeValue_of_cancels h]
    exact ⟨rfl, rfl, rfl⟩
  · rw [unstakeValue_of_not_cancels h]
    exact ⟨rfl, rfl, rfl⟩

theorem wp_deposit_totals (h : Totals g w) (hk : k ≠ stakingGlobalId) :
    Wp (deposit staker k g pos amount) w fun _ w' => Repriced g w' ∧
      storedPosition w' k = some (addPendingDeposit pos g amount).1 := by
  refine h.wp_debitExisting.bind fun _ w₁ h₁ => ?_
  refine h₁.wp_creditOrPanic.bind fun _ w₂ h₂ => ?_
  refine h₂.wp_writeGlobal.bind fun _ w₃ h₃ => ?_
  refine (h₃.wp_writePosition hk).mono ?_
  rintro _ w₄ ⟨h₄, hposition⟩
  exact ⟨⟨_, h₄, rfl, rfl, rfl⟩, hposition⟩

variable (h : stakingGlobalId ∈ ix.accounts → Totals g w)

include h

/-- A deposit names the totals and leaves the price as it is; a new position has the shares the
price gives. -/
theorem stake_totals {increase : Bool} :
    Wp (stake ix payer amount increase) w fun _ w' => Repriced g w' ∧
      stakingGlobalId ∈ ix.accounts ∧
      (increase = false → ∃ k pos, ix.accounts[1]? = some k ∧ storedPosition w' k = some pos ∧
        pos.pendingShares = sharesForDeposit amount g.nextIndex) := by
  simp only [stake, wp_steps, wp_readGlobal, wp_readPosition, wp_ite]
  rintro staker _ positionPk hposition _ hglobalPk _ _ rfl _ _ _ g' hg'
  have hglobal : stakingGlobalId ∈ ix.accounts := mem_of_getElem? hglobalPk
  have h := h hglobal
  obtain rfl := mem_unique h.storedGlobal_eq hg'
  constructor
  · intro hincrease
    simp only [increaseStake, checkFunds, wp_steps]
    intro pos hpos _ _ account _ _
    refine (wp_deposit_totals h (h.ne_of_storedPosition hpos)).mono ?_
    rintro _ w' ⟨hrepriced, _⟩
    exact ⟨hrepriced, hglobal, fun hopen => absurd hincrease (Bool.eq_false_iff.1 hopen)⟩
  · intro _
    simp only [openStake, checkFunds, wp_steps]
    intro _ _ hfree _ account _ _
    have hne : positionPk ≠ stakingGlobalId := by
      rintro rfl
      exact hfree (by decide)
    refine (wp_deposit_totals h hne).mono ?_
    rintro _ w' ⟨hrepriced, hstored⟩
    refine ⟨hrepriced, hglobal, fun _ => ⟨positionPk, _, hposition, hstored, ?_⟩⟩
    -- the shares of an empty position are those of the deposit
    have hlt := (sharesForDeposit amount g.nextIndex).toNat_lt
    show (Word.clamp ((0 : U128) + sharesForDeposit amount g.nextIndex : ℕ) : U128) = _
    rw [← Word.toNat_inj, Word.toNat_clamp_of_lt]
    · exact Nat.zero_add _
    · rw [show ((0 : U128) : ℕ) = 0 from rfl, Nat.zero_add]
      exact hlt

theorem beginUnstake_totals : Wp (beginUnstake ix payer amount) w fun _ w' =>
      Repriced g w' ∧ stakingGlobalId ∈ ix.accounts := by
  simp only [beginUnstake, wp_steps, wp_readGlobal, wp_readPosition, wp_balanceOrZero]
  rintro _ _ positionPk _ _ hglobalPk _ _ _ _ ⟨rfl, _, _⟩ g' hg' pos hpos _ _ _ _ _
  have hglobal : stakingGlobalId ∈ ix.accounts := mem_of_getElem? hglobalPk
  have h := h hglobal
  obtain rfl := mem_unique h.storedGlobal_eq hg'
  refine h.wp_debitExisting.mono fun _ w₁ h₁ => ?_
  refine h₁.wp_creditOrPanic.mono fun _ w₂ h₂ => ?_
  refine h₂.wp_writeGlobal.mono fun _ w₃ h₃ => ?_
  refine (h₃.wp_writePosition (h.ne_of_storedPosition hpos)).mono ?_
  rintro _ w₄ ⟨h₄, _⟩
  exact ⟨⟨_, h₄, samePrice_unstakeValue⟩, hglobal⟩

theorem withdrawUnbonded_totals : Wp (withdrawUnbonded ix payer) w fun _ w' =>
      Repriced g w' ∧ stakingGlobalId ∈ ix.accounts := by
  simp only [withdrawUnbonded, wp_steps, wp_readGlobal, wp_readPosition, wp_balanceOrZero]
  rintro _ _ positionPk _ _ _ _ hglobalPk _ rfl g' hg' pos hpos _ _ _ _
  have hglobal : stakingGlobalId ∈ ix.accounts := mem_of_getElem? hglobalPk
  have h := h hglobal
  refine h.wp_debitExisting.mono fun _ w₁ h₁ => ?_
  refine h₁.wp_creditOrPanic.mono fun _ w₂ h₂ => ?_
  refine (h₂.wp_writePosition (h.ne_of_storedPosition hpos)).mono ?_
  rintro _ w₃ ⟨h₃, _⟩
  exact ⟨⟨_, h₃, rfl, rfl, rfl⟩, hglobal⟩

/-- A staking instruction names the totals and leaves the price of deposits as it is; what `Stake`
opens has the shares the price gives. -/
theorem process_totals :
    Wp (process ix payer) w fun _ w' => Repriced g w' ∧ stakingGlobalId ∈ ix.accounts ∧
      ∀ amount, StakingV7Instruction.decode.all ix.data = some (.stake amount) →
        ∃ k pos, ix.accounts[1]? = some k ∧ storedPosition w' k = some pos ∧
          pos.pendingShares = sharesForDeposit amount g.nextIndex := by
  simp only [process, wp_rules]
  intro instr hinstr
  cases instr with
  | stake amount =>
    refine (stake_totals h).mono ?_
    rintro _ w' ⟨hrepriced, hglobal, hopened⟩
    refine ⟨hrepriced, hglobal, fun amount' hamount' => ?_⟩
    cases mem_unique hinstr hamount'
    exact hopened rfl
  | increaseStake amount =>
    refine (stake_totals h).mono ?_
    rintro _ w' ⟨hrepriced, hglobal, _⟩
    refine ⟨hrepriced, hglobal, fun amount' hamount' => ?_⟩
    cases mem_unique hinstr hamount'
  | beginUnstake amount =>
    refine (beginUnstake_totals h).mono ?_
    rintro _ w' ⟨hrepriced, hglobal⟩
    refine ⟨hrepriced, hglobal, fun amount' hamount' => ?_⟩
    cases mem_unique hinstr hamount'
  | withdrawUnbonded =>
    refine (withdrawUnbonded_totals h).mono ?_
    rintro _ w' ⟨hrepriced, hglobal⟩
    refine ⟨hrepriced, hglobal, fun amount' hamount' => ?_⟩
    cases mem_unique hinstr hamount'

end StakingV7Program

/-! ### All other steps -/

section

variable [Crypto] {cfg : LedgerConfig} {g : GlobalStakingState} {v v' store : Accounts}

omit [Crypto] in
/-- The data of the totals are no record of a program. -/
theorem Totals.unclaimed (h : Totals g v) : Unclaimed v stakingGlobalId := by
  obtain ⟨account, hlookup, howner, _⟩ := id h
  have hlength := Totals.length_data hlookup h
  have hne : stakingProgramId ≠ governanceProgramId := by decide +kernel
  refine ⟨fun hfresh => ?_, h.storedPosition_eq_none, ?_, ?_⟩
  · obtain ⟨_, hempty, _⟩ := hfresh
    rw [getOrNew_of_lookup hlookup] at hempty
    rw [hempty] at hlength
    cases hlength
  · rw [storedStake, hlookup, bind_some]
    exact readOrLegacy_eq_none (by omega)
  · rw [storedProposal, hlookup]
    simp [howner, hne]

omit [Crypto] in
theorem globalId_notMem_keys {program : NativeProgram} (h : program ≠ .stakingV7) :
    stakingGlobalId ∉ program.keys := by
  cases program with
  | stakingV7 => exact absurd rfl h
  | _ => decide +kernel

/-- Executions of other programs, contracts among them, leave the totals as they are. -/
theorem Runs.totals {e : Execution} (h : Runs cfg e) (hv7 : cfg.economicsV7 = true)
    (hcovers : Covers e.before store (e.payer :: e.ix.accounts))
    (hpayer : stakingGlobalId ≠ e.payer) (hunderived : Underived stakingGlobalId)
    (hother : e.ix.programId ≠ stakingProgramId) (htotals : Totals g (e.before ∪ store)) :
    Totals g (e.after ∪ store) := by
  refine htotals.of_received (h.received hcovers hpayer hunderived ?_ htotals.unclaimed ?_)
  · intro program hprogram
    apply globalId_notMem_keys
    rintro rfl
    simp only [nativeProgram] at hprogram
    split_ifs at hprogram <;> cases hprogram
  · intro _ account hlookup
    obtain ⟨account', hlookup', howner, _⟩ := htotals
    obtain rfl := mem_unique hlookup hlookup'
    rw [howner]
    exact Ne.symm hother

omit [Crypto] in
theorem Totals.of_sweep {dust : U64} (h : Totals g v) (hsweep : ∀ k, Swept dust v v' k) :
    Totals g v' := by
  obtain ⟨account, hlookup, howner, hdata⟩ := h
  exact ⟨account, (hsweep stakingGlobalId).lookup_eq hlookup howner, howner, hdata⟩

end

/-! ### The close of quantos -/

section

variable {cfg : LedgerConfig} {g g' g₀ : GlobalStakingState} {v C S : Accounts} {hardCap : Bool}
  {emission : U64}

/-- The quanto after `g₀` has closed with the index that deposits in `g₀` were priced at. -/
def Matured (g₀ g : GlobalStakingState) : Prop :=
  g₀.currentQuanto < g.currentQuanto ∧ g₀.nextIndex ≤ g.index

theorem Totals.of_union (h : Totals g (C ∪ S)) (hglobal : stakingGlobalId ∈ C) : Totals g C := by
  unfold Totals at h
  rw [lookup_union_of_covers (.inl hglobal)] at h
  exact h

theorem Totals.union (h : Totals g C) : Totals g (C ∪ S) := by
  obtain ⟨account, hlookup, htotals⟩ := h
  refine ⟨account, ?_, htotals⟩
  rw [lookup_union_eq, hlookup, some_or]

theorem Totals.wp_payEmission (h : Totals g C) :
    Wp (payEmission hardCap emission) C fun _ C' => Totals g C' := by
  simp only [payEmission, wp_ite, wp_rules, Exec.wp_put]
  refine ⟨fun _ => ⟨fun _ _ _ => ?_, fun _ => h.wp_creditOrPanic⟩, fun _ => h⟩
  exact h.insert_balance.wp_creditOrPanic

/-- The close of a quanto writes the totals the growth of the index gives. -/
theorem Totals.wp_settleQuantoEx (h : Totals g C) :
    Wp (settleQuantoEx g.currentQuanto hardCap) C fun _ C' =>
      Totals (g.closed (g.growth hardCap (emissionBudget C)).1) C' := by
  rw [QChain.wp_settleQuantoEx h.storedGlobal_eq]
  exact h.wp_payEmission.mono fun _ _ h' => h'.wp_writeGlobal

/-- The close moves on to the next quanto, and the index does not fall. -/
theorem matured_closed {index : U128} {target : U64} (hdue : g.currentQuanto < target)
    (hindex : g₀.nextIndex ≤ index) (hquanto : g₀.currentQuanto ≤ g.currentQuanto) :
    Matured g₀ (g.closed index) := by
  refine ⟨?_, hindex⟩
  have hlt := target.toNat_lt
  rw [Word.lt_iff] at hdue ⊢
  rw [Word.le_iff] at hquanto
  show (g₀.currentQuanto : ℕ) < (Word.clamp (g.currentQuanto + 1) : U64)
  rw [Word.toNat_clamp_of_lt (by omega)]
  omega

/-- A larger budget pays as well. -/
theorem GlobalStakingState.Backed.mono {budget budget' : U64} (h : g.Backed hardCap budget)
    (hle : hardCap = true → (budget : ℕ) ≤ budget') : g.Backed hardCap budget' :=
  fun hcap => (h hcap).imp_right fun hpaid => hpaid.trans (hle hcap)

theorem toNat_emissionBudget : (emissionBudget v : ℕ) = v.balanceOf emissionReserveId := by
  cases h : v.lookup emissionReserveId with
  | none =>
    rw [emissionBudget, h, balanceOf_of_lookup_none h]
    rfl
  | some account =>
    rw [emissionBudget, h, balanceOf_of_lookup h]
    rfl

/-- Where the first quanto that is due can pay for its growth, the close leads to its expected
index or beyond. -/
theorem Ledger.closeDueQuantos_totals {l : Ledger} {round : U64} (h : Totals g₀ l.store)
    (hbacked : g₀.currentQuanto < (Word.ofNat (round / cfg.roundsPerQuanto) : U64) →
      g₀.Backed cfg.hardCapSupply (emissionBudget l.store)) :
    Wp (closeDueQuantos cfg round) l fun _ l' => ∃ g, Totals g l'.store ∧
      (g = g₀ ∨ Matured g₀ g) := by
  have hglobal : ∀ {C}, Copied cfg l.store C → stakingGlobalId ∈ C := by
    intro C hC
    obtain ⟨account, hlookup, _⟩ := h
    exact hC.mem _ (mem_cons_self ..) (Finmap.mem_iff.2 ⟨account, hlookup⟩)
  -- as long as no quanto has closed, the emission reserve still has all it had
  have hclose : Wp (closeDueQuantos cfg round) l fun _ l' => ∃ g, Totals g l'.store ∧
      (g = g₀ ∧ l.store.balanceOf emissionReserveId ≤ l'.store.balanceOf emissionReserveId ∨
        Matured g₀ g) := by
    refine closeDueQuantos_induction (P := fun v => ∃ g, Totals g v ∧
      (g = g₀ ∧ l.store.balanceOf emissionReserveId ≤ v.balanceOf emissionReserveId ∨
        Matured g₀ g)) ?_ ?_ ⟨g₀, h, .inl ⟨rfl, le_rfl⟩⟩
    · rintro C S g hC _ hg hdue ⟨g', htotals, hreached⟩
      have hC' := htotals.of_union (hglobal hC)
      obtain rfl := mem_unique hg hC'.storedGlobal_eq
      refine hC'.wp_settleQuantoEx.mono fun _ C' hclosed => ⟨_, hclosed.union, .inr ?_⟩
      rcases hreached with ⟨rfl, hbudget⟩ | ⟨hquanto, hindex⟩
      · have hpaid : g.Backed cfg.hardCapSupply (emissionBudget C) := by
          refine (hbacked hdue).mono fun hcap => ?_
          rw [toNat_emissionBudget, toNat_emissionBudget]
          by_cases hmem : emissionReserveId ∈ C
          · rw [balanceOf_congr (lookup_union_of_covers (.inl hmem))] at hbudget
            exact hbudget
          · have hnone : emissionReserveId ∉ l.store := by
              intro hstore
              refine hmem (hC.mem _ ?_ hstore)
              simp [quantoAccounts, hcap]
            rw [balanceOf_of_lookup_none (lookup_eq_none.2 hnone)]
            exact Nat.zero_le _
        rw [GlobalStakingState.growth_of_backed hpaid]
        exact matured_closed hdue le_rfl le_rfl
      · exact matured_closed hdue (hindex.trans GlobalStakingState.index_le_growth) hquanto.le
    · rintro C S S' _ ⟨g, htotals, hreached⟩ ⟨paidIn, takenOut, _, hupkeeps⟩
      refine hupkeeps.invariant (I := fun v => ∃ g, Totals g v ∧ (g = g₀ ∧
        l.store.balanceOf emissionReserveId ≤ v.balanceOf emissionReserveId ∨ Matured g₀ g)) ?_
        ⟨g, htotals, hreached⟩
      rintro v k account _ _ ⟨g, htotals, hreached⟩ hwrite
      refine ⟨g, htotals.of_received (hwrite.received (by decide)), ?_⟩
      refine hreached.imp_left fun ⟨hsame, hbudget⟩ => ⟨hsame, hbudget.trans ?_⟩
      exact (hwrite.received (by decide)).balanceOf_le
  refine hclose.mono ?_
  rintro _ l' ⟨g, htotals, hreached⟩
  exact ⟨g, htotals, hreached.imp_left And.left⟩

end

/-! ### Runs -/

/-- The quanto that is due before a transaction can pay for the growth of the index. -/
def GrowthBacked (cfg : LedgerConfig) (c : Chain) : ChainEvent → Prop
  | .transaction _ _ round => ∀ g ∈ storedGlobal c.ledger.store,
      g.currentQuanto < (Word.ofNat (round / cfg.roundsPerQuanto) : U64) →
        g.Backed cfg.hardCapSupply (emissionBudget c.ledger.store)
  | .participation .. => True

instance (cfg : LedgerConfig) (c : Chain) : DecidablePred (GrowthBacked cfg c)
  | .transaction .. => inferInstanceAs (Decidable (∀ g ∈ _, _ → _))
  | .participation .. => isTrue trivial

/-- The quanto of `g₀` is still open, at the same price of deposits, or has closed with the index
they were priced at. -/
def Reached (g₀ g : GlobalStakingState) : Prop :=
  g.currentQuanto = g₀.currentQuanto ∧ g.nextIndex = g₀.nextIndex ∨ Matured g₀ g

section

variable {g g' g₀ : GlobalStakingState}

theorem SamePrice.nextIndex (h : SamePrice g g') : g'.nextIndex = g.nextIndex := by
  rw [GlobalStakingState.nextIndex, GlobalStakingState.nextIndex, h.index, h.rate]

theorem Reached.of_samePrice (h : Reached g₀ g) (hsame : SamePrice g g') : Reached g₀ g' := by
  unfold Reached Matured at h ⊢
  rw [hsame.quanto, hsame.index, hsame.nextIndex]
  exact h

theorem Reached.matured (h : Reached g₀ g) (hmatured : Matured g g') : Matured g₀ g' := by
  rcases h with ⟨hquanto, hnext⟩ | ⟨hquanto, hindex⟩
  · unfold Matured at hmatured ⊢
    rw [← hquanto, ← hnext]
    exact hmatured
  · have hgrowth : g.index ≤ g.nextIndex := le_advanceStakingIndex
    exact ⟨hquanto.trans hmatured.1, (hindex.trans hgrowth).trans hmatured.2⟩

/-- A staking instruction was executed when the totals were `g₀`. A deposit got the shares the
price then gave. -/
def PricedAt (e : Execution) (g₀ : GlobalStakingState) : Prop :=
  storedGlobal e.before = some g₀ ∧ 0 < (g₀.nextIndex : ℕ) ∧
    ∀ amount, StakingV7Instruction.decode.all e.ix.data = some (.stake amount) →
      ∃ k pos, e.ix.accounts[1]? = some k ∧ storedPosition e.after k = some pos ∧
        pos.pendingShares = sharesForDeposit amount g₀.nextIndex

/-- The totals, and what they were when the staking instructions of the past were executed. -/
def PricesKept (log : List Execution) (v : Accounts) : Prop :=
  ∃ g, Totals g v ∧ 0 < (g.index : ℕ) ∧
    ∀ e ∈ log, e.ix.programId = stakingProgramId → ∃ g₀, PricedAt e g₀ ∧ Reached g₀ g

namespace PricesKept

variable {log : List Execution} {v v' : Accounts}

theorem congr (h : PricesKept log v) (htotals : ∀ g, Totals g v → Totals g v') :
    PricesKept log v' := by
  obtain ⟨g, hg, hprices⟩ := h
  exact ⟨g, htotals g hg, hprices⟩

theorem closed [Crypto] {cfg : LedgerConfig} {c : Chain} {tx : Transaction} {collector : Pubkey}
    {round : U64} (h : PricesKept c.log c.ledger.store)
    (hbacked : GrowthBacked cfg c (.transaction tx collector round)) :
    PricesKept c.log (Ledger.closed cfg tx round c.ledger) := by
  obtain ⟨g, htotals, hindex, hprices⟩ := h
  obtain ⟨g', htotals', hclosed⟩ : ∃ g', Totals g' (Ledger.closed cfg tx round c.ledger) ∧
      (g' = g ∨ Matured g g') := by
    refine Ledger.closed_of (P := fun v => ∃ g', Totals g' v ∧ (g' = g ∨ Matured g g'))
      ⟨g, htotals, .inl rfl⟩ (Ledger.closeDueQuantos_totals htotals fun hdue => ?_)
    exact hbacked g htotals.storedGlobal_eq hdue
  rcases hclosed with rfl | hmatured
  · exact ⟨g', htotals', hindex, hprices⟩
  · refine ⟨g', htotals', ?_, fun e he hstaking => ?_⟩
    · have hgrowth : g.index ≤ g.nextIndex := le_advanceStakingIndex
      exact lt_of_lt_of_le hindex (hgrowth.trans hmatured.2)
    · obtain ⟨g₀, hpriced, hreached⟩ := hprices e he hstaking
      exact ⟨g₀, hpriced, .inr (hreached.matured hmatured)⟩

end PricesKept

/-- A staking instruction is executed at the present price. -/
theorem Runs.prices [Crypto] {cfg : LedgerConfig} {e : Execution} {store : Accounts}
    {log : List Execution} (h : Runs cfg e) (hv7 : cfg.economicsV7 = true)
    (hcovers : Covers e.before store (e.payer :: e.ix.accounts))
    (hstaking : e.ix.programId = stakingProgramId) (hkept : PricesKept log (e.before ∪ store)) :
    PricesKept (log ++ [e]) (e.after ∪ store) := by
  obtain ⟨g, htotals, hindex, hprices⟩ := hkept
  have hnative : nativeProgram cfg.economicsV7 e.ix.programId = some .stakingV7 := by
    rw [hstaking, hv7]
    decide
  cases h with
  | contract hnone =>
    rw [hnative] at hnone
    cases hnone
  | native hprogram hrun =>
    obtain rfl := mem_unique hnative hprogram
    have hbefore : stakingGlobalId ∈ e.ix.accounts → Totals g e.before := by
      intro hnamed
      unfold Totals at htotals ⊢
      rw [lookup_union_of_covers (hcovers _ (mem_cons_of_mem _ hnamed))] at htotals
      exact htotals
    obtain ⟨⟨g', htotals', hsame⟩, hnamed, hopened⟩ :=
      StakingV7Program.process_totals hbefore _ _ hrun
    refine ⟨g', htotals'.union, by rw [hsame.index]; exact hindex, fun e' he' hstaking' => ?_⟩
    rcases mem_append.1 he' with hold | hnew
    · obtain ⟨g₀, hpriced, hreached⟩ := hprices e' hold hstaking'
      exact ⟨g₀, hpriced, hreached.of_samePrice hsame⟩
    · rw [List.mem_singleton.1 hnew]
      have hgrowth : g.index ≤ g.nextIndex := le_advanceStakingIndex
      exact ⟨g, ⟨(hbefore hnamed).storedGlobal_eq, lt_of_lt_of_le hindex hgrowth, hopened⟩,
        .inl ⟨hsame.quanto, hsame.nextIndex⟩⟩

end

namespace Chain

variable [Crypto] {cfg : LedgerConfig}

/-- The steps of a transaction keep the prices. -/
theorem keeps_prices {tx : Transaction} {collector : Pubkey} {round dust : U64}
    {ok : Execution → Prop} (hsha : ∀ bytes, ¬IsProtocolId (Crypto.sha3 bytes))
    (hv7 : cfg.economicsV7 = true) (hverify : tx.verifySignature = true) :
    Keeps cfg tx.message.payer collector round dust ok PricesKept := by
  have hprotocol : IsProtocolId stakingGlobalId := isProtocolId_repeatedByte (by decide)
  have hpayer : stakingGlobalId ≠ tx.message.payer := by
    intro heq
    rw [payer_of_verifySignature hverify] at heq
    exact hsha _ (heq ▸ hprotocol)
  have hunderived : Underived stakingGlobalId := by
    apply Underived.of_forall_ne
    intro bytes heq
    exact hsha bytes (heq ▸ hprotocol)
  constructor
  · intro _ v k account _ _ hv hwrite
    exact hv.congr fun _ htotals =>
      htotals.of_received (hwrite.received hpayer (by decide))
  · intro log e store hv _ hcovers hpayer' _ hruns
    rw [← hpayer'] at hpayer
    by_cases hstaking : e.ix.programId = stakingProgramId
    · exact hruns.prices hv7 hcovers hstaking hv
    · obtain ⟨g, htotals, hindex, hprices⟩ := hv
      refine ⟨g, hruns.totals hv7 hcovers hpayer hunderived hstaking htotals, hindex, ?_⟩
      intro e' he' hstaking'
      rcases mem_append.1 he' with hold | hnew
      · exact hprices e' hold hstaking'
      · rw [List.mem_singleton.1 hnew] at hstaking'
        exact absurd hstaking' hstaking
  · intro _ v v' hv hsweep
    exact hv.congr fun _ htotals => htotals.of_sweep hsweep

end Chain

/-- The totals of genesis. -/
theorem NodeConfig.totals_seedGenesis [Crypto] [GenesisFormat] {config : NodeConfig}
    {accounts : Accounts} (h : config.seedGenesis = some accounts)
    (hv7 : config.economicsV7 = true) :
    Totals (.genesisWithRate config.quantoRateFpOr) accounts := by
  obtain ⟨global, hbytes, hglobal, _⟩ := lookup_seedGenesis_books h hv7
  exact ⟨_, hglobal, rfl, fromSlice_eq_some_iff.2 hbytes⟩

namespace Chain

variable [Crypto] [WasmEngine] {cfg : LedgerConfig}

/-- A deposit keeps its principal: in every run of a v7 network whose quantos can pay for the
growth of the index, the shares of every deposit are worth what was paid for them, up to the value
of one share, once the quanto in which it was made has closed. -/
theorem principal_kept [GenesisFormat] (hsha : ∀ bytes, ¬IsProtocolId (Crypto.sha3 bytes))
    {config : NodeConfig} {accounts : Accounts} (hseed : config.seedGenesis = some accounts)
    (hcfg : config.ledgerConfig = some cfg) (hv7 : config.economicsV7 = true)
    {events : List ChainEvent}
    (hrun : Run.Meets (step cfg) (GrowthBacked cfg) (ofAccounts accounts) events)
    {e : Execution} (he : e ∈ (run cfg (ofAccounts accounts) events).log)
    (hstaking : e.ix.programId = stakingProgramId) {amount : U64}
    (hstake : StakingV7Instruction.decode.all e.ix.data = some (.stake amount)) :
    ∃ k pos g₀ g, e.ix.accounts[1]? = some k ∧ storedPosition e.after k = some pos ∧
      storedGlobal e.before = some g₀ ∧
      storedGlobal (run cfg (ofAccounts accounts) events).ledger.store = some g ∧
      (g₀.currentQuanto < g.currentQuanto →
        (amount * indexScale : ℕ) ≤ (pos.pendingShares + 1) * g.index) := by
  obtain ⟨admin, _, hsettings⟩ := bind_eq_some_iff.1 hcfg
  have hv7' : cfg.economicsV7 = true := by rw [← Option.some.inj hsettings, hv7]
  have hgenesis : PricesKept (ofAccounts accounts).log (ofAccounts accounts).ledger.store := by
    have hindex : 0 < (initialStakingIndex : ℕ) := by decide
    refine ⟨_, NodeConfig.totals_seedGenesis hseed hv7, hindex, fun e he => ?_⟩
    cases he
  obtain ⟨g, htotals, _, hprices⟩ := invariant (I := PricesKept) hsha
    (fun c tx collector round hbacked h => h.closed hbacked)
    (fun c tx collector round hverify _ => keeps_prices hsha hv7' hverify) hrun hgenesis
  obtain ⟨g₀, ⟨hbefore, hpos, hopened⟩, hreached⟩ := hprices e he hstaking
  obtain ⟨k, pos, hk, hposition, hshares⟩ := hopened amount hstake
  refine ⟨k, pos, g₀, g, hk, hposition, hbefore, htotals.storedGlobal_eq, fun hclosed => ?_⟩
  rcases hreached with ⟨hopen, _⟩ | ⟨_, hindex⟩
  · rw [hopen] at hclosed
    exact absurd hclosed (lt_irrefl _)
  · rw [hshares]
    calc (amount * indexScale : ℕ)
      _ ≤ (sharesForDeposit amount g₀.nextIndex + 1) * g₀.nextIndex :=
        (lt_sharesForDeposit_succ_mul hpos).le
      _ ≤ (sharesForDeposit amount g₀.nextIndex + 1) * g.index := Nat.mul_le_mul_left _ hindex

end Chain

/-! ### A poor emission reserve

A hard-capped network of one wallet whose index would grow by a ten-thousandth with every quanto of
ten rounds. The wallet stakes a hundred coins in the first quanto, and a million units in the
second, from another position. The first deposit earns from the second quanto on. An emission
reserve that has no more than the fees paid so far does not pay for what it earns: the quanto closes
with an index far below the one that the second deposit was priced at. -/

section PoorReserve

/-- The address of the second position. -/
def laterPosition : Pubkey := capCrypto.sha3 []

/-- The wallet stakes an amount from the second position. -/
def laterInstruction (amount : ℕ) : Instruction :=
  ⟨stakingProgramId, [stakeWallet, laterPosition, stakingGlobalId, stakingReserveId],
    0 :: toLeBytes 8 amount⟩

/-- The two deposits, and the close of the second quanto. -/
def depositEvents : List ChainEvent :=
  [stakeEvent 0 0 [stakeInstruction 100000000000], stakeEvent 1 10 [laterInstruction 1000000],
    stakeEvent 2 20 []]

/-- The network after the close. -/
def reserveChain (reserve : U64) : Chain :=
  @Chain.run capCrypto WasmEngine.none reserveSettings (.ofAccounts (reserveAccounts reserve))
    depositEvents

/-- The second deposit loses more than the value of one share. -/
theorem Chain.principal_lost :
    (∀ bytes, ¬IsProtocolId (capCrypto.sha3 bytes)) ∧
      @NodeConfig.seedGenesis capFormat capCrypto (reserveConfig 0) = some (reserveAccounts 0) ∧
      (reserveConfig 0).ledgerConfig = some reserveSettings ∧
      (reserveConfig 0).economicsV7 = true ∧
      ∃ e ∈ (reserveChain 0).log, e.ix.programId = stakingProgramId ∧
        StakingV7Instruction.decode.all e.ix.data = some (.stake (Word.ofNat 1000000)) ∧
        ∃ k pos g₀ g, e.ix.accounts[1]? = some k ∧ storedPosition e.after k = some pos ∧
          storedGlobal e.before = some g₀ ∧
          storedGlobal (reserveChain 0).ledger.store = some g ∧
          g₀.currentQuanto < g.currentQuanto ∧
          ((pos.pendingShares + 1) * g.index : ℕ) < 1000000 * indexScale := by
  refine ⟨not_isProtocolId_ofHashes (by decide +kernel), by decide +kernel,
    by decide +kernel, rfl, ?_⟩
  simp only [exists_and_left]
  decide +kernel

/-- With a coin in the reserve the second deposit keeps its principal. -/
theorem Chain.principal_kept_reserve :
    Run.Meets (@Chain.step capCrypto WasmEngine.none reserveSettings)
        (GrowthBacked reserveSettings) (.ofAccounts (reserveAccounts 1)) depositEvents ∧
      ∃ e ∈ (reserveChain 1).log, e.ix = laterInstruction 1000000 ∧
        ∃ k pos g₀ g, e.ix.accounts[1]? = some k ∧ storedPosition e.after k = some pos ∧
          storedGlobal e.before = some g₀ ∧
          storedGlobal (reserveChain 1).ledger.store = some g ∧
          (g₀.currentQuanto < g.currentQuanto →
            (1000000 * indexScale : ℕ) ≤ (pos.pendingShares + 1) * g.index) := by
  have hrun : Run.Meets (@Chain.step capCrypto WasmEngine.none reserveSettings)
      (GrowthBacked reserveSettings) (.ofAccounts (reserveAccounts 1)) depositEvents := by
    decide +kernel
  have hdeposit : ∃ e ∈ (reserveChain 1).log, e.ix = laterInstruction 1000000 := by
    decide +kernel
  obtain ⟨e, he, hix⟩ := hdeposit
  refine ⟨hrun, e, he, hix, ?_⟩
  unfold reserveChain at he ⊢
  have hstake : StakingV7Instruction.decode.all e.ix.data =
      some (.stake (Word.ofNat 1000000)) := by
    rw [hix]
    decide +kernel
  have hstaking : e.ix.programId = stakingProgramId := by rw [hix, laterInstruction]
  have hamount : ((Word.ofNat 1000000 : U64) : ℕ) = 1000000 := by decide +kernel
  obtain ⟨k, pos, g₀, g, hk, hpos, hg₀, hg, hkept⟩ :=
    @Chain.principal_kept capCrypto WasmEngine.none reserveSettings capFormat
      (not_isProtocolId_ofHashes (by decide +kernel)) (reserveConfig 1)
      (reserveAccounts 1) (by decide +kernel)
      (by decide +kernel) rfl _ hrun e he hstaking _ hstake
  rw [hamount] at hkept
  exact ⟨k, pos, g₀, g, hk, hpos, hg₀, hg, hkept⟩

end PoorReserve

end QChain
