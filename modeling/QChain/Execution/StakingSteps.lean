import QChain.Execution.Received
import QChain.Execution.Unstaking

/-!
# Staking instructions and the books

The instructions of the v7 staking program on working copies over a store. Two cases are excluded:
an unstake that takes a part of a deposit that is still joining and cannot divide its shares
exactly, and a deposit in the last quanto the counter can count, which would join without a close.
-/

namespace QChain

open Accounts Borsh Exec Finmap List StakePositionV7 Transact

/-! ### Positions under writes -/

section

variable {v v' : Accounts} {k k' owner : Pubkey} {account : Account} {g : GlobalStakingState}

theorem storedPosition_insert :
    storedPosition (v.insert k account) k' =
      if k' = k then fromSlice account.data else storedPosition v k' := by
  rw [storedPosition, Finmap.lookup_insert_eq]
  split_ifs <;> rfl

/-- A new account holds no position. -/
theorem fromSlice_data_getOrNew :
    (fromSlice (v.getOrNew k owner).data : Option StakePositionV7) = storedPosition v k := by
  rw [Accounts.getOrNew, storedPosition]
  cases v.lookup k with
  | none =>
    show fromSlice ([] : List UInt8) = none
    exact fromSlice_position_eq_none (by decide)
  | some account => rfl

/-- A write to an account that holds the same position afterwards, or none as before. -/
theorem storedPosition_insert_of_eq (h : fromSlice account.data = storedPosition v k) :
    storedPosition (v.insert k account) k' = storedPosition v k' := by
  rw [storedPosition_insert]
  split_ifs with hk
  · rw [hk, h]
  · rfl

/-- The accounts of the books themselves. -/
def stakingBooks : List Pubkey := [stakingGlobalId, stakingReserveId, stakingUnbondingPoolId]

theorem IsPool.of_received (h : IsPool v k) (hreceived : Received k v v') :
    IsPool v' k ∧ v.balanceOf k ≤ v'.balanceOf k := by
  obtain ⟨account, hlookup, howner, hdata⟩ := h
  obtain ⟨balance, _, hlookup'⟩ := hreceived account hlookup
  exact ⟨⟨_, hlookup', howner, hdata⟩, hreceived.balanceOf_le⟩

/-- The books do not change where no position is written and their accounts only receive. -/
theorem Solvent.of_received (h : Solvent g v)
    (hposition : ∀ k, storedPosition v' k = storedPosition v k)
    (hreceived : ∀ k ∈ stakingBooks, Received k v v') : Solvent g v' := by
  have hreserve := h.reserve.of_received (hreceived stakingReserveId (by simp [stakingBooks]))
  have hpool := h.pool.of_received (hreceived stakingUnbondingPoolId (by simp [stakingBooks]))
  obtain ⟨account, hlookup, hdata⟩ := h.global
  obtain ⟨balance, _, hlookup'⟩ :=
    hreceived stakingGlobalId (by simp [stakingBooks]) account hlookup
  exact h.of_frame hposition ⟨_, hlookup', hdata⟩ hreserve.1 hreserve.2 hpool.1 hpool.2

end

/-! ### Working copies over a store -/

/-- Working copies over a store show the accounts `v`, and cover the given addresses. -/
structure Shows (names : List Pubkey) (store w v : Accounts) : Prop where
  view : w ∪ store = v
  covers : Covers w store names

namespace Shows

variable {names : List Pubkey} {store w v : Accounts} {k owner : Pubkey} {account : Account}
  {amount : U64}

variable (h : Shows names store w v)

include h

theorem insert : Shows names store (w.insert k account) (v.insert k account) where
  view := by rw [← insert_union, h.view]
  covers := h.covers.mono fun _ hk => mem_insert.2 (.inr hk)

theorem lookup (hk : k ∈ names) : w.lookup k = v.lookup k := by
  rw [← h.view]
  exact (lookup_union_of_covers (h.covers k hk)).symm

theorem getOrNew (hk : k ∈ names) :
    w.getOrNew k owner = v.getOrNew k owner := getOrNew_congr (h.lookup hk)

theorem storedPosition (hk : k ∈ names) : storedPosition w k = QChain.storedPosition v k := by
  rw [QChain.storedPosition, QChain.storedPosition, h.lookup hk]

theorem storedGlobal (hk : stakingGlobalId ∈ names) : storedGlobal w = QChain.storedGlobal v := by
  rw [QChain.storedGlobal, QChain.storedGlobal, h.lookup hk]

theorem wp_writePosition {pos : StakePositionV7} :
    Wp (writePosition k pos) w fun _ w' => ∃ account : Account,
      fromSlice account.data = some pos ∧ Shows names store w' (v.insert k account) := by
  rw [QChain.wp_writePosition]
  exact fun bytes hbytes => ⟨_, fromSlice_eq_some_iff.2 hbytes, h.insert⟩

end Shows

/-! ### Entries in the books -/

/-- What an instruction does before it writes a position: funds may have moved and the totals may
be new, but no position has changed. -/
structure Moved (v : Accounts) (g' : GlobalStakingState) (v' : Accounts) : Prop where
  position : ∀ k, storedPosition v' k = storedPosition v k
  global : ∃ account, v'.lookup stakingGlobalId = some account ∧ fromSlice account.data = some g'
  reserve : IsPool v' stakingReserveId
  pool : IsPool v' stakingUnbondingPoolId

theorem IsPool.insert_balance {v : Accounts} {k k' owner : Pubkey} {balance : U64}
    (h : IsPool v k) : IsPool (v.insert k' { v.getOrNew k' owner with balance := balance }) k := by
  obtain ⟨account, hlookup, howner, hdata⟩ := h
  by_cases hk : k = k'
  · subst hk
    refine ⟨_, lookup_insert _, ?_⟩
    rw [getOrNew_of_lookup hlookup]
    exact ⟨howner, hdata⟩
  · exact ⟨account, (lookup_insert_of_ne _ hk).trans hlookup, howner, hdata⟩

theorem IsPool.insert_of_ne {v : Accounts} {k k' : Pubkey} {account : Account}
    (h : IsPool v k) (hk : k ≠ k') : IsPool (v.insert k' account) k := by
  obtain ⟨account', hlookup, hpool⟩ := h
  exact ⟨account', (lookup_insert_of_ne _ hk).trans hlookup, hpool⟩

namespace Moved

variable {v v' : Accounts} {g g' g'' : GlobalStakingState} {k owner : Pubkey} {balance : U64}

theorem refl (h : Solvent g v) : Moved v g v := ⟨fun _ => rfl, h.global, h.reserve, h.pool⟩

/-- Funds are moved. -/
theorem insert (h : Moved v g' v') :
    Moved v g' (v'.insert k { v'.getOrNew k owner with balance := balance }) := by
  refine ⟨fun k' => ?_, ?_, h.reserve.insert_balance, h.pool.insert_balance⟩
  · rw [← h.position k']
    apply storedPosition_insert_of_eq
    exact fromSlice_data_getOrNew
  · obtain ⟨account, hlookup, hdata⟩ := h.global
    by_cases hk : stakingGlobalId = k
    · subst hk
      refine ⟨_, lookup_insert _, ?_⟩
      rw [getOrNew_of_lookup hlookup]
      exact hdata
    · exact ⟨account, (lookup_insert_of_ne _ hk).trans hlookup, hdata⟩

/-- New totals are written. -/
theorem writeGlobal {bytes : List UInt8} (h : Moved v g' v') (hbytes : toVec g'' = some bytes) :
    Moved v g'' (v'.insert stakingGlobalId
      { v'.getOrNew stakingGlobalId stakingProgramId with data := bytes }) where
  position k' := by
    refine (storedPosition_insert_of_eq ?_).trans (h.position k')
    obtain ⟨account, hlookup, hdata⟩ := h.global
    have hnone : storedPosition v' stakingGlobalId = none := by
      rw [storedPosition, hlookup]
      apply fromSlice_position_eq_none
      rw [length_toVec (fromSlice_eq_some_iff.1 hdata)]
      decide
    rw [hnone]
    apply fromSlice_position_eq_none
    rw [length_toVec hbytes]
    decide
  global := ⟨_, lookup_insert _, fromSlice_eq_some_iff.2 hbytes⟩
  reserve := h.reserve.insert_of_ne (by decide)
  pool := h.pool.insert_of_ne (by decide)

section

variable {names : List Pubkey} {store w : Accounts} {amount : U64}

theorem wp_creditOrPanic (h : Moved v g' v') (hshows : Shows names store w v') (hk : k ∈ names) :
    Wp (creditOrPanic k owner amount) w fun _ w' => ∃ v'', Shows names store w' v'' ∧
      Moved v g' v'' ∧ ∀ k', v''.balanceOf k' = v'.balanceOf k' +
        if k' = k then (amount : ℕ) else 0 := by
  rw [QChain.wp_creditOrPanic, hshows.getOrNew hk, balanceOf_congr (hshows.lookup hk)]
  refine fun balance hbalance => ⟨_, hshows.insert, h.insert, fun k' => ?_⟩
  rw [balanceOf_insert]
  split_ifs with heq
  · rw [heq]
    exact hbalance
  · rfl

theorem wp_debitExisting (h : Moved v g' v') (hshows : Shows names store w v') (hk : k ∈ names) :
    Wp (debitExisting k amount) w fun _ w' => ∃ v'', Shows names store w' v'' ∧
      Moved v g' v'' ∧ ∀ k', v''.balanceOf k' + (if k' = k then (amount : ℕ) else 0) =
        v'.balanceOf k' := by
  rw [QChain.wp_debitExisting, hshows.lookup hk]
  intro account hlookup balance hbalance
  obtain rfl : v'.getOrNew k systemProgramId = account := getOrNew_of_lookup hlookup
  refine ⟨_, hshows.insert, h.insert, fun k' => ?_⟩
  rw [balanceOf_insert]
  split_ifs with heq
  · rw [heq, balanceOf_of_lookup hlookup]
    exact hbalance
  · rfl

theorem wp_writeGlobal (h : Moved v g' v') (hshows : Shows names store w v')
    (hk : stakingGlobalId ∈ names) :
    Wp (QChain.writeGlobal g'') w fun _ w' => ∃ v'', Shows names store w' v'' ∧
      Moved v g'' v'' ∧ ∀ k', v''.balanceOf k' = v'.balanceOf k' := by
  rw [QChain.wp_writeGlobal, hshows.getOrNew hk]
  refine fun bytes hbytes => ⟨_, hshows.insert, h.writeGlobal hbytes, fun k' => ?_⟩
  rw [balanceOf_insert]
  split_ifs with heq
  · rw [heq]
    exact balance_getOrNew
  · rfl

end

end Moved

/-- A position as an instruction takes it up: settled, and with what is stored at its address, or
empty where nothing is. -/
structure Continues (g : GlobalStakingState) (v : Accounts) (k : Pubkey) (pos : StakePositionV7) :
    Prop where
  settled : pos.settle g = pos
  priced : Priced g pos
  active : (storedPosition v k).elim 0 (fun p => ((p.settle g).activeShares : ℕ)) =
    pos.activeShares
  shares : (storedPosition v k).elim 0 (fun p => ((p.settle g).pendingShares : ℕ)) =
    pos.pendingShares
  amount : (storedPosition v k).elim 0 (fun p => ((p.settle g).pendingAmount : ℕ)) =
    pos.pendingAmount
  unbonding : (storedPosition v k).elim 0 (fun p => (p.unbondingAmount : ℕ)) = pos.unbondingAmount

/-- Where nothing is stored, an instruction takes up an empty position. -/
theorem continues_of_none {g : GlobalStakingState} {v : Accounts} {k : Pubkey}
    {pos : StakePositionV7} (hnone : storedPosition v k = none) (hactive : pos.activeShares = 0)
    (hshares : pos.pendingShares = 0) (hamount : pos.pendingAmount = 0)
    (hunbonding : pos.unbondingAmount = 0) : Continues g v k pos := by
  have hzero : (pos.pendingShares : ℕ) = 0 := by rw [hshares]; rfl
  have hsettled : pos.settle g = pos := settle_of_eq_zero hzero
  refine ⟨hsettled, ⟨?_, fun hsome => ?_⟩, ?_, ?_, ?_, ?_⟩
  · rw [hsettled, hzero, Nat.zero_mul]
    exact Nat.zero_le _
  · omega
  · rw [hnone, hactive]
    rfl
  · rw [hnone, hshares]
    rfl
  · rw [hnone, hamount]
    rfl
  · rw [hnone, hunbonding]
    rfl

namespace Continues

variable {g : GlobalStakingState} {v : Accounts} {k : Pubkey} {pos : StakePositionV7}

variable (h : Continues g v k pos)

include h

/-- Whether a position is settled and priced does not depend on its other fields. -/
theorem settled_priced {q : StakePositionV7} (hshares : q.pendingShares = pos.pendingShares)
    (hamount : q.pendingAmount = pos.pendingAmount)
    (hactivation : q.pendingActivationQuanto = pos.pendingActivationQuanto) :
    q.settle g = q ∧ Priced g q := by
  have hsettled : q.settle g = q := by
    by_cases hsome : 0 < (pos.pendingShares : ℕ)
    · apply settle_of_lt
      rw [hactivation]
      exact lt_activation_of_settled h.settled hsome
    · apply settle_of_eq_zero
      rw [hshares]
      omega
  refine ⟨hsettled, ?_, ?_⟩
  · have hprice := h.priced.price
    rw [h.settled] at hprice
    rw [hsettled, hshares, hamount]
    exact hprice
  · rw [hshares, hactivation]
    exact h.priced.joins

theorem of_fields {q : StakePositionV7} (hactive : q.activeShares = pos.activeShares)
    (hshares : q.pendingShares = pos.pendingShares) (hamount : q.pendingAmount = pos.pendingAmount)
    (hactivation : q.pendingActivationQuanto = pos.pendingActivationQuanto)
    (hunbonding : q.unbondingAmount = pos.unbondingAmount) : Continues g v k q := by
  obtain ⟨hsettled, hpriced⟩ := h.settled_priced hshares hamount hactivation
  refine ⟨hsettled, hpriced, ?_, ?_, ?_, ?_⟩
  · rw [h.active, hactive]
  · rw [h.shares, hshares]
  · rw [h.amount, hamount]
  · rw [h.unbonding, hunbonding]

theorem active_le (hsolvent : Solvent g v) : (pos.activeShares : ℕ) ≤ g.totalShares := by
  rw [← h.active, hsolvent.earning]
  exact elim_le_positionTotal

theorem shares_le (hsolvent : Solvent g v) : (pos.pendingShares : ℕ) ≤ g.pendingShares := by
  rw [← h.shares, hsolvent.joining]
  exact elim_le_positionTotal

theorem shares_lt (hsolvent : Solvent g v) : (pos.pendingShares : ℕ) < 2 ^ 64 :=
  lt_of_le_of_lt (h.shares_le hsolvent) hsolvent.pendingShares_lt

theorem amount_le (hsolvent : Solvent g v) :
    (pos.pendingAmount : ℕ) ≤ v.balanceOf stakingReserveId := by
  have htotal : (pos.pendingAmount : ℕ) ≤
      positionTotal (fun p => (p.settle g).pendingAmount) v := by
    rw [← h.amount]
    exact elim_le_positionTotal
  exact htotal.trans ((Nat.le_add_left _ _).trans hsolvent.backed)

end Continues

namespace Solvent

variable {g g' : GlobalStakingState} {v v' : Accounts} {k : Pubkey} {pos pos' : StakePositionV7}

theorem continues_settle (h : Solvent g v) (hpos : storedPosition v k = some pos) :
    Continues g v k (pos.settle g) where
  settled := settle_settle
  priced := by
    refine ⟨?_, fun hsome => ?_⟩
    · rw [settle_settle]
      exact (h.priced k pos hpos).price
    · have hjoins := (h.priced k pos hpos).joins
      rw [StakePositionV7.settle] at hsome ⊢
      split_ifs at hsome ⊢
      · exact absurd hsome (lt_irrefl 0)
      · exact hjoins hsome
  active := by rw [hpos]; rfl
  shares := by rw [hpos]; rfl
  amount := by rw [hpos]; rfl
  unbonding := by
    rw [hpos, unbondingAmount_settle]
    rfl

/-- The position is written: the books are in order if the totals change as the position does and
the pools lose no more than the position. -/
theorem record {account : Account} (h : Solvent g v) (hmoved : Moved v g' v')
    (hcontinues : Continues g v k pos) (hk : k ∉ stakingBooks)
    (haccount : fromSlice account.data = some pos') (hindex : g'.index = g.index)
    (hrate : g'.rateFp = g.rateFp) (hquanto : g'.currentQuanto = g.currentQuanto)
    (hsettled : pos'.settle g = pos') (hpriced : Priced g pos')
    (hearning : (g'.totalShares + pos.activeShares : ℕ) = g.totalShares + pos'.activeShares)
    (hjoining : (g'.pendingShares + pos.pendingShares : ℕ) =
      g.pendingShares + pos'.pendingShares)
    (hbacked : (positionValue g'.totalShares g.index : ℕ) + pos'.pendingAmount +
        v.balanceOf stakingReserveId ≤ v'.balanceOf stakingReserveId +
      (positionValue g.totalShares g.index + pos.pendingAmount))
    (hunbonding : (pos'.unbondingAmount : ℕ) + v.balanceOf stakingUnbondingPoolId ≤
      v'.balanceOf stakingUnbondingPoolId + pos.unbondingAmount) :
    Solvent g' (v'.insert k account) := by
  simp only [stakingBooks, mem_cons, not_mem_nil, or_false, not_or] at hk
  obtain ⟨hglobal, hreserve, hpool⟩ := hk
  have hbalance : ∀ {k'}, k' ≠ k → balanceOf (v'.insert k account) k' =
      v'.balanceOf k' := fun hne => balanceOf_congr (lookup_insert_of_ne _ hne)
  refine h.update (k := k) (p := pos') ?_ ?_ ?_ (hmoved.reserve.insert_of_ne (Ne.symm hreserve))
    (hmoved.pool.insert_of_ne (Ne.symm hpool)) hindex hrate hquanto ?_ ?_ ?_ ?_ hpriced
  · intro k' hk'
    rw [storedPosition_insert, if_neg hk', hmoved.position k']
  · rw [storedPosition_insert, if_pos rfl, haccount]
  · obtain ⟨account', hlookup, hdata⟩ := hmoved.global
    exact ⟨account', (lookup_insert_of_ne _ (Ne.symm hglobal)).trans hlookup, hdata⟩
  · rw [hcontinues.active, hsettled]
    exact hearning
  · rw [hcontinues.shares, hsettled]
    exact hjoining
  · rw [hcontinues.amount, hsettled, hbalance (Ne.symm hreserve)]
    exact hbacked
  · rw [hcontinues.unbonding, hbalance (Ne.symm hpool)]
    exact hunbonding

end Solvent

/-! ### Instructions -/

/-- The books are in order, and the protocol's accounts hold no position. -/
structure InOrder (v : Accounts) : Prop where
  solvent : ∃ g, Solvent g v
  vacant : ∀ k ∈ StakingV7Program.reserved, storedPosition v k = none

theorem InOrder.solvent_of {v : Accounts} {g : GlobalStakingState} (h : InOrder v)
    (hg : storedGlobal v = some g) : Solvent g v := by
  obtain ⟨g', hsolvent⟩ := h.solvent
  obtain rfl := Option.mem_unique hsolvent.storedGlobal_eq hg
  exact hsolvent

namespace StakingV7Program

variable {names : List Pubkey} {store w v : Accounts} {g : GlobalStakingState}
  {pos : StakePositionV7} {k staker payer : Pubkey} {amount : U64} {ix : Instruction}

theorem stakingBooks_subset_reserved : stakingBooks ⊆ reserved := by decide

/-- A deposit into a position. -/
theorem wp_deposit (h : Solvent g v) (hshows : Shows names store w v)
    (hcontinues : Continues g v k pos) (hk : k ∉ stakingBooks)
    (hstaker : staker ≠ stakingReserveId ∧ staker ≠ stakingUnbondingPoolId)
    (hquanto : (g.currentQuanto : ℕ) + 1 < 2 ^ 64) (hstakerMem : staker ∈ names)
    (hglobalMem : stakingGlobalId ∈ names) (hreserveMem : stakingReserveId ∈ names) :
    Wp (deposit staker k g pos amount) w fun _ w' =>
      (∃ g', Solvent g' (w' ∪ store)) ∧
        ∀ k' ≠ k, storedPosition (w' ∪ store) k' = storedPosition v k' := by
  refine ((Moved.refl h).wp_debitExisting hshows hstakerMem).bind ?_
  rintro _ w₁ ⟨v₁, hshows₁, hmoved₁, hbalance₁⟩
  refine (hmoved₁.wp_creditOrPanic hshows₁ hreserveMem).bind ?_
  rintro _ w₂ ⟨v₂, hshows₂, hmoved₂, hbalance₂⟩
  refine (hmoved₂.wp_writeGlobal hshows₂ hglobalMem).bind ?_
  rintro _ w₃ ⟨v₃, hshows₃, hmoved₃, hbalance₃⟩
  refine hshows₃.wp_writePosition.mono ?_
  rintro _ w₄ ⟨account, haccount, hshows₄⟩
  rw [hshows₄.view]
  have hreserve : v₃.balanceOf stakingReserveId = v.balanceOf stakingReserveId + amount := by
    have hkept := hbalance₁ stakingReserveId
    rw [if_neg (Ne.symm hstaker.1)] at hkept
    rw [hbalance₃, hbalance₂, if_pos rfl]
    omega
  have hpool : v₃.balanceOf stakingUnbondingPoolId = v.balanceOf stakingUnbondingPoolId := by
    have hkept := hbalance₁ stakingUnbondingPoolId
    rw [if_neg (Ne.symm hstaker.2)] at hkept
    rw [hbalance₃, hbalance₂]
    exact hkept
  have hreserveLt := hmoved₃.reserve.balanceOf_lt
  have hshares := hcontinues.shares_lt h
  have hamount := hcontinues.amount_le h
  have hpendingLt := h.pendingShares_lt
  obtain ⟨hsettled, hpriced, _, hpending, hface, _, hadded⟩ :=
    addPendingDeposit_spec hcontinues.settled hcontinues.priced hquanto hshares
      h.index_le_nextIndex (by omega : (pos.pendingAmount + amount : ℕ) < 2 ^ 64)
  refine ⟨⟨_, h.record hmoved₃ hcontinues hk haccount rfl rfl rfl hsettled hpriced ?_ ?_ ?_ ?_⟩,
    fun k' hk' => ?_⟩
  · rfl
  · show ((Word.clamp (g.pendingShares + (addPendingDeposit pos g amount).2) : U128) +
      pos.pendingShares : ℕ) = g.pendingShares + (addPendingDeposit pos g amount).1.pendingShares
    rw [Word.toNat_clamp_of_lt (by omega)]
    omega
  · show (positionValue g.totalShares g.index : ℕ) +
      (addPendingDeposit pos g amount).1.pendingAmount + _ ≤ _
    omega
  · show (pos.unbondingAmount : ℕ) + _ ≤ _
    rw [hpool, Nat.add_comm]
  · rw [storedPosition_insert, if_neg hk', hmoved₃.position]

theorem mem_names {i : ℕ} (hk : ix.accounts[i]? = some k) : k ∈ payer :: ix.accounts :=
  mem_cons_of_mem _ (mem_of_getElem? hk)

/-- A position that is there is at none of the protocol's addresses. -/
theorem notMem_reserved (h : InOrder v) (hpos : storedPosition v k = some pos) :
    k ∉ reserved := by
  intro hk
  rw [h.vacant k hk] at hpos
  cases hpos

theorem notMem_stakingBooks (h : InOrder v) (hpos : storedPosition v k = some pos) :
    k ∉ stakingBooks :=
  fun hk => notMem_reserved h hpos (stakingBooks_subset_reserved hk)

/-- An entry at an address outside the reserved ones keeps the protocol's accounts free of
positions. -/
theorem inOrder_of_entry {v' : Accounts} (h : InOrder v) (hsolvent : ∃ g', Solvent g' v')
    (hother : ∀ k' ≠ k, storedPosition v' k' = storedPosition v k') (hk : k ∉ reserved) :
    InOrder v' where
  solvent := hsolvent
  vacant k' hk' := by
    rw [hother k' fun heq => hk (heq ▸ hk')]
    exact h.vacant k' hk'

theorem stake_inOrder {increase : Bool} (h : InOrder v)
    (hshows : Shows (payer :: ix.accounts) store w v) (hpayer : ¬IsProtocolId payer)
    (hquanto : ∀ g, storedGlobal w = some g → (g.currentQuanto : ℕ) + 1 < 2 ^ 64) :
    Wp (stake ix payer amount increase) w fun _ w' => InOrder (w' ∪ store) := by
  simp only [stake, wp_steps, wp_readGlobal, wp_readPosition, wp_ite]
  rintro staker hstaker positionPk hposition _ hglobalPk _ hreservePk rfl rfl rfl _ g hg
  have hglobalMem : stakingGlobalId ∈ staker :: ix.accounts := mem_names hglobalPk
  have hreserveMem : stakingReserveId ∈ staker :: ix.accounts := mem_names hreservePk
  have hpositionMem : positionPk ∈ staker :: ix.accounts := mem_names hposition
  have hsolvent := h.solvent_of ((hshows.storedGlobal hglobalMem).symm.trans hg)
  have hne : staker ≠ stakingReserveId ∧ staker ≠ stakingUnbondingPoolId :=
    ⟨fun heq => hpayer (heq ▸ isProtocolId_repeatedByte (by decide)),
      fun heq => hpayer (heq ▸ isProtocolId_repeatedByte (by decide))⟩
  rw [hshows.storedPosition hpositionMem]
  constructor
  · intro _
    simp only [increaseStake, checkFunds, wp_steps]
    intro pos hpos _ _ account _ _
    have hcontinues : Continues g v positionPk
        { pos.settle g with lastModifiedQuanto := g.currentQuanto, state := .active } :=
      (hsolvent.continues_settle hpos).of_fields rfl rfl rfl rfl rfl
    refine (wp_deposit hsolvent hshows hcontinues (notMem_stakingBooks h hpos) hne (hquanto g hg)
      (mem_cons_self ..) hglobalMem hreserveMem).mono ?_
    rintro _ w' ⟨hsolvent', hother⟩
    exact inOrder_of_entry h hsolvent' hother (notMem_reserved h hpos)
  · intro _
    simp only [openStake, checkFunds, wp_steps]
    intro hnone _ hfree _ account _ _
    have hbooks : positionPk ∉ stakingBooks := fun hk => hfree (stakingBooks_subset_reserved hk)
    refine (wp_deposit hsolvent hshows (continues_of_none hnone rfl rfl rfl rfl) hbooks hne
      (hquanto g hg) (mem_cons_self ..) hglobalMem hreserveMem).mono ?_
    rintro _ w' ⟨hsolvent', hother⟩
    exact inOrder_of_entry h hsolvent' hother hfree

/-- An unstake that divides the joining shares exactly. -/
theorem beginUnstake_inOrder (h : InOrder v)
    (hshows : Shows (payer :: ix.accounts) store w v)
    (hexact : ∀ k g pos, ix.accounts[1]? = some k → storedGlobal w = some g →
      storedPosition w k = some pos → CancelsExactly g (pos.settle g) amount) :
    Wp (beginUnstake ix payer amount) w fun _ w' => InOrder (w' ∪ store) := by
  simp only [beginUnstake, wp_steps, wp_readGlobal, wp_readPosition, wp_balanceOrZero]
  rintro _ _ positionPk hposition _ hglobalPk _ hreservePk _ hunbondingPk ⟨rfl, rfl, rfl⟩ g hg pos
    hpos _ hnone _ _ _
  have hglobalMem : stakingGlobalId ∈ payer :: ix.accounts := mem_names hglobalPk
  have hreserveMem : stakingReserveId ∈ payer :: ix.accounts := mem_names hreservePk
  have hpoolMem : stakingUnbondingPoolId ∈ payer :: ix.accounts := mem_names hunbondingPk
  have hsolvent := h.solvent_of ((hshows.storedGlobal hglobalMem).symm.trans hg)
  have hstored := (hshows.storedPosition (mem_names hposition)).symm.trans hpos
  have hcontinues := hsolvent.continues_settle hstored
  have heffect := unstakeValue_effect hcontinues.settled hcontinues.priced
    (hcontinues.active_le hsolvent) (hcontinues.shares_le hsolvent) hsolvent.value_lt
    (hcontinues.shares_lt hsolvent) (hexact _ g pos hposition hg hpos)
  have hunbonding : ((pos.settle g).unbondingAmount : ℕ) = 0 := by
    rw [unbondingAmount_settle]
    exact hnone
  generalize pos.settle g = settled at hcontinues heffect hunbonding ⊢
  generalize unstakeValue g settled amount = result at heffect ⊢
  obtain ⟨g', pos', value⟩ := result
  dsimp only at heffect ⊢
  refine ((Moved.refl hsolvent).wp_debitExisting hshows hreserveMem).mono ?_
  rintro _ w₁ ⟨v₁, hshows₁, hmoved₁, hbalance₁⟩
  refine (hmoved₁.wp_creditOrPanic hshows₁ hpoolMem).mono ?_
  rintro _ w₂ ⟨v₂, hshows₂, hmoved₂, hbalance₂⟩
  refine (hmoved₂.wp_writeGlobal hshows₂ hglobalMem).mono ?_
  rintro _ w₃ ⟨v₃, hshows₃, hmoved₃, hbalance₃⟩
  refine hshows₃.wp_writePosition.mono ?_
  rintro _ w₄ ⟨account, haccount, hshows₄⟩
  rw [hshows₄.view]
  have hne : stakingReserveId ≠ stakingUnbondingPoolId := by decide
  have hreserve : v₃.balanceOf stakingReserveId + value = v.balanceOf stakingReserveId := by
    have hpaid := hbalance₁ stakingReserveId
    rw [hbalance₃, hbalance₂]
    exact hpaid
  have hpool : v₃.balanceOf stakingUnbondingPoolId =
      v.balanceOf stakingUnbondingPoolId + value := by
    have hkept := hbalance₁ stakingUnbondingPoolId
    rw [hbalance₃, hbalance₂, ← hkept]
    rfl
  have hbacked : (positionValue g'.totalShares g.index + pos'.pendingAmount + value : ℕ) ≤
      positionValue g.totalShares g.index + settled.pendingAmount := heffect.backed
  have hvalue : pos'.unbondingAmount = value := heffect.unbonding
  refine inOrder_of_entry h ⟨g', hsolvent.record hmoved₃ hcontinues (notMem_stakingBooks h hstored)
    haccount heffect.index heffect.rate heffect.quanto heffect.settled heffect.priced
    heffect.earning heffect.joining ?_ ?_⟩ (fun k' hk' => ?_) (notMem_reserved h hstored)
  · omega
  · rw [hvalue]
    omega
  · rw [storedPosition_insert, if_neg hk', hmoved₃.position]

/-- The withdrawal of what has been unbonded. -/
theorem withdrawUnbonded_inOrder (h : InOrder v)
    (hshows : Shows (payer :: ix.accounts) store w v) (hpayer : ¬IsProtocolId payer) :
    Wp (withdrawUnbonded ix payer) w fun _ w' => InOrder (w' ∪ store) := by
  simp only [withdrawUnbonded, wp_steps, wp_readGlobal, wp_readPosition, wp_balanceOrZero]
  rintro staker hstaker positionPk hposition _ hunbondingPk _ hglobalPk rfl rfl g hg pos hpos
    ⟨_, rfl⟩ _ _ _
  have hglobalMem : stakingGlobalId ∈ staker :: ix.accounts := mem_names hglobalPk
  have hpoolMem : stakingUnbondingPoolId ∈ staker :: ix.accounts := mem_names hunbondingPk
  have hsolvent := h.solvent_of ((hshows.storedGlobal hglobalMem).symm.trans hg)
  have hstored := (hshows.storedPosition (mem_names hposition)).symm.trans hpos
  have hcontinues := hsolvent.continues_settle hstored
  have hreserveNe : stakingReserveId ≠ staker := fun heq =>
    hpayer (heq ▸ isProtocolId_repeatedByte (by decide))
  have hpoolNe : stakingUnbondingPoolId ≠ staker := fun heq =>
    hpayer (heq ▸ isProtocolId_repeatedByte (by decide))
  have hne : stakingReserveId ≠ stakingUnbondingPoolId := by decide
  generalize pos.settle g = settled at hcontinues ⊢
  refine ((Moved.refl hsolvent).wp_debitExisting hshows hpoolMem).mono ?_
  rintro _ w₁ ⟨v₁, hshows₁, hmoved₁, hbalance₁⟩
  refine (hmoved₁.wp_creditOrPanic hshows₁ (mem_cons_self ..)).mono ?_
  rintro _ w₂ ⟨v₂, hshows₂, hmoved₂, hbalance₂⟩
  refine hshows₂.wp_writePosition.mono ?_
  rintro _ w₃ ⟨account, haccount, hshows₃⟩
  rw [hshows₃.view]
  have hreserve : v₂.balanceOf stakingReserveId = v.balanceOf stakingReserveId := by
    have hkept := hbalance₁ stakingReserveId
    rw [hbalance₂, if_neg hreserveNe]
    exact hkept
  have hpool : v₂.balanceOf stakingUnbondingPoolId + settled.unbondingAmount =
      v.balanceOf stakingUnbondingPoolId := by
    have hpaid := hbalance₁ stakingUnbondingPoolId
    rw [hbalance₂, if_neg hpoolNe]
    exact hpaid
  obtain ⟨hsettled, hpriced⟩ := hcontinues.settled_priced (q := { settled with
    unbondingAmount := 0, unbondingReadyQuanto := 0, lastModifiedQuanto := g.currentQuanto,
    state := settled.stateOr .closed }) rfl rfl rfl
  refine inOrder_of_entry h ⟨g, hsolvent.record hmoved₂ hcontinues (notMem_stakingBooks h hstored)
    haccount rfl rfl rfl hsettled hpriced rfl rfl ?_ ?_⟩ (fun k' hk' => ?_)
    (notMem_reserved h hstored)
  · show (positionValue g.totalShares g.index : ℕ) + settled.pendingAmount + _ ≤ _
    omega
  · show (0 : ℕ) + _ ≤ _
    omega
  · rw [storedPosition_insert, if_neg hk', hmoved₂.position]

end StakingV7Program

/-! ### Executions -/

/-- An execution that keeps the books: it makes no deposit in the last quanto there is, and its
unstake takes a whole number of shares out of those that are joining. -/
def KeepsBooks (e : Execution) : Prop :=
  match storedGlobal e.before, StakingV7Instruction.decode.all e.ix.data with
  | some g, some (.stake _) => (g.currentQuanto : ℕ) + 1 < 2 ^ 64
  | some g, some (.increaseStake _) => (g.currentQuanto : ℕ) + 1 < 2 ^ 64
  | some g, some (.beginUnstake amount) =>
    ∀ pos ∈ e.ix.accounts[1]?.bind (storedPosition e.before), CancelsExactly g (pos.settle g) amount
  | _, _ => True

instance : DecidablePred KeepsBooks := fun e => by
  unfold KeepsBooks
  split <;> infer_instance

/-- A staking instruction that keeps the books. -/
theorem StakingV7Program.process_inOrder {e : Execution} {store : Accounts}
    (h : InOrder (e.before ∪ store)) (hcovers : Covers e.before store (e.payer :: e.ix.accounts))
    (hpayer : ¬IsProtocolId e.payer) (hkeeps : KeepsBooks e) :
    Wp (process e.ix e.payer) e.before fun _ w' => InOrder (w' ∪ store) := by
  have hshows : Shows (e.payer :: e.ix.accounts) store e.before (e.before ∪ store) := ⟨rfl, hcovers⟩
  simp only [process, wp_rules]
  intro instr hinstr
  unfold KeepsBooks at hkeeps
  rw [hinstr] at hkeeps
  cases instr with
  | stake amount | increaseStake amount =>
    apply stake_inOrder h hshows hpayer
    intro g hg
    rw [hg] at hkeeps
    exact hkeeps
  | beginUnstake amount =>
    apply beginUnstake_inOrder h hshows
    intro k g pos hk hg hpos
    rw [hg] at hkeeps
    apply hkeeps pos
    rw [hk]
    exact hpos
  | withdrawUnbonded => exact withdrawUnbonded_inOrder h hshows hpayer

end QChain
