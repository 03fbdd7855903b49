import QChain.Execution.Positions

/-!
# Deposits and withdrawals of a position

What `addPendingDeposit` and `unstakeValue` do to a settled position and to the totals. An unstake
takes its amount out of the earning shares first and then out of the deposits that are still
joining, of whose shares it removes the same part, rounded down: where the division is not exact,
the shares that stay are worth more than the deposit that stays.
-/

namespace QChain

open StakePositionV7 StakingV7Program

variable {g : GlobalStakingState} {pos : StakePositionV7} {amount : U64}

/-! ### Deposits -/

/-- A deposit into a settled position. -/
theorem addPendingDeposit_spec (hsettled : pos.settle g = pos) (hpriced : Priced g pos)
    (hquanto : (g.currentQuanto : ℕ) + 1 < 2 ^ 64) (hshares : (pos.pendingShares : ℕ) < 2 ^ 64)
    (hindex : indexScale ≤ (g.nextIndex : ℕ))
    (hamount : (pos.pendingAmount + amount : ℕ) < 2 ^ 64) :
    (addPendingDeposit pos g amount).1.settle g = (addPendingDeposit pos g amount).1 ∧
      Priced g (addPendingDeposit pos g amount).1 ∧
      (addPendingDeposit pos g amount).1.activeShares = pos.activeShares ∧
      ((addPendingDeposit pos g amount).1.pendingShares : ℕ) =
        pos.pendingShares + (addPendingDeposit pos g amount).2 ∧
      ((addPendingDeposit pos g amount).1.pendingAmount : ℕ) = pos.pendingAmount + amount ∧
      (addPendingDeposit pos g amount).1.unbondingAmount = pos.unbondingAmount ∧
      ((addPendingDeposit pos g amount).2 : ℕ) < 2 ^ 64 := by
  have hprice : (sharesForDeposit amount g.nextIndex * g.nextIndex : ℕ) ≤ amount * indexScale :=
    sharesForDeposit_mul_le
  have hadded : (sharesForDeposit amount g.nextIndex : ℕ) ≤ amount := by
    have hmul : (sharesForDeposit amount g.nextIndex : ℕ) * indexScale ≤ amount * indexScale :=
      (Nat.mul_le_mul_left _ hindex).trans hprice
    exact Nat.le_of_mul_le_mul_right hmul (by decide)
  have hlt := amount.toNat_lt
  have hactivation : ((Word.clamp (g.currentQuanto + 1) : U64) : ℕ) = g.currentQuanto + 1 :=
    Word.toNat_clamp_of_lt hquanto
  have hpending :
      ((Word.clamp (pos.pendingShares + sharesForDeposit amount g.nextIndex) : U128) : ℕ) =
        pos.pendingShares + sharesForDeposit amount g.nextIndex :=
    Word.toNat_clamp_of_lt (by omega)
  have hface : ((Word.clamp (pos.pendingAmount + amount) : U64) : ℕ) =
      pos.pendingAmount + amount := Word.toNat_clamp_of_lt hamount
  have hstays : (addPendingDeposit pos g amount).1.settle g =
      (addPendingDeposit pos g amount).1 := by
    apply settle_of_lt
    show g.currentQuanto < Word.clamp (g.currentQuanto + 1)
    rw [Word.lt_iff, hactivation]
    exact Nat.lt_succ_self _
  refine ⟨hstays, ⟨?_, fun _ => hactivation.le⟩, rfl, hpending, hface, rfl, ?_⟩
  · have hold := hpriced.price
    rw [hsettled] at hold
    rw [hstays]
    show ((Word.clamp (pos.pendingShares + sharesForDeposit amount g.nextIndex) : U128) *
      g.nextIndex : ℕ) ≤ (Word.clamp (pos.pendingAmount + amount) : U64) * indexScale
    rw [hpending, hface, Nat.add_mul, Nat.add_mul]
    exact Nat.add_le_add hold hprice
  · exact lt_of_le_of_lt hadded hlt

/-! ### Withdrawals -/

/-- The earning shares an unstake removes from a settled position. -/
def sharesTaken (g : GlobalStakingState) (pos : StakePositionV7) (amount : U64) : U128 :=
  if min (amount : ℕ) (positionValue pos.activeShares g.index) =
      positionValue pos.activeShares g.index then pos.activeShares
  else min (sharesForDeposit (Word.ofNat (min (amount : ℕ)
    (positionValue pos.activeShares g.index))) g.index) pos.activeShares

/-- What an unstake takes out of the earning shares. -/
def earningTaken (g : GlobalStakingState) (pos : StakePositionV7) (amount : U64) : U64 :=
  Word.ofNat (min (positionValue (sharesTaken g pos amount) g.index : ℕ)
    (min (amount : ℕ) (positionValue pos.activeShares g.index)))

/-- What an unstake takes out of the deposits that are still joining. -/
def cancelledAmount (g : GlobalStakingState) (pos : StakePositionV7) (amount : U64) : ℕ :=
  min ((amount : ℕ) - earningTaken g pos amount) pos.pendingAmount

/-- The part of the joining shares an unstake removes is a whole number of shares. -/
def CancelsExactly (g : GlobalStakingState) (pos : StakePositionV7) (amount : U64) : Prop :=
  (pos.pendingAmount : ℕ) ∣ pos.pendingShares * cancelledAmount g pos amount

instance : Decidable (CancelsExactly g pos amount) := by
  unfold CancelsExactly
  infer_instance

theorem sharesTaken_le : sharesTaken g pos amount ≤ pos.activeShares := by
  unfold sharesTaken
  split_ifs
  · exact le_rfl
  · exact min_le_right _ _

/-- The shares an unstake removes from those that are joining. -/
def sharesCancelled (g : GlobalStakingState) (pos : StakePositionV7) (amount : U64) : U128 :=
  if cancelledAmount g pos amount = pos.pendingAmount then pos.pendingShares
  else Word.ofNat ((Word.clamp (pos.pendingShares * cancelledAmount g pos amount) : U128).toNat /
    pos.pendingAmount)

theorem cancelledAmount_le : cancelledAmount g pos amount ≤ pos.pendingAmount := min_le_right _ _

/-- The shares removed are to all shares as the amount removed is to the whole amount. -/
theorem sharesCancelled_mul (hshares : (pos.pendingShares : ℕ) < 2 ^ 64)
    (hexact : CancelsExactly g pos amount) :
    (pos.pendingAmount * sharesCancelled g pos amount : ℕ) =
      pos.pendingShares * cancelledAmount g pos amount := by
  have hle : cancelledAmount g pos amount ≤ pos.pendingAmount := cancelledAmount_le
  have hlt := pos.pendingAmount.toNat_lt
  have hprod : (pos.pendingShares : ℕ) * cancelledAmount g pos amount < 2 ^ 128 :=
    calc (pos.pendingShares : ℕ) * cancelledAmount g pos amount
        ≤ pos.pendingShares * pos.pendingAmount := Nat.mul_le_mul_left _ hle
      _ < 2 ^ 64 * 2 ^ 64 := Nat.mul_lt_mul_of_lt_of_lt hshares hlt
  unfold sharesCancelled
  split_ifs with hall
  · rw [hall, Nat.mul_comm]
  · have hdiv : (pos.pendingShares : ℕ) * cancelledAmount g pos amount / pos.pendingAmount <
        2 ^ 128 := lt_of_le_of_lt (Nat.div_le_self _ _) hprod
    rw [Word.toNat_clamp_of_lt hprod, Word.toNat_ofNat_of_lt hdiv]
    exact Nat.mul_div_cancel' hexact

theorem sharesCancelled_le (hpos : 0 < (pos.pendingAmount : ℕ))
    (hshares : (pos.pendingShares : ℕ) < 2 ^ 64) (hexact : CancelsExactly g pos amount) :
    (sharesCancelled g pos amount : ℕ) ≤ pos.pendingShares := by
  have hmul := sharesCancelled_mul hshares hexact
  have hle : (pos.pendingShares : ℕ) * cancelledAmount g pos amount ≤
      pos.pendingAmount * pos.pendingShares := by
    rw [Nat.mul_comm]
    exact Nat.mul_le_mul_right _ cancelledAmount_le
  rw [← hmul] at hle
  exact Nat.le_of_mul_le_mul_left hle hpos

/-- The position after an unstake of a value that took nothing out of joining deposits. -/
def withoutEarning (g : GlobalStakingState) (pos : StakePositionV7) (amount : U64) :
    StakePositionV7 :=
  { pos with activeShares := Word.ofNat (pos.activeShares - sharesTaken g pos amount) }

/-- The position after an unstake that took the rest out of joining deposits. -/
def withoutCancelled (g : GlobalStakingState) (pos : StakePositionV7) (amount : U64) :
    StakePositionV7 :=
  let left : U64 := Word.ofNat (pos.pendingAmount - cancelledAmount g pos amount)
  { withoutEarning g pos amount with
    pendingShares := Word.ofNat (pos.pendingShares - sharesCancelled g pos amount)
    pendingAmount := left
    pendingActivationQuanto := if (left : ℕ) = 0 then 0 else pos.pendingActivationQuanto }

/-- A position with a value that is being withdrawn. -/
def unbondingPosition (g : GlobalStakingState) (pos : StakePositionV7) (value : U64) :
    StakePositionV7 :=
  { pos with
    unbondingAmount := value
    unbondingReadyQuanto := Word.clamp (g.currentQuanto + stakingUnbondingQuantos)
    lastModifiedQuanto := g.currentQuanto
    state := pos.stateOr .unbonding }

theorem unstakeValue_of_cancels
    (h : 0 < (amount : ℕ) - earningTaken g pos amount ∧ 0 < (pos.pendingAmount : ℕ)) :
    unstakeValue g pos amount =
      ({ g with
          totalShares := Word.ofNat (g.totalShares - sharesTaken g pos amount)
          pendingShares := Word.ofNat (g.pendingShares - sharesCancelled g pos amount) },
        unbondingPosition g (withoutCancelled g pos amount)
          (Word.clamp (earningTaken g pos amount + cancelledAmount g pos amount)),
        Word.clamp (earningTaken g pos amount + cancelledAmount g pos amount)) := by
  unfold unstakeValue
  dsimp only
  rw [← sharesTaken, ← earningTaken, if_pos h]
  rfl

theorem unstakeValue_of_not_cancels
    (h : ¬(0 < (amount : ℕ) - earningTaken g pos amount ∧ 0 < (pos.pendingAmount : ℕ))) :
    unstakeValue g pos amount =
      ({ g with totalShares := Word.ofNat (g.totalShares - sharesTaken g pos amount) },
        unbondingPosition g (withoutEarning g pos amount)
          (Word.clamp (earningTaken g pos amount + 0)),
        Word.clamp (earningTaken g pos amount + 0)) := by
  unfold unstakeValue
  dsimp only
  rw [← sharesTaken, ← earningTaken, if_neg h]
  rfl

/-! ### Position and totals together -/

/-- An unstake of a value from a settled position: the totals change as the position does, the
value is no more than what they lose, and what is left of the position is settled and priced. -/
structure UnstakeEffect (g : GlobalStakingState) (pos : StakePositionV7) (g' : GlobalStakingState)
    (pos' : StakePositionV7) (value : U64) : Prop where
  index : g'.index = g.index
  rate : g'.rateFp = g.rateFp
  quanto : g'.currentQuanto = g.currentQuanto
  settled : pos'.settle g = pos'
  priced : Priced g pos'
  earning : (g'.totalShares + pos.activeShares : ℕ) = g.totalShares + pos'.activeShares
  joining : (g'.pendingShares + pos.pendingShares : ℕ) = g.pendingShares + pos'.pendingShares
  unbonding : pos'.unbondingAmount = value
  backed : (positionValue g'.totalShares g.index + pos'.pendingAmount + value : ℕ) ≤
    positionValue g.totalShares g.index + pos.pendingAmount

theorem earningTaken_le :
    (earningTaken g pos amount : ℕ) ≤ positionValue (sharesTaken g pos amount) g.index :=
  (Nat.mod_le _ _).trans (min_le_left _ _)

/-- The value of the shares that stay and of those removed is at most the value of all. -/
theorem positionValue_sub_add_le {total shares : U128} (hle : shares ≤ total)
    (hvalue : (positionValue total g.index : ℕ) < 2 ^ 64) :
    (positionValue (Word.ofNat (total - shares)) g.index + positionValue shares g.index : ℕ) ≤
      positionValue total g.index := by
  have hlt := total.toNat_lt
  have hsub : ((Word.ofNat (total - shares) : U128) : ℕ) = total - shares :=
    Word.toNat_ofNat_of_lt (by omega)
  have hrest : (positionValue (Word.ofNat (total - shares)) g.index : ℕ) ≤
      (total - shares) * g.index / indexScale := by
    refine positionValue_le.trans (le_of_eq ?_)
    rw [hsub]
  have hshares : (positionValue shares g.index : ℕ) ≤ shares * g.index / indexScale :=
    positionValue_le
  have hsum : ((total - shares) * g.index + shares * g.index : ℕ) = total * g.index := by
    rw [← Nat.add_mul, Nat.sub_add_cancel hle]
  rw [(positionValue_of_lt hvalue).1, ← hsum]
  exact (Nat.add_le_add hrest hshares).trans Nat.div_add_div_le_add_div

/-- What is left of a priced deposit is priced, if its shares were divided exactly. -/
theorem price_withoutCancelled (hpos : 0 < (pos.pendingAmount : ℕ))
    (hshares : (pos.pendingShares : ℕ) < 2 ^ 64) (hexact : CancelsExactly g pos amount)
    (hprice : (pos.pendingShares * g.nextIndex : ℕ) ≤ pos.pendingAmount * indexScale) :
    ((pos.pendingShares - sharesCancelled g pos amount) * g.nextIndex : ℕ) ≤
      (pos.pendingAmount - cancelledAmount g pos amount) * indexScale := by
  have hmul := sharesCancelled_mul hshares hexact
  -- both sides are compared after multiplying with the whole amount
  apply Nat.le_of_mul_le_mul_left _ hpos
  calc (pos.pendingAmount : ℕ) *
        ((pos.pendingShares - sharesCancelled g pos amount) * g.nextIndex)
      = (pos.pendingAmount - cancelledAmount g pos amount) *
          (pos.pendingShares * g.nextIndex) := by
        rw [← Nat.mul_assoc, Nat.mul_sub, hmul, Nat.mul_comm (pos.pendingAmount : ℕ),
          ← Nat.mul_sub, Nat.mul_comm (pos.pendingShares : ℕ), Nat.mul_assoc]
    _ ≤ (pos.pendingAmount - cancelledAmount g pos amount) *
          (pos.pendingAmount * indexScale) := Nat.mul_le_mul_left _ hprice
    _ = pos.pendingAmount * ((pos.pendingAmount - cancelledAmount g pos amount) * indexScale) := by
        rw [Nat.mul_left_comm]

/-- A settled position with joining shares joins later. -/
theorem lt_activation_of_settled (hsettled : pos.settle g = pos)
    (hpos : 0 < (pos.pendingShares : ℕ)) : g.currentQuanto < pos.pendingActivationQuanto := by
  by_contra hle
  have hjoined : (pos.settle g).pendingShares = 0 := by
    rw [StakePositionV7.settle, if_pos ⟨hpos, not_lt.1 hle⟩]
  rw [hsettled] at hjoined
  rw [hjoined] at hpos
  exact absurd hpos (lt_irrefl 0)

section Effect

variable (hsettled : pos.settle g = pos) (hpriced : Priced g pos)
  (hactive : pos.activeShares ≤ g.totalShares) (hpending : pos.pendingShares ≤ g.pendingShares)
  (hvalue : (positionValue g.totalShares g.index : ℕ) < 2 ^ 64)

include hsettled hpriced hactive hpending hvalue

/-- The effect of an unstake that cancels an amount of the joining deposits with some shares. -/
theorem unstakeEffect_of {g' : GlobalStakingState} {pos' : StakePositionV7} {value : U64}
    {cancelled shares : ℕ} (hamount : cancelled ≤ pos.pendingAmount)
    (hshares : shares ≤ pos.pendingShares)
    (hprice : ((pos.pendingShares - shares) * g.nextIndex : ℕ) ≤
      (pos.pendingAmount - cancelled) * indexScale)
    (hglobal : g' = { g with
      totalShares := Word.ofNat (g.totalShares - sharesTaken g pos amount)
      pendingShares := Word.ofNat (g.pendingShares - shares) })
    (hearning : pos'.activeShares = Word.ofNat (pos.activeShares - sharesTaken g pos amount))
    (hjoining : pos'.pendingShares = Word.ofNat (pos.pendingShares - shares))
    (hleft : pos'.pendingAmount = Word.ofNat (pos.pendingAmount - cancelled))
    (hactivation : shares < (pos.pendingShares : ℕ) →
      pos'.pendingActivationQuanto = pos.pendingActivationQuanto)
    (hunbonding : pos'.unbondingAmount = value)
    (hle : (value : ℕ) ≤ earningTaken g pos amount + cancelled) :
    UnstakeEffect g pos g' pos' value := by
  subst hglobal
  have htaken : (sharesTaken g pos amount : ℕ) ≤ pos.activeShares := sharesTaken_le
  have hvalueTaken :=
    positionValue_sub_add_le (htaken.trans hactive : sharesTaken g pos amount ≤ _) hvalue
  have htakenValue : (earningTaken g pos amount : ℕ) ≤ _ := earningTaken_le
  rw [Word.le_iff] at hactive hpending
  have hactiveLt := pos.activeShares.toNat_lt
  have htotalLt := g.totalShares.toNat_lt
  have hpendingLt := g.pendingShares.toNat_lt
  have hamountLt := pos.pendingAmount.toNat_lt
  replace hjoining : (pos'.pendingShares : ℕ) = pos.pendingShares - shares := by
    rw [hjoining, Word.toNat_ofNat_of_lt (by omega)]
  replace hleft : (pos'.pendingAmount : ℕ) = pos.pendingAmount - cancelled := by
    rw [hleft, Word.toNat_ofNat_of_lt (by omega)]
  have hjoins : pos'.settle g = pos' := by
    by_cases hsome : shares < (pos.pendingShares : ℕ)
    · apply settle_of_lt
      rw [hactivation hsome]
      exact lt_activation_of_settled hsettled (by omega)
    · exact settle_of_eq_zero (by omega)
  refine ⟨rfl, rfl, rfl, hjoins, ⟨?_, fun hsome => ?_⟩, ?_, ?_, hunbonding, ?_⟩
  · rw [hjoins, hjoining, hleft]
    exact hprice
  · rw [hactivation (by omega)]
    exact hpriced.joins (by omega)
  · rw [hearning, Word.toNat_ofNat_of_lt (by omega), Word.toNat_ofNat_of_lt (by omega)]
    omega
  · rw [hjoining, Word.toNat_ofNat_of_lt (by omega)]
    omega
  · rw [hleft]
    dsimp only
    omega

theorem unstakeValue_effect (hshares : (pos.pendingShares : ℕ) < 2 ^ 64)
    (hexact : CancelsExactly g pos amount) :
    UnstakeEffect g pos (unstakeValue g pos amount).1 (unstakeValue g pos amount).2.1
      (unstakeValue g pos amount).2.2 := by
  have hprice := hpriced.price
  rw [hsettled] at hprice
  by_cases hcancels : 0 < (amount : ℕ) - earningTaken g pos amount ∧ 0 < (pos.pendingAmount : ℕ)
  · rw [unstakeValue_of_cancels hcancels]
    refine unstakeEffect_of hsettled hpriced hactive hpending hvalue cancelledAmount_le
      (sharesCancelled_le hcancels.2 hshares hexact)
      (price_withoutCancelled hcancels.2 hshares hexact hprice) rfl rfl rfl rfl (fun hsome => ?_)
      rfl (Word.toNat_clamp_le _)
    -- if all of the amount were cancelled, so would be all shares
    have hle : cancelledAmount g pos amount ≤ pos.pendingAmount := cancelledAmount_le
    have hlt := pos.pendingAmount.toNat_lt
    refine if_neg fun hnone => ?_
    rw [Word.toNat_ofNat_of_lt (by omega)] at hnone
    have hmul := sharesCancelled_mul hshares hexact
    rw [show cancelledAmount g pos amount = pos.pendingAmount by omega, Nat.mul_comm] at hmul
    exact hsome.ne (Nat.eq_of_mul_eq_mul_right hcancels.2 hmul)
  · rw [unstakeValue_of_not_cancels hcancels]
    exact unstakeEffect_of hsettled hpriced hactive hpending hvalue (Nat.zero_le _) (Nat.zero_le _)
      hprice (by rw [Nat.sub_zero, Word.ofNat_toNat]) rfl (Word.ofNat_toNat _).symm
      (Word.ofNat_toNat _).symm (fun _ => rfl) rfl (Word.toNat_clamp_le _)

end Effect

end QChain
