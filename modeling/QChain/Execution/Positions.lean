import QChain.Data.BorshSize
import QChain.Execution.StakingIndex

/-!
# The books of v7 staking

What the positions of all accounts come to, and the conditions under which the staking reserve
covers them. A position counts as if it had been settled. The reserve has to cover the value of all
earning shares together, and at its face every deposit that is still joining.
-/

namespace QChain

open Borsh Exec Finmap Transact

/-! ### Sizes of records -/

instance : FixedSize PositionState 1 := fixedSize_ofTags

instance : FixedSize StakePositionV7 121 :=
  fixedSize_iso (β := Pubkey × U128 × U64 × U64 × U64 × U64 × U64 × PositionState × U128 × U64 ×
    U64) _ _

instance : FixedSize GlobalStakingState 80 :=
  fixedSize_iso (β := U128 × U128 × U64 × U64 × U128 × U128) _ _

/-- Data that are no position. -/
theorem fromSlice_position_eq_none {bytes : List UInt8} (h : bytes.length ≠ 121) :
    (fromSlice bytes : Option StakePositionV7) = none :=
  fromSlice_eq_none h

/-! ### Sums over positions -/

section

variable {v v' : Accounts} {k : Pubkey} {F G : StakePositionV7 → ℕ}

/-- The sum of a weight over all positions. -/
def positionTotal (F : StakePositionV7 → ℕ) (v : Accounts) : ℕ :=
  v.total fun account => (fromSlice account.data : Option StakePositionV7).elim 0 F

theorem weightAt_position :
    v.weightAt (fun account => (fromSlice account.data : Option StakePositionV7).elim 0 F) k =
      (storedPosition v k).elim 0 F := by
  rw [Finmap.weightAt, storedPosition]
  cases v.lookup k <;> rfl

/-- A change of one position changes the sum by its weights before and after. -/
theorem positionTotal_update (h : ∀ k' ≠ k, storedPosition v' k' = storedPosition v k') :
    positionTotal F v' + (storedPosition v k).elim 0 F =
      positionTotal F v + (storedPosition v' k).elim 0 F := by
  rw [← weightAt_position, ← weightAt_position]
  apply total_add_weightAt
  intro k' hk'
  rw [weightAt_position, weightAt_position, h k' hk']

theorem positionTotal_congr (h : ∀ k, storedPosition v' k = storedPosition v k) :
    positionTotal F v' = positionTotal F v := by
  apply total_congr
  intro k
  rw [weightAt_position, weightAt_position, h k]

theorem positionTotal_mono (h : ∀ k p, storedPosition v k = some p → F p ≤ G p) :
    positionTotal F v ≤ positionTotal G v := by
  apply total_mono
  intro k account hlookup
  cases hposition : (fromSlice account.data : Option StakePositionV7) with
  | none => exact le_rfl
  | some p =>
    apply h k p
    rw [storedPosition, hlookup, Option.bind_some, hposition]

theorem positionTotal_eq (h : ∀ k p, storedPosition v k = some p → F p = G p) :
    positionTotal F v = positionTotal G v :=
  le_antisymm (positionTotal_mono fun k p hp => (h k p hp).le)
    (positionTotal_mono fun k p hp => (h k p hp).ge)

theorem positionTotal_add :
    positionTotal (fun p => F p + G p) v = positionTotal F v + positionTotal G v := by
  rw [positionTotal, positionTotal, positionTotal, ← total_add]
  congr 1
  funext account
  cases (fromSlice account.data : Option StakePositionV7) <;> rfl

theorem positionTotal_mul (c : ℕ) : positionTotal (fun p => c * F p) v = c * positionTotal F v := by
  rw [positionTotal, positionTotal, ← total_mul]
  congr 1
  funext account
  cases (fromSlice account.data : Option StakePositionV7) <;> rfl

theorem positionTotal_div_le {c : ℕ} (hc : 0 < c) :
    positionTotal (fun p => F p / c) v ≤ positionTotal F v / c := by
  refine le_trans (le_of_eq ?_) (total_div_le hc)
  rw [positionTotal]
  congr 1
  funext account
  cases (fromSlice account.data : Option StakePositionV7) with
  | none => exact (Nat.zero_div c).symm
  | some p => rfl

theorem elim_le_positionTotal : (storedPosition v k).elim 0 F ≤ positionTotal F v := by
  rw [← weightAt_position]
  exact weightAt_le_total

theorem le_positionTotal {p : StakePositionV7} (h : storedPosition v k = some p) :
    F p ≤ positionTotal F v := by
  have hle : (storedPosition v k).elim 0 F ≤ positionTotal F v := elim_le_positionTotal
  rw [h] at hle
  exact hle

theorem positionTotal_of_none (h : ∀ k, storedPosition v k = none) : positionTotal F v = 0 := by
  have hzero : positionTotal F v = positionTotal (fun p => 0 * F p) v := by
    apply positionTotal_eq
    intro k p hp
    rw [h k] at hp
    cases hp
  rw [hzero, positionTotal_mul, Nat.zero_mul]

end

/-! ### Settled positions -/

namespace StakePositionV7

variable {p : StakePositionV7} {g g' : GlobalStakingState}

theorem settle_congr (h : g'.currentQuanto = g.currentQuanto) : p.settle g' = p.settle g := by
  rw [settle, settle, h]

theorem settle_of_lt (h : g.currentQuanto < p.pendingActivationQuanto) : p.settle g = p := by
  rw [settle, if_neg]
  rintro ⟨_, hle⟩
  exact absurd hle (not_le.2 h)

theorem settle_of_eq_zero (h : (p.pendingShares : ℕ) = 0) : p.settle g = p := by
  rw [settle, if_neg]
  omega

@[simp] theorem settle_settle : (p.settle g).settle g = p.settle g := by
  by_cases h : 0 < (p.pendingShares : ℕ) ∧ p.pendingActivationQuanto ≤ g.currentQuanto
  · apply settle_of_eq_zero
    rw [settle, if_pos h]
    rfl
  · have hself : p.settle g = p := if_neg h
    rw [hself, hself]

@[simp] theorem unbondingAmount_settle : (p.settle g).unbondingAmount = p.unbondingAmount := by
  rw [settle]
  split_ifs <;> rfl

end StakePositionV7

/-! ### The books -/

/-- A pool of the staking program: an account of the program without data. -/
def IsPool (v : Accounts) (k : Pubkey) : Prop :=
  ∃ account, v.lookup k = some account ∧ account.owner = stakingProgramId ∧ account.data = []

/-- A position's deposits that are still joining are priced at the index the quanto is expected
to close with, or higher, and join with the next quanto at the latest. -/
structure Priced (g : GlobalStakingState) (p : StakePositionV7) : Prop where
  price : ((p.settle g).pendingShares * g.nextIndex : ℕ) ≤ (p.settle g).pendingAmount * indexScale
  joins : 0 < (p.pendingShares : ℕ) → (p.pendingActivationQuanto : ℕ) ≤ g.currentQuanto + 1

/-- The books of staking are in order: the totals are the sums over all positions, the reserve
covers the earning shares and the deposits that are still joining, and the unbonding pool covers
what is being withdrawn. -/
structure Solvent (g : GlobalStakingState) (v : Accounts) : Prop where
  global : ∃ account, v.lookup stakingGlobalId = some account ∧ fromSlice account.data = some g
  reserve : IsPool v stakingReserveId
  pool : IsPool v stakingUnbondingPoolId
  index : indexScale ≤ (g.index : ℕ)
  earning : (g.totalShares : ℕ) = positionTotal (fun p => (p.settle g).activeShares) v
  joining : (g.pendingShares : ℕ) = positionTotal (fun p => (p.settle g).pendingShares) v
  backed : (positionValue g.totalShares g.index : ℕ) +
    positionTotal (fun p => (p.settle g).pendingAmount) v ≤ v.balanceOf stakingReserveId
  unbonding : positionTotal (fun p => p.unbondingAmount) v ≤ v.balanceOf stakingUnbondingPoolId
  priced : ∀ k p, storedPosition v k = some p → Priced g p

namespace IsPool

variable {v : Accounts} {k : Pubkey}

theorem balanceOf_lt (h : IsPool v k) : v.balanceOf k < 2 ^ 64 := by
  obtain ⟨account, hlookup, _⟩ := h
  rw [Accounts.balanceOf_of_lookup hlookup]
  exact account.balance.toNat_lt

end IsPool

namespace Solvent

variable {g g' : GlobalStakingState} {v v' : Accounts} {k : Pubkey} {p : StakePositionV7}

variable (h : Solvent g v)

include h

theorem storedGlobal_eq : storedGlobal v = some g := by
  obtain ⟨account, hlookup, hdata⟩ := h.global
  rw [storedGlobal, hlookup]
  exact hdata

/-- The value of all earning shares is exact, since the reserve covers it. -/
theorem value_eq :
    (positionValue g.totalShares g.index : ℕ) = g.totalShares * g.index / indexScale ∧
      (g.totalShares * g.index : ℕ) < 2 ^ 64 * indexScale := by
  have hbacked := h.backed
  have hreserve := h.reserve.balanceOf_lt
  exact positionValue_of_lt (by omega)

theorem value_lt : (positionValue g.totalShares g.index : ℕ) < 2 ^ 64 := by
  have hbacked := h.backed
  have hreserve := h.reserve.balanceOf_lt
  omega

/-- One share is worth at least one unit, so there are no more shares than units in the
reserve. -/
theorem totalShares_lt : (g.totalShares : ℕ) < 2 ^ 64 := by
  have hmul : (g.totalShares : ℕ) * indexScale ≤ g.totalShares * g.index :=
    Nat.mul_le_mul_left _ h.index
  have hlt := h.value_eq.2
  exact Nat.lt_of_mul_lt_mul_right (lt_of_le_of_lt hmul hlt)

theorem index_le_nextIndex : indexScale ≤ (g.nextIndex : ℕ) :=
  h.index.trans le_advanceStakingIndex

/-- The shares that are joining are worth their deposits at the expected index, or less. -/
theorem pendingShares_mul_le : (g.pendingShares * g.nextIndex : ℕ) ≤
      positionTotal (fun p => (p.settle g).pendingAmount) v * indexScale := by
  rw [h.joining, Nat.mul_comm, Nat.mul_comm _ indexScale, ← positionTotal_mul,
    ← positionTotal_mul]
  apply positionTotal_mono
  intro k p hp
  rw [Nat.mul_comm, Nat.mul_comm indexScale]
  exact (h.priced k p hp).price

theorem pendingAmounts_lt : positionTotal (fun p => (p.settle g).pendingAmount) v < 2 ^ 64 := by
  have hbacked := h.backed
  have hreserve := h.reserve.balanceOf_lt
  omega

theorem pendingShares_lt : (g.pendingShares : ℕ) < 2 ^ 64 := by
  have hmul : (g.pendingShares : ℕ) * indexScale ≤ g.pendingShares * g.nextIndex :=
    Nat.mul_le_mul_left _ h.index_le_nextIndex
  have hle : (g.pendingShares : ℕ) ≤ positionTotal (fun p => (p.settle g).pendingAmount) v :=
    Nat.le_of_mul_le_mul_right (hmul.trans h.pendingShares_mul_le) (by decide)
  exact lt_of_le_of_lt hle h.pendingAmounts_lt

/-! ### What the reserve covers -/

/-- A position is worth no more than its settled shares and its deposits that are joining. -/
theorem currentValue_le (hp : storedPosition v k = some p) : (p.currentValue g : ℕ) ≤
      g.index * (p.settle g).activeShares / indexScale + (p.settle g).pendingAmount := by
  have hactive : (positionValue p.activeShares g.index : ℕ) ≤
      p.activeShares * g.index / indexScale := positionValue_le
  have hpending : (positionValue p.pendingShares g.index : ℕ) ≤
      p.pendingShares * g.index / indexScale := positionValue_le
  refine (Word.toNat_clamp_le _).trans ?_
  by_cases hpos : 0 < (p.pendingShares : ℕ)
  · by_cases hjoined : p.pendingActivationQuanto ≤ g.currentQuanto
    · -- the shares have joined: both parts together are worth no less than each alone
      have hsettle : (p.settle g).activeShares = Word.clamp (p.activeShares + p.pendingShares) := by
        rw [StakePositionV7.settle, if_pos ⟨hpos, hjoined⟩]
      have hle : ((p.settle g).activeShares : ℕ) ≤ g.totalShares := by
        rw [h.earning]
        exact le_positionTotal (F := fun p => (p.settle g).activeShares) hp
      have hlt := h.totalShares_lt
      have hsum : ((p.settle g).activeShares : ℕ) = p.activeShares + p.pendingShares := by
        rw [hsettle, Word.toNat_clamp] at hle ⊢
        omega
      rw [if_pos hpos, if_pos hjoined, hsum, Nat.mul_comm, Nat.add_mul]
      have hdiv : (p.activeShares * g.index / indexScale : ℕ) +
            p.pendingShares * g.index / indexScale ≤
          (p.activeShares * g.index + p.pendingShares * g.index) / indexScale :=
        Nat.div_add_div_le_add_div
      omega
    · rw [if_pos hpos, if_neg hjoined, StakePositionV7.settle_of_lt (not_le.1 hjoined),
        Nat.mul_comm (g.index : ℕ)]
      omega
  · rw [if_neg hpos, StakePositionV7.settle_of_eq_zero (by omega), Nat.mul_comm (g.index : ℕ)]
    omega

/-- The reserve covers the positions. -/
theorem total_currentValue_le :
    positionTotal (fun p => p.currentValue g) v ≤ v.balanceOf stakingReserveId := by
  have hvalues : positionTotal (fun p => p.currentValue g) v ≤
      positionTotal (fun p => g.index * (p.settle g).activeShares / indexScale) v +
        positionTotal (fun p => (p.settle g).pendingAmount) v := by
    rw [← positionTotal_add]
    exact positionTotal_mono fun k p hp => h.currentValue_le hp
  have hearning : positionTotal (fun p => g.index * (p.settle g).activeShares / indexScale) v ≤
      positionValue g.totalShares g.index := by
    rw [h.value_eq.1, h.earning, Nat.mul_comm, ← positionTotal_mul]
    exact positionTotal_div_le (by decide)
  have hbacked := h.backed
  omega

/-! ### Between two closes -/

/-- The books do not change where no position and not the totals are written, and the two pools
lose nothing. -/
theorem of_frame (hposition : ∀ k, storedPosition v' k = storedPosition v k)
    (hglobal : ∃ account, v'.lookup stakingGlobalId = some account ∧
      fromSlice account.data = some g) (hreserve : IsPool v' stakingReserveId)
    (hreserveLe : v.balanceOf stakingReserveId ≤ v'.balanceOf stakingReserveId)
    (hpool : IsPool v' stakingUnbondingPoolId)
    (hpoolLe : v.balanceOf stakingUnbondingPoolId ≤ v'.balanceOf stakingUnbondingPoolId) :
    Solvent g v' where
  global := hglobal
  reserve := hreserve
  pool := hpool
  index := h.index
  earning := by rw [positionTotal_congr hposition, h.earning]
  joining := by rw [positionTotal_congr hposition, h.joining]
  backed := by
    rw [positionTotal_congr hposition]
    exact h.backed.trans hreserveLe
  unbonding := by
    rw [positionTotal_congr hposition]
    exact h.unbonding.trans hpoolLe
  priced k p hp := h.priced k p (by rw [← hposition k, hp])

/-- The books after one position and the totals have been written: the totals change as the
position does, and the pools lose no more than the position. -/
theorem update (hother : ∀ k' ≠ k, storedPosition v' k' = storedPosition v k')
    (hnew : storedPosition v' k = some p)
    (hglobal : ∃ account, v'.lookup stakingGlobalId = some account ∧
      fromSlice account.data = some g') (hreserve : IsPool v' stakingReserveId)
    (hpool : IsPool v' stakingUnbondingPoolId) (hindex : g'.index = g.index)
    (hrate : g'.rateFp = g.rateFp) (hquanto : g'.currentQuanto = g.currentQuanto)
    (hearning : (g'.totalShares : ℕ) +
        (storedPosition v k).elim 0 (fun p => ((p.settle g).activeShares : ℕ)) =
      g.totalShares + (p.settle g).activeShares) (hjoining : (g'.pendingShares : ℕ) +
        (storedPosition v k).elim 0 (fun p => ((p.settle g).pendingShares : ℕ)) =
      g.pendingShares + (p.settle g).pendingShares)
    (hbacked : (positionValue g'.totalShares g.index : ℕ) + (p.settle g).pendingAmount +
        v.balanceOf stakingReserveId ≤ v'.balanceOf stakingReserveId +
      (positionValue g.totalShares g.index +
        (storedPosition v k).elim 0 (fun p => ((p.settle g).pendingAmount : ℕ))))
    (hunbonding : (p.unbondingAmount : ℕ) + v.balanceOf stakingUnbondingPoolId ≤
      v'.balanceOf stakingUnbondingPoolId +
        (storedPosition v k).elim 0 (fun p => (p.unbondingAmount : ℕ))) (hpriced : Priced g p) :
    Solvent g' v' := by
  have hsettle : ∀ p : StakePositionV7, p.settle g' = p.settle g :=
    fun p => StakePositionV7.settle_congr hquanto
  have hnext : g'.nextIndex = g.nextIndex := by
    rw [GlobalStakingState.nextIndex, GlobalStakingState.nextIndex, hindex, hrate]
  have htotal : ∀ F : StakePositionV7 → ℕ, positionTotal F v' + (storedPosition v k).elim 0 F =
      positionTotal F v + F p := by
    intro F
    rw [positionTotal_update hother, hnew]
    rfl
  have hactive := htotal fun p => (p.settle g).activeShares
  have hpending := htotal fun p => (p.settle g).pendingShares
  have hamount := htotal fun p => (p.settle g).pendingAmount
  have hunbond := htotal fun p => p.unbondingAmount
  have hweights : Priced g = Priced g' := by
    funext p
    apply propext
    constructor
    · rintro ⟨hprice, hjoins⟩
      exact ⟨by rwa [hsettle, hnext], by rwa [hquanto]⟩
    · rintro ⟨hprice, hjoins⟩
      exact ⟨by rwa [hsettle, hnext] at hprice, by rwa [hquanto] at hjoins⟩
  refine ⟨hglobal, hreserve, hpool, by rw [hindex]; exact h.index, ?_, ?_, ?_, ?_, ?_⟩
  · simp only [hsettle]
    have := h.earning
    omega
  · simp only [hsettle]
    have := h.joining
    omega
  · simp only [hsettle, hindex]
    have := h.backed
    omega
  · have := h.unbonding
    omega
  · intro k' p' hp'
    rw [← hweights]
    by_cases hk : k' = k
    · subst hk
      obtain rfl := Option.mem_unique hnew hp'
      exact hpriced
    · rw [hother k' hk] at hp'
      exact h.priced k' p' hp'

/-! ### The close of a quanto -/

/-- Once the quanto has closed, no deposit is joining any more: its shares earn. -/
theorem settle_closed (hp : storedPosition v k = some p) {newIndex : U128} :
    (((p.settle (g.closed newIndex)).activeShares : ℕ) =
        (p.settle g).activeShares + (p.settle g).pendingShares) ∧
      ((p.settle (g.closed newIndex)).pendingShares : ℕ) = 0 := by
  have hquanto : ((g.closed newIndex).currentQuanto : ℕ) =
      min (g.currentQuanto + 1 : ℕ) (2 ^ 64 - 1) := Word.toNat_clamp _
  have hactive : ((p.settle g).activeShares : ℕ) ≤ g.totalShares := by
    rw [h.earning]
    exact le_positionTotal (F := fun p => (p.settle g).activeShares) hp
  have hpending : ((p.settle g).pendingShares : ℕ) ≤ g.pendingShares := by
    rw [h.joining]
    exact le_positionTotal (F := fun p => (p.settle g).pendingShares) hp
  have htotal := h.totalShares_lt
  have hjoining := h.pendingShares_lt
  by_cases hpos : 0 < (p.pendingShares : ℕ)
  · have hjoins := (h.priced k p hp).joins hpos
    have hquantoLt := p.pendingActivationQuanto.toNat_lt
    have hjoined : p.pendingActivationQuanto ≤ (g.closed newIndex).currentQuanto := by
      rw [Word.le_iff]
      omega
    have hclosed : p.settle (g.closed newIndex) =
        { p with
          activeShares := Word.clamp (p.activeShares + p.pendingShares)
          pendingShares := 0
          pendingAmount := 0
          pendingActivationQuanto := 0 } := if_pos ⟨hpos, hjoined⟩
    rw [hclosed]
    refine ⟨?_, rfl⟩
    by_cases hnow : p.pendingActivationQuanto ≤ g.currentQuanto
    · have hsettle : p.settle g =
          { p with
            activeShares := Word.clamp (p.activeShares + p.pendingShares)
            pendingShares := 0
            pendingAmount := 0
            pendingActivationQuanto := 0 } := if_pos ⟨hpos, hnow⟩
      rw [hsettle]
      rfl
    · rw [StakePositionV7.settle_of_lt (not_le.1 hnow)] at hactive hpending ⊢
      exact Word.toNat_clamp_of_lt (by omega)
  · rw [StakePositionV7.settle_of_eq_zero (by omega), StakePositionV7.settle_of_eq_zero (by omega)]
    omega

/-- What joins is worth no more than what it leaves behind: deposits too small for a share stay as
they are. -/
theorem pendingAmount_closed (hp : storedPosition v k = some p) {newIndex : U128}
    (hle : newIndex ≤ g.nextIndex) :
    indexScale * ((p.settle (g.closed newIndex)).pendingAmount : ℕ) +
      newIndex * (p.settle g).pendingShares ≤ indexScale * (p.settle g).pendingAmount := by
  by_cases hpos : 0 < (p.pendingShares : ℕ)
  · have hprice := (h.priced k p hp).price
    have hmul : (newIndex : ℕ) * (p.settle g).pendingShares ≤
        (p.settle g).pendingShares * g.nextIndex := by
      rw [Nat.mul_comm]
      exact Nat.mul_le_mul_left _ hle
    have hzero : ((p.settle (g.closed newIndex)).pendingAmount : ℕ) = 0 := by
      have hnone : ((p.settle (g.closed newIndex)).pendingShares : ℕ) = 0 := (h.settle_closed hp).2
      rw [StakePositionV7.settle] at hnone ⊢
      split_ifs at hnone ⊢
      · rfl
      · omega
    rw [hzero, Nat.mul_comm indexScale ((p.settle g).pendingAmount : ℕ)]
    omega
  · rw [StakePositionV7.settle_of_eq_zero (by omega), StakePositionV7.settle_of_eq_zero (by omega),
      Nat.le_zero.1 (not_lt.1 hpos)]
    exact le_rfl

/-- The close of a quanto at an index that is no higher than expected, with the growth of the
earning shares paid into the reserve. -/
theorem close {newIndex : U128} (hindex : g.index ≤ newIndex) (hnext : newIndex ≤ g.nextIndex)
    (hposition : ∀ k, storedPosition v' k = storedPosition v k)
    (hglobal : ∃ account, v'.lookup stakingGlobalId = some account ∧
      fromSlice account.data = some (g.closed newIndex)) (hreserve : IsPool v' stakingReserveId)
    (hpaid : v.balanceOf stakingReserveId +
        (positionValue g.totalShares newIndex - positionValue g.totalShares g.index : ℕ) ≤
      v'.balanceOf stakingReserveId) (hpool : IsPool v' stakingUnbondingPoolId)
    (hpoolLe : v.balanceOf stakingUnbondingPoolId ≤ v'.balanceOf stakingUnbondingPoolId) :
    Solvent (g.closed newIndex) v' := by
  have htotal := h.totalShares_lt
  have hjoining := h.pendingShares_lt
  have hshares : ((g.closed newIndex).totalShares : ℕ) = g.totalShares + g.pendingShares :=
    Word.toNat_clamp_of_lt (by omega)
  refine ⟨hglobal, hreserve, hpool, h.index.trans hindex, ?_, ?_, ?_, ?_, ?_⟩
  · rw [hshares, h.earning, h.joining, ← positionTotal_add, positionTotal_congr hposition]
    exact positionTotal_eq fun k p hp => (h.settle_closed hp).1.symm
  · have hzero : positionTotal (fun p => (p.settle (g.closed newIndex)).pendingShares) v =
        positionTotal (fun p => 0 * p.pendingShares) v :=
      positionTotal_eq fun k p hp => by rw [(h.settle_closed hp).2, Nat.zero_mul]
    rw [positionTotal_congr hposition, hzero, positionTotal_mul, Nat.zero_mul]
    rfl
  · rw [positionTotal_congr hposition]
    -- the value of all shares grows by what was paid and by the deposits that joined
    have hbacked := h.backed
    have hreserveLt := hreserve.balanceOf_lt
    have hexact : (positionValue g.totalShares newIndex : ℕ) =
        g.totalShares * newIndex / indexScale := (positionValue_of_lt (by omega)).1
    have hjoined : indexScale *
          positionTotal (fun p => (p.settle (g.closed newIndex)).pendingAmount) v +
        newIndex * g.pendingShares ≤
          indexScale * positionTotal (fun p => (p.settle g).pendingAmount) v := by
      rw [h.joining, ← positionTotal_mul, ← positionTotal_mul, ← positionTotal_mul,
        ← positionTotal_add]
      exact positionTotal_mono fun k p hp => h.pendingAmount_closed hp hnext
    have hvalue : (positionValue (g.closed newIndex).totalShares newIndex : ℕ) ≤
        (g.totalShares * newIndex + newIndex * g.pendingShares) / indexScale := by
      refine positionValue_le.trans (le_of_eq ?_)
      rw [hshares, Nat.add_mul, Nat.mul_comm (g.pendingShares : ℕ)]
    have hsum : positionValue (g.closed newIndex).totalShares newIndex +
          positionTotal (fun p => (p.settle (g.closed newIndex)).pendingAmount) v ≤
        g.totalShares * newIndex / indexScale +
          positionTotal (fun p => (p.settle g).pendingAmount) v := by
      rw [← Nat.add_mul_div_left _ _ (by decide : 0 < indexScale)]
      refine (Nat.add_le_add_right hvalue _).trans ?_
      rw [← Nat.add_mul_div_left _ _ (by decide : 0 < indexScale)]
      apply Nat.div_le_div_right
      omega
    show (positionValue (g.closed newIndex).totalShares newIndex : ℕ) + _ ≤ _
    omega
  · rw [positionTotal_congr hposition]
    exact h.unbonding.trans hpoolLe
  · intro k p hp
    rw [hposition k] at hp
    refine ⟨?_, fun hpos => ?_⟩
    · rw [(h.settle_closed hp).2, Nat.zero_mul]
      exact Nat.zero_le _
    · have hlt := g.currentQuanto.toNat_lt
      have hquanto : (g.currentQuanto : ℕ) ≤ (g.closed newIndex).currentQuanto :=
        le_min (Nat.le_succ _) (by omega)
      exact ((h.priced k p hp).joins hpos).trans (Nat.add_le_add_right hquanto 1)

end Solvent

end QChain
