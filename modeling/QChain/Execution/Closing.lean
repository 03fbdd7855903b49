import Mathlib
import QChain.Execution.StakingIndex
import QChain.Execution.Trace

/-!
# The close of quantos

What `closeDueQuantos` does to the accounts. It works on copies of three accounts of the protocol
and pays fees out of the store between two quantos. A payment that reaches an account that has been
copied is lost with the next write of the copies.
-/

namespace QChain

open Accounts Exec Finmap Ledger List Option Transact

/-- A sequence of writes of one kind, with what they paid in at most and took out at least. -/
inductive Writes (W : Accounts → Pubkey → Account → ℕ → ℕ → Prop) (s₀ : Accounts) :
    ℕ → ℕ → Accounts → Prop
  | refl : Writes W s₀ 0 0 s₀
  | write {paidIn takenOut amountIn amountOut : ℕ} {v : Accounts} {k : Pubkey} {account : Account}
      (h : Writes W s₀ paidIn takenOut v) (hwrite : W v k account amountIn amountOut) :
      Writes W s₀ (paidIn + amountIn) (takenOut + amountOut) (v.insert k account)
  | weaken {paidIn paidIn' takenOut : ℕ} {v : Accounts} (h : Writes W s₀ paidIn takenOut v)
      (hin : paidIn ≤ paidIn') : Writes W s₀ paidIn' takenOut v

/-- A sequence of writes of the close of quantos. -/
abbrev Closes := Writes ClosingWrite

/-- A sequence of writes of the upkeep between two quantos. -/
abbrev Upkeeps := Writes UpkeepWrite

/-- The accounts of the protocol that the close of quantos writes. -/
def closingKeys : List Pubkey :=
  [stakingReserveId, emissionReserveId, validatorFeePoolId, validatorRegistryAccountId,
    stakingGlobalId]

variable {W : Accounts → Pubkey → Account → ℕ → ℕ → Prop} {s₀ v : Accounts} {paidIn takenOut : ℕ}
  {k : Pubkey}

/-- What every write of a kind keeps, a sequence of them keeps. -/
theorem Writes.invariant {I : Accounts → Prop} (h : Writes W s₀ paidIn takenOut v)
    (hwrite : ∀ v k account amountIn amountOut, I v → W v k account amountIn amountOut →
      I (v.insert k account))
    (hstart : I s₀) : I v := by
  induction h with
  | refl => exact hstart
  | write _ hw ih => exact hwrite _ _ _ _ _ ih hw
  | weaken _ _ ih => exact ih

/-- Writes that continue others, of a kind that is part of theirs. -/
theorem Writes.append {W' : Accounts → Pubkey → Account → ℕ → ℕ → Prop} {v' : Accounts}
    {paidIn' takenOut' : ℕ} (h : Writes W s₀ paidIn takenOut v)
    (h' : Writes W' v paidIn' takenOut' v')
    (hW : ∀ {v k account amountIn amountOut}, W' v k account amountIn amountOut →
      W v k account amountIn amountOut) :
    Writes W s₀ (paidIn + paidIn') (takenOut + takenOut') v' := by
  induction h' with
  | refl => exact h
  | write _ hwrite ih =>
    rw [← Nat.add_assoc, ← Nat.add_assoc]
    exact ih.write (hW hwrite)
  | weaken _ hin ih => exact ih.weaken (Nat.add_le_add_left hin _)

namespace Closes

/-- An account that is not one of the protocol's can only have been credited. -/
theorem lookup_eq_or (h : Closes s₀ paidIn takenOut v) (hk : k ∉ closingKeys) :
    v.lookup k = s₀.lookup k ∨ ∃ balance : U64, s₀.balanceOf k ≤ balance ∧
      v.lookup k = some { s₀.getOrNew k systemProgramId with balance := balance } := by
  induction h with
  | refl => exact .inl rfl
  | weaken _ _ ih => exact ih
  | @write _ _ _ _ v k' account _ hwrite ih =>
    rw [Finmap.lookup_insert_eq]
    by_cases heq : k = k'
    · subst heq
      rw [if_pos rfl]
      cases hwrite with
      | @reward _ balance' _ _ hbalance =>
        refine .inr ⟨balance', ?_, ?_⟩
        · rcases ih with ih | ⟨balance, hle, ih⟩
          · rw [hbalance, balanceOf_congr ih]
            omega
          · rw [hbalance, balanceOf_of_lookup ih]
            exact hle.trans (Nat.le_add_right _ _)
        · rcases ih with ih | ⟨balance, _, ih⟩
          · rw [getOrNew_congr ih]
          · rw [getOrNew_of_lookup ih]
      | spend hk' =>
        rcases hk' with rfl | rfl <;> exact absurd (by simp [closingKeys]) hk
      | emit | registry | global => exact absurd (by simp [closingKeys]) hk
    · rw [if_neg heq]
      exact ih

end Closes

/-! ### Upkeep of the registry -/

namespace Upkeep

/-- Entries changed one by one. -/
theorem of_map {registry : ValidatorV7Registry} {f : ValidatorV7Entry → ValidatorV7Entry}
    (hf : ∀ e, f e = { e with
        state := (f e).state, participationCredits := (f e).participationCredits,
        participationOpportunities := (f e).participationOpportunities } ∧
      (e.state = (f e).state ∨ e.state = .bondedPending ∧ (f e).state = .active ∨
        e.state = .active ∧ (f e).state = .jailed)) :
    Upkeep registry ⟨registry.validators.map f⟩ := by
  unfold Upkeep
  rw [forall₂_map_right_iff]
  exact forall₂_same.2 fun e _ => hf e

theorem activate {registry : ValidatorV7Registry} {quanto : U64} :
    Upkeep registry ⟨registry.validators.map fun v =>
      if v.state = .bondedPending ∧ v.activationQuanto ≤ quanto then { v with state := .active }
      else v⟩ := by
  apply of_map
  intro e
  split_ifs with h
  · exact ⟨rfl, .inr (.inl ⟨h.1, rfl⟩)⟩
  · exact ⟨rfl, .inl rfl⟩

theorem score {registry : ValidatorV7Registry} {tally : ParticipationTally} :
    Upkeep registry (scoreRegistry tally registry).jailInactive := by
  rw [ValidatorV7Registry.jailInactive, scoreRegistry, List.map_map]
  apply of_map
  intro e
  simp only [Function.comp_apply]
  split
  · split_ifs with h
    · exact ⟨rfl, .inr (.inr ⟨h.1, rfl⟩)⟩
    · exact ⟨rfl, .inl rfl⟩
  · split_ifs with h
    · exact ⟨rfl, .inr (.inr ⟨h.1, rfl⟩)⟩
    · exact ⟨rfl, .inl rfl⟩

end Upkeep

/-! ### Writes behind copies -/

section Views

variable {C D S : Accounts} {k : Pubkey} {account : Account}

theorem union_insert_of_notMem (hk : k ∉ C) :
    C ∪ S.insert k account = (C ∪ S).insert k account := by
  apply ext_lookup
  intro k'
  rw [lookup_union_eq, Finmap.lookup_insert_eq, Finmap.lookup_insert_eq,
    lookup_union_eq]
  split_ifs with heq
  · rw [heq, lookup_eq_none.2 hk, none_or]
  · rfl

theorem union_insert_of_mem (hk : k ∈ C) : C ∪ S.insert k account = C ∪ S := by
  apply ext_lookup
  intro k'
  rw [lookup_union_eq, Finmap.lookup_insert_eq, lookup_union_eq]
  split_ifs with heq
  · obtain ⟨copied, hcopied⟩ := Finmap.mem_iff.1 hk
    rw [heq, hcopied, some_or, some_or]
  · rfl

theorem lookup_view (hC : k ∉ C) (hcovers : k ∈ D ∨ k ∉ S) :
    (C ∪ (D ∪ S)).lookup k = D.lookup k := by
  rw [lookup_union_eq, lookup_eq_none.2 hC]
  exact lookup_union_of_covers hcovers

end Views

namespace Writes

variable {s₀ C S : Accounts} {paidIn takenOut amountIn amountOut : ℕ} {k : Pubkey}
  {account : Account}

variable (h : Writes W s₀ paidIn takenOut (C ∪ S))

include h

/-- A write to the store behind copies that do not have the address. -/
theorem write_store (hk : k ∉ C) (hwrite : W (C ∪ S) k account amountIn amountOut) :
    Writes W s₀ (paidIn + amountIn) (takenOut + amountOut) (C ∪ S.insert k account) := by
  rw [union_insert_of_notMem hk]
  exact h.write hwrite

/-- A write to the store behind a copy does not show. -/
theorem write_masked (hk : k ∈ C) : Writes W s₀ paidIn takenOut (C ∪ S.insert k account) := by
  rw [union_insert_of_mem hk]
  exact h

/-- A write to the copies. -/
theorem write_copy (hwrite : W (C ∪ S) k account amountIn amountOut) :
    Writes W s₀ (paidIn + amountIn) (takenOut + amountOut) (C.insert k account ∪ S) := by
  rw [← insert_union]
  exact h.write hwrite

end Writes

/-! ### Payment of fees -/

theorem withdrawalAddresses_congr {v v' : Accounts}
    (h : v.lookup validatorRegistryAccountId = v'.lookup validatorRegistryAccountId) :
    withdrawalAddresses v = withdrawalAddresses v' := by
  rw [withdrawalAddresses, withdrawalAddresses, storedRegistryV7, storedRegistryV7, h]

/-- A new balance leaves the registry as it is. Where there was none, the new account's empty
data is not a registry. -/
theorem withdrawalAddresses_insert {v : Accounts} {k owner : Pubkey} {balance : U64} :
    withdrawalAddresses (v.insert k { v.getOrNew k owner with balance := balance }) =
      withdrawalAddresses v := by
  by_cases hk : k = validatorRegistryAccountId
  · subst hk
    have hlookup : ∀ account : Account,
        (v.insert validatorRegistryAccountId account).lookup validatorRegistryAccountId =
          some account := fun account => lookup_insert v
    cases h : v.lookup validatorRegistryAccountId with
    | none =>
      have hempty : ValidatorV7Registry.decodeRegistry [] = none := by decide
      rw [withdrawalAddresses, withdrawalAddresses, storedRegistryV7, storedRegistryV7, hlookup,
        Accounts.getOrNew, h]
      simp only [getD_none, Account.newWallet, hempty, getD_some]
    | some account =>
      rw [withdrawalAddresses, withdrawalAddresses, storedRegistryV7, storedRegistryV7, hlookup, h,
        getOrNew_of_lookup h]
  · apply withdrawalAddresses_congr
    exact lookup_insert_of_ne v (Ne.symm hk)

namespace Upkeeps

variable {s₀ C D S : Accounts} {paidIn takenOut : ℕ} {k : Pubkey} {eligible : List Pubkey}

variable (h : Upkeeps s₀ paidIn takenOut (C ∪ (D ∪ S)))

include h

/-- A validator's reward, paid to copies `D` of the store behind the copies `C`. -/
theorem wp_reward {reward : U64} (hcovers : k ∈ D ∨ k ∉ S)
    (hk : k ∈ withdrawalAddresses (C ∪ (D ∪ S))) :
    Wp (creditOrPanic k systemProgramId reward) D fun _ D' =>
      Upkeeps s₀ (paidIn + reward) takenOut (C ∪ (D' ∪ S)) ∧
        withdrawalAddresses (C ∪ (D' ∪ S)) = withdrawalAddresses (C ∪ (D ∪ S)) ∧
        ∀ k', k' ∈ D' ↔ k' = k ∨ k' ∈ D := by
  rw [wp_creditOrPanic]
  intro balance hbalance
  rw [← insert_union]
  refine ⟨?_, ?_, fun k' => mem_insert⟩
  · by_cases hC : k ∈ C
    · exact (h.write_masked hC).weaken (Nat.le_add_right _ _)
    · have hview := lookup_view hC hcovers
      rw [← getOrNew_congr hview]
      rw [← balanceOf_congr hview] at hbalance
      exact h.write_store hC (.reward hk hbalance)
  · by_cases hC : k ∈ C
    · rw [union_insert_of_mem hC]
    · rw [union_insert_of_notMem hC, ← getOrNew_congr (lookup_view hC hcovers)]
      exact withdrawalAddresses_insert

/-- The rewards of all eligible validators. -/
theorem wp_rewards {reward : U64} (hcovers : Covers D S eligible)
    (hk : eligible ⊆ withdrawalAddresses (C ∪ (D ∪ S))) :
    Wp (eligible.forM fun k => creditOrPanic k systemProgramId reward) D fun _ D' =>
      Upkeeps s₀ (paidIn + reward * eligible.length) takenOut (C ∪ (D' ∪ S)) ∧
        ∀ k ∈ D', k ∈ D ∨ k ∈ eligible := by
  induction eligible generalizing D paidIn with
  | nil => exact (wp_pure _).2 ⟨h, fun k hk => .inl hk⟩
  | cons k eligible ih =>
    have hhead : k ∈ withdrawalAddresses (C ∪ (D ∪ S)) := hk (mem_cons_self ..)
    refine (h.wp_reward (hcovers k (mem_cons_self ..)) hhead).bind ?_
    rintro _ D₁ ⟨h₁, haddresses, hkeys⟩
    refine (ih h₁ ?_ ?_).mono ?_
    · intro k' hk'
      exact (hcovers k' (mem_cons_of_mem k hk')).imp_left fun hD => (hkeys k').2 (.inr hD)
    · rw [haddresses]
      exact fun k' hk' => hk (mem_cons_of_mem k hk')
    · rintro _ D₂ ⟨h₂, hkeys₂⟩
      refine ⟨?_, fun k' hk' => ?_⟩
      · have hsum : paidIn + (reward : ℕ) * (k :: eligible).length =
            paidIn + reward + reward * eligible.length := by
          rw [length_cons]
          ring
        rw [hsum]
        exact h₂
      · rcases hkeys₂ k' hk' with hD₁ | hmem
        · rcases (hkeys k').1 hD₁ with rfl | hD
          · exact .inr (mem_cons_self ..)
          · exact .inl hD
        · exact .inr (mem_cons_of_mem k hmem)

/-- The distribution of the pool behind copies that do not have it. -/
theorem wp_distributeFeePool (hcovers : Covers D S (validatorFeePoolId :: eligible))
    (hpool : validatorFeePoolId ∉ C) (hk : eligible ⊆ withdrawalAddresses (C ∪ (D ∪ S))) :
    Wp (distributeFeePool eligible) D fun _ D' =>
      (∃ paid, Upkeeps s₀ (paidIn + paid) (takenOut + paid) (C ∪ (D' ∪ S))) ∧
        ∀ k ∈ D', k ∈ D ∨ k ∈ eligible := by
  have hsame : (∃ paid, Upkeeps s₀ (paidIn + paid) (takenOut + paid) (C ∪ (D ∪ S))) ∧
      ∀ k ∈ D, k ∈ D ∨ k ∈ eligible := ⟨⟨0, h⟩, fun k hk => .inl hk⟩
  simp only [distributeFeePool, wp_rules, wp_balanceOrZero, wp_ite, wp_find, Exec.wp_put,
    Word.checked_eq_some, checkedSub_eq_some]
  refine ⟨fun _ => hsame, fun _ paid hpaid => ⟨fun _ => ?_, fun _ => hsame⟩⟩
  intro account hlookup balance hbalance
  -- the pool is debited by what the validators are credited
  have hview := (lookup_view hpool (hcovers _ (mem_cons_self ..))).trans hlookup
  have haccount : Accounts.getOrNew (C ∪ (D ∪ S)) validatorFeePoolId systemProgramId = account :=
    getOrNew_of_lookup hview
  have hdebit : Upkeeps s₀ paidIn (takenOut + paid)
      (C ∪ (D.insert validatorFeePoolId { account with balance := balance } ∪ S)) := by
    rw [← insert_union, ← haccount]
    refine h.write_store hpool (.spend ?_)
    rw [balanceOf_of_lookup hview]
    exact hbalance
  refine (hdebit.wp_rewards ?_ ?_).mono ?_
  · intro k hk'
    refine (hcovers k (mem_cons_of_mem _ hk')).imp_left fun hD => ?_
    exact mem_insert.2 (.inr hD)
  · rw [← insert_union, union_insert_of_notMem hpool, ← haccount,
      withdrawalAddresses_insert]
    exact hk
  · rintro _ D' ⟨h', hkeys⟩
    refine ⟨⟨paid, ?_⟩, fun k hk' => ?_⟩
    · rw [hpaid]
      rw [hpaid] at h'
      exact h'
    · rcases hkeys k hk' with hD | hmem
      · rcases mem_insert.1 hD with rfl | hD
        · exact .inl (Finmap.mem_iff.2 ⟨account, hlookup⟩)
        · exact .inl hD
      · exact .inr hmem

end Upkeeps

/-! ### Between two quantos -/

/-- The store behind copies has been kept up, and no more was paid than taken. -/
def Tended (C S S' : Accounts) : Prop :=
  ∃ paidIn takenOut, paidIn ≤ takenOut ∧ Upkeeps (C ∪ S) paidIn takenOut (C ∪ S')

namespace Tended

variable {C S S' S'' : Accounts} {l : Ledger} {cur : U64}

theorem refl : Tended C S S := ⟨0, 0, le_rfl, .refl⟩

theorem trans (h : Tended C S S') (h' : Tended C S' S'') : Tended C S S'' := by
  obtain ⟨paidIn, takenOut, hle, hupkeeps⟩ := h
  obtain ⟨paidIn', takenOut', hle', hupkeeps'⟩ := h'
  exact ⟨_, _, Nat.add_le_add hle hle', hupkeeps.append hupkeeps' id⟩

variable (hC : validatorRegistryAccountId ∉ C)

include hC

theorem wp_writeStoredRegistry {before after : ValidatorV7Registry}
    (hbefore : l.storedRegistry = some before) (hupkeep : Upkeep before after) :
    Wp (writeStoredRegistry before after) l fun _ l' => Tended C l.store l'.store := by
  obtain ⟨account, hlookup, hdecode⟩ := bind_eq_some_iff.1 hbefore
  have hview : (C ∪ l.store).lookup validatorRegistryAccountId = some account := by
    rw [lookup_union_eq, lookup_eq_none.2 hC, none_or, hlookup]
  simp only [writeStoredRegistry, wp_rules]
  rw [getOrNew_of_lookup hlookup]
  cases hbytes : Borsh.toVec after with
  | none => exact (wp_pure _).2 refl
  | some bytes =>
    simp only [wp_ite, wp_pure, wp_writeAccount]
    refine ⟨fun _ => ⟨0, 0, le_rfl, ?_⟩, fun _ => refl⟩
    exact Writes.refl.write_store hC (UpkeepWrite.registry hview hdecode hupkeep hbytes)

theorem wp_activateDueValidators :
    Wp (activateDueValidators cur) l fun _ l' => Tended C l.store l'.store := by
  simp only [activateDueValidators, wp_rules]
  cases hregistry : l.storedRegistry with
  | none => exact (wp_pure _).2 refl
  | some registry => exact wp_writeStoredRegistry hC hregistry .activate

theorem wp_applyParticipationForQuanto :
    Wp (applyParticipationForQuanto cur) l fun _ l' => Tended C l.store l'.store := by
  simp only [applyParticipationForQuanto, wp_ite, wp_rules]
  refine ⟨fun _ => refl, fun _ => ?_⟩
  split
  next tally registry _ hregistry =>
    rw [wp_ite]
    exact ⟨fun _ => wp_writeStoredRegistry hC hregistry .score, fun _ => (wp_pure _).2 refl⟩
  · exact (wp_pure _).2 refl

/-- The eligible validators are among those whose withdrawal addresses are registered. -/
theorem eligibleAddresses_subset :
    eligibleAddresses (l.storedRegistry.getD default) cur ⊆ withdrawalAddresses (C ∪ l.store) := by
  have hregistry : (storedRegistryV7 (C ∪ l.store)).getD default =
      l.storedRegistry.getD default := by
    rw [storedRegistryV7, lookup_union_eq, lookup_eq_none.2 hC,
      storedRegistry]
    cases l.store.lookup validatorRegistryAccountId <;> rfl
  rw [withdrawalAddresses, hregistry]
  exact map_subset _ (filter_sublist ..).subset

theorem wp_distributeFeePoolForQuanto (hpool : validatorFeePoolId ∉ C) :
    Wp (distributeFeePoolForQuanto cur) l fun _ l' => Tended C l.store l'.store := by
  simp only [distributeFeePoolForQuanto, wp_rules, wp_ite, Ledger.wp_runOn]
  refine ⟨fun _ => refl, fun _ => ⟨?_, fun _ _ => refl⟩⟩
  have hsubset : eligibleAddresses (l.storedRegistry.getD default) cur ⊆
      withdrawalAddresses (C ∪ l.store) := eligibleAddresses_subset hC
  generalize eligibleAddresses (l.storedRegistry.getD default) cur = eligible at hsubset ⊢
  have hview : C ∪ (Ledger.copies l.store (validatorFeePoolId :: eligible) ∪ l.store) =
      C ∪ l.store := by rw [Ledger.copies_union]
  have hstart : Upkeeps (C ∪ l.store) 0 0
      (C ∪ (Ledger.copies l.store (validatorFeePoolId :: eligible) ∪ l.store)) := by
    rw [hview]
    exact .refl
  rw [← hview] at hsubset
  refine (Upkeeps.wp_distributeFeePool hstart covers_copies hpool hsubset).mono ?_
  rintro reward D ⟨⟨paid, h'⟩, hD⟩
  refine ⟨fun _ => ?_, fun _ => refl⟩
  rw [Ledger.wp_writeBack]
  · exact ⟨_, _, le_rfl, h'⟩
  · intro k hk
    rcases hD k hk with hcopied | hmem
    · exact (mem_copies.1 hcopied).1
    · exact mem_cons_of_mem _ hmem

end Tended

/-! ### The loop over the quantos -/

/-- The addresses of the copies the close of quantos works on. -/
def quantoKeys : List Pubkey := [stakingGlobalId, stakingReserveId, emissionReserveId]

/-- The copies of the close of quantos: they are at these addresses only, and there what the store
had at the start has been copied. -/
structure Copied (cfg : LedgerConfig) (s₀ C : Accounts) : Prop where
  keys : ∀ k ∈ C, k ∈ quantoKeys
  mem : ∀ k ∈ Ledger.quantoAccounts cfg, k ∈ s₀ → k ∈ C

namespace Copied

variable {cfg : LedgerConfig} {s₀ C S : Accounts}

theorem start : Copied cfg s₀ (Ledger.copies s₀ (Ledger.quantoAccounts cfg)) := by
  have hsubset : Ledger.quantoAccounts cfg ⊆ quantoKeys := by
    unfold Ledger.quantoAccounts
    split_ifs <;> simp [quantoKeys]
  exact ⟨fun k hk => hsubset (mem_copies.1 hk).1,
    fun k hk hmem => mem_copies.2 ⟨hk, hmem⟩⟩

theorem notMem {n : ℕ} (h : Copied cfg s₀ C) (hn : repeatedByte n ∉ quantoKeys) :
    repeatedByte n ∉ C := fun hC => hn (h.keys _ hC)

theorem insert {k : Pubkey} {account : Account} (h : Copied cfg s₀ C) (hk : k ∈ quantoKeys) :
    Copied cfg s₀ (C.insert k account) := by
  refine ⟨fun k' hk' => ?_, fun k' hk' hmem => mem_insert.2 (.inr (h.mem k' hk' hmem))⟩
  rcases mem_insert.1 hk' with rfl | hk'
  · exact hk
  · exact h.keys k' hk'

/-- The settlement writes copies only, among them the new totals. -/
theorem wp_settleQuantoEx {g : GlobalStakingState} {hardCap : Bool} (h : Copied cfg s₀ C)
    (hg : storedGlobal C = some g) :
    Wp (settleQuantoEx g.currentQuanto hardCap) C fun _ C' =>
      Copied cfg s₀ C' ∧ stakingGlobalId ∈ C' := by
  have hreserve : stakingReserveId ∈ quantoKeys := by simp [quantoKeys]
  have hemission : emissionReserveId ∈ quantoKeys := by simp [quantoKeys]
  have hglobal : ∀ C', Copied cfg s₀ C' → ∀ g',
      Wp (writeGlobal g') C' fun _ C'' => Copied cfg s₀ C'' ∧ stakingGlobalId ∈ C'' := by
    intro C' h' g'
    rw [wp_writeGlobal]
    intro bytes _
    exact ⟨h'.insert (mem_cons_self ..), mem_insert.2 (.inl rfl)⟩
  simp only [QChain.wp_settleQuantoEx hg, payEmission, wp_ite, wp_rules, Exec.wp_put,
    wp_creditOrPanic]
  refine ⟨fun _ => ⟨fun _ _ _ _ _ => ?_, fun _ _ _ => ?_⟩, fun _ => hglobal _ h _⟩
  · exact hglobal _ ((h.insert hemission).insert hreserve) _
  · exact hglobal _ (h.insert hreserve) _

end Copied

namespace Ledger

variable {cfg : LedgerConfig} {s₀ C : Accounts} {l : Ledger} {P : Accounts → Prop}

/-- What the settlement of a quanto and the upkeep keep, of copies and store together, the loop
keeps. The store changes only if a quanto is closed. -/
theorem wp_closeQuantos {targetQuanto : U64} {guard : ℕ} {settledAny : Bool}
    (hsettle : ∀ C S g, Copied cfg s₀ C → stakingGlobalId ∈ C ∨ stakingGlobalId ∉ S →
      storedGlobal C = some g → g.currentQuanto < targetQuanto → P (C ∪ S) →
      Wp (settleQuantoEx g.currentQuanto cfg.hardCapSupply) C fun _ C' => P (C' ∪ S))
    (htended : ∀ C S S', Copied cfg s₀ C → P (C ∪ S) → Tended C S S' → P (C ∪ S'))
    (hC : Copied cfg s₀ C) (hglobal : stakingGlobalId ∈ C ∨ stakingGlobalId ∉ l.store)
    (h : P (C ∪ l.store)) (hsettled : settledAny = false → l.store = s₀) :
    Wp (closeQuantos cfg targetQuanto guard C settledAny) l fun r l' =>
      Copied cfg s₀ r.1 ∧ P (r.1 ∪ l'.store) ∧ (r.2 = false → l'.store = s₀) := by
  induction guard generalizing C l settledAny with
  | zero => exact (wp_pure _).2 ⟨hC, h, hsettled⟩
  | succ guard ih =>
    simp only [closeQuantos, wp_rules, wp_runOn, wp_currentQuanto]
    refine ⟨fun g hg => ?_, fun _ _ => ⟨hC, h, hsettled⟩⟩
    rw [wp_ite]
    refine ⟨fun _ => (wp_pure _).2 ⟨hC, h, hsettled⟩, fun hdue => ?_⟩
    simp only [wp_rules, wp_runOn, wp_modify]
    have hsettling := (hsettle C l.store g hC hglobal hg (not_le.1 hdue) h).and
      (hC.wp_settleQuantoEx hg)
    refine ⟨hsettling.mono ?_, fun _ _ => ⟨hC, h, hsettled⟩⟩
    rintro minted C₁ ⟨h₁, hC₁, hglobal₁⟩
    have hregistry : validatorRegistryAccountId ∉ C₁ := hC₁.notMem (by decide)
    have hpool : validatorFeePoolId ∉ C₁ := hC₁.notMem (by decide)
    have hcounted : ∃ l₁ : Ledger, l₁ =
        { l with totalEmitted := Word.clamp (l.totalEmitted + minted) } ∧
        l₁.store = l.store := ⟨_, rfl, rfl⟩
    obtain ⟨l₁, hl₁, hstore₁⟩ := hcounted
    rw [← hl₁]
    refine (Tended.wp_activateDueValidators hregistry).mono fun _ l₂ h₂ => ?_
    refine (Tended.wp_applyParticipationForQuanto hregistry).mono fun _ l₃ h₃ => ?_
    refine (Tended.wp_distributeFeePoolForQuanto hregistry hpool).mono fun _ l₄ h₄ => ?_
    have htend : Tended C₁ l.store l₄.store := by
      rw [← hstore₁]
      exact (h₂.trans h₃).trans h₄
    refine ih hC₁ (.inl hglobal₁) (htended C₁ _ _ hC₁ h₁ htend) fun hfalse => ?_
    exact absurd hfalse (by decide)

/-- What the settlement of a quanto and the upkeep keep, of copies and store together, the close
of the quantos that are due keeps. -/
theorem closeDueQuantos_induction {currentRound : U64}
    (hsettle : ∀ C S g, Copied cfg l.store C → stakingGlobalId ∈ C ∨ stakingGlobalId ∉ S →
      storedGlobal C = some g →
      g.currentQuanto < (Word.ofNat (currentRound / cfg.roundsPerQuanto) : U64) → P (C ∪ S) →
      Wp (settleQuantoEx g.currentQuanto cfg.hardCapSupply) C fun _ C' => P (C' ∪ S))
    (htended : ∀ C S S', Copied cfg l.store C → P (C ∪ S) → Tended C S S' → P (C ∪ S'))
    (h : P l.store) : Wp (closeDueQuantos cfg currentRound) l fun _ l' => P l'.store := by
  simp only [closeDueQuantos, wp_ite, wp_rules]
  refine ⟨fun _ => h, fun _ => ?_⟩
  have hglobal : stakingGlobalId ∈ copies l.store (quantoAccounts cfg) ∨
      stakingGlobalId ∉ l.store := covers_copies _ (mem_cons_self ..)
  have hstart : P (copies l.store (quantoAccounts cfg) ∪ l.store) := by
    rw [copies_union]
    exact h
  refine (wp_closeQuantos hsettle htended .start hglobal hstart fun _ => rfl).mono ?_
  rintro ⟨C, settledAny⟩ l' ⟨hC, h', hsettled⟩
  constructor
  · intro _
    exact (wp_writeBack hC.keys).2 h'
  · intro hnone
    rw [hsettled (Bool.eq_false_iff.2 hnone)]
    exact h

end Ledger

/-! ### The writes of the close -/

namespace Closes

variable {cfg : LedgerConfig} {s₀ C S : Accounts} {paidIn takenOut : ℕ}

/-- The new totals, written at the end of a settlement that left the old ones as they were. -/
theorem wp_writeGlobal {g g' : GlobalStakingState} {C' : Accounts}
    (h : Closes s₀ paidIn takenOut (C' ∪ S)) (hglobal : stakingGlobalId ∈ C ∨ stakingGlobalId ∉ S)
    (hg : storedGlobal C = some g)
    (hlookup : C'.lookup stakingGlobalId = C.lookup stakingGlobalId)
    (hquanto : g'.currentQuanto = Word.clamp (g.currentQuanto + 1)) :
    Wp (writeGlobal g') C' fun _ C'' => Closes s₀ paidIn takenOut (C'' ∪ S) := by
  have hview : (C' ∪ S).lookup stakingGlobalId = C'.lookup stakingGlobalId := by
    apply lookup_union_of_covers
    refine hglobal.imp_left fun hC => ?_
    rw [Finmap.mem_iff, hlookup]
    exact Finmap.mem_iff.1 hC
  have hstored : storedGlobal (C' ∪ S) = some g := by
    rw [← hg, storedGlobal, storedGlobal, hview, hlookup]
  rw [QChain.wp_writeGlobal]
  intro bytes hbytes
  rw [← getOrNew_congr hview]
  exact h.write_copy (.global hstored hquanto hbytes)

variable (h : Closes s₀ paidIn takenOut (C ∪ S))

include h

/-- The emission credited to the staking reserve. A copy of the reserve that is made here does
not have what the store may hold there. -/
theorem wp_emit {emission : U64} :
    Wp (creditOrPanic stakingReserveId stakingProgramId emission) C fun _ C' =>
      Closes s₀ (paidIn + emission) takenOut (C' ∪ S) ∧
        C'.lookup stakingGlobalId = C.lookup stakingGlobalId := by
  rw [wp_creditOrPanic]
  intro balance hbalance
  refine ⟨h.write_copy (.emit ?_ rfl ?_), lookup_insert_of_ne C (by decide)⟩
  · by_cases hC : stakingReserveId ∈ C
    · exact .inr (getOrNew_congr (lookup_union_of_covers (.inl hC))).symm
    · refine .inl ?_
      rw [Accounts.getOrNew, lookup_eq_none.2 hC, getD_none]
  · show (balance : ℕ) ≤ _
    rw [hbalance]
    exact Nat.add_le_add_right (balanceOf_le_union S) _

/-- The emission taken out of the emission reserve, which has been copied if it holds anything. -/
theorem spend {emission balance : U64} (hpos : 0 < (emission : ℕ))
    (hbalance : (balance : ℕ) + emission = C.balanceOf emissionReserveId) :
    Closes s₀ paidIn (takenOut + emission) (C.insert emissionReserveId
      { C.getOrNew emissionReserveId stakingProgramId with balance := balance } ∪ S) := by
  have hC : emissionReserveId ∈ C := by
    by_contra hC
    rw [balanceOf_of_lookup_none (lookup_eq_none.2 hC)] at hbalance
    omega
  have hview := lookup_union_of_covers (.inl hC : _ ∨ emissionReserveId ∉ S)
  rw [← getOrNew_congr hview]
  rw [← balanceOf_congr hview] at hbalance
  exact h.write_copy (.spend (.inl rfl) hbalance)

/-- A quanto is settled. Under the hard cap the emission is taken out of the emission reserve. -/
theorem wp_settleQuantoEx {g : GlobalStakingState} {hardCap : Bool}
    (hcap : hardCap → paidIn ≤ takenOut) (hglobal : stakingGlobalId ∈ C ∨ stakingGlobalId ∉ S)
    (hg : storedGlobal C = some g) :
    Wp (settleQuantoEx g.currentQuanto hardCap) C fun _ C' =>
      ∃ paidIn takenOut, (hardCap → paidIn ≤ takenOut) ∧ Closes s₀ paidIn takenOut (C' ∪ S) := by
  rw [QChain.wp_settleQuantoEx hg]
  simp only [payEmission, wp_ite, wp_rules, Exec.wp_put, checkedSub_eq_some]
  refine ⟨fun hpos => ⟨fun _ balance hbalance => ?_, fun hfree => ?_⟩, fun _ => ?_⟩
  · -- under the hard cap the emission is moved
    rw [balance_getOrNew] at hbalance
    refine (wp_emit (spend h hpos hbalance)).mono ?_
    rintro _ C₁ ⟨h₁, hlookup₁⟩
    have hlookup : C₁.lookup stakingGlobalId = C.lookup stakingGlobalId :=
      hlookup₁.trans (lookup_insert_of_ne C (by decide))
    refine (wp_writeGlobal h₁ hglobal hg hlookup rfl).mono fun _ C₂ h₂ => ⟨_, _, ?_, h₂⟩
    exact fun hcapped => Nat.add_le_add_right (hcap hcapped) _
  · refine (wp_emit h).mono ?_
    rintro _ C₁ ⟨h₁, hlookup₁⟩
    refine (wp_writeGlobal h₁ hglobal hg hlookup₁ rfl).mono fun _ C₂ h₂ => ⟨_, _, ?_, h₂⟩
    exact fun hcapped => absurd hcapped hfree
  · exact (wp_writeGlobal h hglobal hg rfl rfl).mono fun _ C₁ h₁ => ⟨_, _, hcap, h₁⟩

end Closes

/-- The close of the quantos that are due pays in no more than it takes out under the hard
cap. -/
theorem Ledger.closeDueQuantos_closes {cfg : LedgerConfig} {currentRound : U64} {l : Ledger} :
    Wp (closeDueQuantos cfg currentRound) l fun _ l' =>
      ∃ paidIn takenOut, (cfg.hardCapSupply → paidIn ≤ takenOut) ∧
        Closes l.store paidIn takenOut l'.store := by
  refine closeDueQuantos_induction
    (P := fun v => ∃ paidIn takenOut, (cfg.hardCapSupply → paidIn ≤ takenOut) ∧
      Closes l.store paidIn takenOut v) ?_ ?_ ⟨0, 0, fun _ => le_rfl, .refl⟩
  · rintro C S g _ hglobal hg _ ⟨paidIn, takenOut, hcap, h⟩
    exact Closes.wp_settleQuantoEx h hcap hglobal hg
  · rintro C S S' _ ⟨paidIn, takenOut, hcap, h⟩ ⟨paidIn', takenOut', hle, hupkeeps⟩
    refine ⟨_, _, fun hcapped => ?_, h.append hupkeeps UpkeepWrite.closing⟩
    exact Nat.add_le_add (hcap hcapped) hle

end QChain
