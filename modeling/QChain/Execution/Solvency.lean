import QChain.Execution.HardCap
import QChain.Execution.StakingSteps

/-!
# Solvency of v7 staking

Whether the staking reserve covers all positions, over runs in which accounts stake, unstake and
withdraw and quantos close. An unstake that takes a part of a deposit that is still joining, and
cannot divide its shares exactly, leaves shares that are worth more once they earn than what the
reserve holds for them.
-/

namespace QChain

open Accounts Borsh Exec GlobalStakingState List Option Transact

/-! ### Data that are no positions -/

instance : FixedSize FeeState 32 := fixedSize_iso (β := U64 × U64 × U128) _ _

instance : FixedSize EconomicParams 36 :=
  fixedSize_iso (β := U64 × U64 × U64 × UInt16 × UInt16 × U64) _ _

instance : MinSize PublicKeyBundle 4 := minSize_iso (β := List KeyComponent) _ _

instance : MinSize ValidatorV7Entry 186 :=
  minSize_iso (β := Pubkey × Pubkey × Pubkey × Utf8 × PublicKeyBundle × Utf8 × U64 ×
    ValidatorV7State × U64 × U64 × U64 × U64 × U64 × U64 × U64 × Bool × List RetiredConsensusKey ×
    U64) _ _

/-- A registry of validators is no position: one entry alone is longer. -/
theorem fromSlice_registry {registry : ValidatorV7Registry} {bytes : List UInt8}
    (h : toVec registry = some bytes) : (fromSlice bytes : Option StakePositionV7) = none := by
  apply fromSlice_position_eq_none
  obtain ⟨validators⟩ := registry
  cases validators with
  | nil =>
    have hempty : some [0, 0, 0, 0] = some bytes := h
    obtain rfl := Option.some.inj hempty
    decide
  | cons entry rest =>
    have hlength : 4 + 186 ≤ bytes.length := le_length_toVec_cons h
    omega

/-- A list of addresses followed by some bytes is no position, unless a position has as many
bytes after its owner and other whole addresses. -/
theorem fromSlice_addresses {α : Type} [Borsh α] {addresses : List Pubkey} {r : α}
    {bytes back : List UInt8} (h : encode (addresses, r) = some bytes)
    (hback : encode r = some back) (hlength : (4 + back.length) % 32 ≠ 121 % 32) :
    (fromSlice bytes : Option StakePositionV7) = none := by
  obtain ⟨front, hfront, hbytes⟩ := length_encode_pair h hback
  have hfrontLength : front.length = 4 + 32 * addresses.length := length_toVec_list hfront
  apply fromSlice_position_eq_none
  omega

theorem fromSlice_emergency {guardians : List Pubkey} {threshold : UInt8} {bytes : List UInt8}
    (h : toVec (genesisEmergency guardians threshold) = some bytes) :
    (fromSlice bytes : Option StakePositionV7) = none := by
  refine fromSlice_addresses (r := ((genesisEmergency guardians threshold).threshold, false,
    ([] : List Pubkey), ([] : List Pubkey))) h rfl ?_
  simp [length_toLeBytes]

theorem fromSlice_treasury {state : TreasuryState} {bytes : List UInt8} (hnone : state.pending = [])
    (h : toVec state = some bytes) : (fromSlice bytes : Option StakePositionV7) = none := by
  obtain ⟨signers, threshold, timelock, perRelease, perWindow, window, start, released, next,
    pending, policy, signersThreshold, expiry⟩ := state
  obtain rfl : pending = [] := hnone
  refine fromSlice_addresses (r := (threshold, timelock, perRelease, perWindow, window, start,
    released, next, ([] : List PendingOp), policy, signersThreshold, expiry)) h rfl ?_
  simp [length_toLeBytes]

/-! ### Writes of the ledger -/

section

variable {cfg : LedgerConfig} {payer collector k : Pubkey} {v v' : Accounts} {account : Account}
  {amountIn amountOut : ℕ}

theorem InOrder.of_received (h : InOrder v)
    (hposition : ∀ k, storedPosition v' k = storedPosition v k)
    (hreceived : ∀ k ∈ stakingBooks, Received k v v') : InOrder v' := by
  obtain ⟨g, hsolvent⟩ := h.solvent
  refine ⟨⟨g, hsolvent.of_received hposition hreceived⟩, fun k hk => ?_⟩
  rw [hposition, h.vacant k hk]

/-- A write of the ledger leaves the books as they are. -/
theorem LedgerWrite.inOrder (h : LedgerWrite cfg payer collector v k account amountIn amountOut)
    (hv7 : cfg.economicsV7 = true) (hpayer : ¬IsProtocolId payer) (hunstaked : Unstaked v)
    (hv : InOrder v) : InOrder (v.insert k account) := by
  have hbooks : ∀ k ∈ stakingBooks,
      IsProtocolId k ∧ k ∉ [feeStateAccountId, paramsAccountId, stakingRewardsPoolId] := by
    decide
  apply hv.of_received
  · intro k'
    apply storedPosition_insert_of_eq
    cases h with
    | fee | reserve => exact fromSlice_data_getOrNew
    | charge hlookup =>
      rw [storedPosition, hlookup]
      rfl
    | feeState hk hbytes =>
      have hreserved : k ∈ StakingV7Program.reserved := by
        rcases hk with rfl | rfl <;> decide
      rw [hv.vacant k hreserved]
      apply fromSlice_position_eq_none
      rcases hbytes with ⟨fs, hbytes⟩ | ⟨params, hbytes⟩
      · rw [length_toVec hbytes]
        decide
      · rw [length_toVec hbytes]
        decide
    | rewardPool hstaked =>
      rcases hstaked with hv6 | hpos
      · rw [hv7] at hv6
        cases hv6
      · rw [hunstaked.storedStats_eq] at hpos
        exact absurd hpos (lt_irrefl 0)
  · intro k' hk'
    obtain ⟨hprotocol, hother⟩ := hbooks k' hk'
    exact h.received (fun heq => hpayer (heq ▸ hprotocol)) hother

theorem UpkeepWrite.inOrder (h : UpkeepWrite v k account amountIn amountOut) (hv : InOrder v) :
    InOrder (v.insert k account) := by
  have hbooks : ∀ k ∈ stakingBooks, k ≠ validatorFeePoolId ∧ k ≠ validatorRegistryAccountId := by
    decide
  apply hv.of_received
  · intro k'
    apply storedPosition_insert_of_eq
    cases h with
    | spend | reward => exact fromSlice_data_getOrNew
    | registry _ _ _ hbytes =>
      rw [hv.vacant _ (by decide)]
      exact fromSlice_registry hbytes
  · exact fun k' hk' => h.received (hbooks k' hk')

theorem InOrder.of_sweep {dust : U64} (h : InOrder v) (hsweep : ∀ k, Swept dust v v' k) :
    InOrder v' := by
  have hposition : ∀ k, storedPosition v' k = storedPosition v k := by
    intro k
    rw [storedPosition, storedPosition]
    rcases hsweep k with hsame | ⟨account, hlookup, _, _, hlookup'⟩
    · rw [hsame]
    · rw [hlookup, hlookup']
      rfl
  have hpool : ∀ {k}, IsPool v k → v'.lookup k = v.lookup k := by
    rintro k ⟨account, hlookup, howner, _⟩
    rw [(hsweep k).lookup_eq hlookup howner, hlookup]
  have hkept : ∀ {k}, IsPool v k → IsPool v' k := by
    intro k hk
    rw [IsPool, hpool hk]
    exact hk
  obtain ⟨g, hsolvent⟩ := h.solvent
  have hglobal : ∃ account, v'.lookup stakingGlobalId = some account ∧
      fromSlice account.data = some g := by
    obtain ⟨account, hlookup, hdata⟩ := hsolvent.global
    rcases hsweep stakingGlobalId with hsame | ⟨account', hlookup', _, _, hswept⟩
    · exact ⟨account, hsame.trans hlookup, hdata⟩
    · obtain rfl := mem_unique hlookup hlookup'
      exact ⟨_, hswept, hdata⟩
  refine ⟨⟨g, hsolvent.of_frame hposition hglobal (hkept hsolvent.reserve) ?_ (hkept hsolvent.pool)
    ?_⟩, fun k hk => ?_⟩
  · exact (balanceOf_congr (hpool hsolvent.reserve)).ge
  · exact (balanceOf_congr (hpool hsolvent.pool)).ge
  · rw [hposition, h.vacant k hk]

end

/-! ### The close of a quanto -/

section

variable {cfg : LedgerConfig} {C S : Accounts} {g : GlobalStakingState} {hardCap : Bool}

/-- The emission is paid into the reserve in full: a reserve that holds anything could not take
an emission that was capped. -/
theorem wp_payEmission {emission : U128} (h : Solvent g (C ∪ S))
    (hshows : Shows [stakingGlobalId, stakingReserveId] S C (C ∪ S))
    (hzero : balanceOf (C ∪ S) stakingReserveId = 0 → (emission : ℕ) = 0) :
    Wp (payEmission hardCap (Word.clamp emission)) C fun _ C' => ∃ v,
      Shows [stakingGlobalId, stakingReserveId] S C' v ∧ Moved (C ∪ S) g v ∧
        v.balanceOf stakingUnbondingPoolId = balanceOf (C ∪ S) stakingUnbondingPoolId ∧
        balanceOf (C ∪ S) stakingReserveId + emission ≤ v.balanceOf stakingReserveId := by
  have hcapped : ((Word.clamp emission : U64) : ℕ) = min (emission : ℕ) (2 ^ 64 - 1) :=
    Word.toNat_clamp _
  have hpoolNe : stakingUnbondingPoolId ≠ stakingReserveId := by decide
  have hemissionNe : stakingReserveId ≠ emissionReserveId ∧
      stakingUnbondingPoolId ≠ emissionReserveId := by decide
  generalize hminted : (Word.clamp emission : U64) = minted at hcapped ⊢
  -- the credit to the reserve, after accounts other than the two pools have been written
  have hcredit : ∀ {C' v'}, Shows [stakingGlobalId, stakingReserveId] S C' v' →
      Moved (C ∪ S) g v' →
      v'.balanceOf stakingReserveId = balanceOf (C ∪ S) stakingReserveId →
      v'.balanceOf stakingUnbondingPoolId = balanceOf (C ∪ S) stakingUnbondingPoolId →
      Wp (creditOrPanic stakingReserveId stakingProgramId minted) C' fun _ C' => ∃ v,
        Shows [stakingGlobalId, stakingReserveId] S C' v ∧ Moved (C ∪ S) g v ∧
          v.balanceOf stakingUnbondingPoolId = balanceOf (C ∪ S) stakingUnbondingPoolId ∧
          balanceOf (C ∪ S) stakingReserveId + emission ≤
            v.balanceOf stakingReserveId := by
    intro C' v' hshows' hmoved' hreserve' hpool'
    refine (hmoved'.wp_creditOrPanic hshows' (by simp)).mono ?_
    rintro _ C'' ⟨v'', hshows'', hmoved'', hbalance⟩
    refine ⟨v'', hshows'', hmoved'', ?_, ?_⟩
    · rw [hbalance, if_neg hpoolNe, hpool', Nat.add_zero]
    · have hlt := hmoved''.reserve.balanceOf_lt
      rw [hbalance, if_pos rfl] at hlt ⊢
      omega
  simp only [payEmission, wp_ite, wp_rules, Exec.wp_put, checkedSub_eq_some, balance_getOrNew]
  refine ⟨fun hpos => ⟨fun _ balance hbalance => ?_, fun _ => ?_⟩, fun hnone => ?_⟩
  · -- under the hard cap the emission reserve pays, so it has been copied
    have hC : emissionReserveId ∈ C := by
      by_contra hC
      rw [balanceOf_of_lookup_none (Finmap.lookup_eq_none.2 hC)] at hbalance
      omega
    have hview := lookup_union_of_covers (.inl hC : _ ∨ emissionReserveId ∉ S)
    rw [← getOrNew_congr hview]
    refine hcredit hshows.insert (Moved.refl h).insert ?_ ?_
    · rw [balanceOf_insert, if_neg hemissionNe.1]
    · rw [balanceOf_insert, if_neg hemissionNe.2]
  · exact hcredit hshows (.refl h) rfl rfl
  · refine ⟨_, hshows, .refl h, rfl, ?_⟩
    omega

namespace Solvent

/-- Where the reserve is empty, nobody earns. -/
theorem totalShares_eq_zero {v : Accounts} (h : Solvent g v)
    (hzero : v.balanceOf stakingReserveId = 0) : (g.totalShares : ℕ) = 0 := by
  have hbacked := h.backed
  have hexact := h.value_eq.1
  have hle : (g.totalShares : ℕ) ≤ g.totalShares * g.index / indexScale := by
    rw [Nat.le_div_iff_mul_le (by decide)]
    exact Nat.mul_le_mul_left _ h.index
  omega

/-- The close of a quanto keeps the books in order. -/
theorem wp_settleQuantoEx (h : Solvent g (C ∪ S)) (hglobal : stakingGlobalId ∈ C)
    (hreserve : stakingReserveId ∈ C) :
    Wp (settleQuantoEx g.currentQuanto hardCap) C fun _ C' =>
      Solvent (g.closed (g.growth hardCap (emissionBudget C)).1) (C' ∪ S) ∧
        ∀ k, storedPosition (C' ∪ S) k = storedPosition (C ∪ S) k := by
  have hshows : Shows [stakingGlobalId, stakingReserveId] S C (C ∪ S) := by
    refine ⟨rfl, fun k hk => .inl ?_⟩
    simp only [mem_cons, not_mem_nil, or_false] at hk
    rcases hk with rfl | rfl
    · exact hglobal
    · exact hreserve
  have hg : storedGlobal C = some g := by
    rw [hshows.storedGlobal (by simp)]
    exact h.storedGlobal_eq
  obtain ⟨hindex, hnext, hemission⟩ :=
    @growth_spec g hardCap (emissionBudget C) h.value_lt
  rw [QChain.wp_settleQuantoEx hg]
  generalize g.growth hardCap (emissionBudget C) = growth at hindex hnext hemission ⊢
  have hzero : balanceOf (C ∪ S) stakingReserveId = 0 → (growth.2 : ℕ) = 0 := by
    intro hempty
    have hshares := h.totalShares_eq_zero hempty
    rw [hemission, toNat_positionValue, hshares]
    simp
  refine (wp_payEmission h hshows hzero).mono ?_
  rintro _ C₁ ⟨v₁, hshows₁, hmoved₁, hpool₁, hpaid₁⟩
  refine (hmoved₁.wp_writeGlobal hshows₁ (by simp)).mono ?_
  rintro _ C₂ ⟨v₂, hshows₂, hmoved₂, hbalance₂⟩
  rw [hshows₂.view]
  refine ⟨h.close hindex hnext hmoved₂.position hmoved₂.global hmoved₂.reserve ?_ hmoved₂.pool ?_,
    hmoved₂.position⟩
  · rw [hbalance₂, ← hemission]
    exact hpaid₁
  · rw [hbalance₂, hpool₁]

end Solvent

/-- The close of the quantos that are due keeps the books in order. -/
theorem Ledger.closeDueQuantos_inOrder {l : Ledger} {round : U64} (h : InOrder l.store) :
    Wp (closeDueQuantos cfg round) l fun _ l' => InOrder l'.store := by
  obtain ⟨g₀, hsolvent₀⟩ := h.solvent
  have hglobal : ∀ {C}, Copied cfg l.store C → stakingGlobalId ∈ C := by
    intro C hC
    obtain ⟨account, hlookup, _⟩ := hsolvent₀.global
    exact hC.mem _ (mem_cons_self ..) (Finmap.mem_iff.2 ⟨account, hlookup⟩)
  have hreserve : ∀ {C}, Copied cfg l.store C → stakingReserveId ∈ C := by
    intro C hC
    obtain ⟨account, hlookup, _⟩ := hsolvent₀.reserve
    refine hC.mem _ ?_ (Finmap.mem_iff.2 ⟨account, hlookup⟩)
    unfold quantoAccounts
    split_ifs <;> simp
  refine closeDueQuantos_induction (P := InOrder) ?_ ?_ h
  · intro C S g hC _ hg _ hv
    have hstored : storedGlobal (C ∪ S) = some g := by
      rw [storedGlobal, lookup_union_of_covers (.inl (hglobal hC)), ← storedGlobal, hg]
    refine ((hv.solvent_of hstored).wp_settleQuantoEx (hglobal hC) (hreserve hC)).mono ?_
    rintro _ C' ⟨hsolvent, hposition⟩
    refine ⟨⟨_, hsolvent⟩, fun k hk => ?_⟩
    rw [hposition, hv.vacant k hk]
  · rintro C S S' _ hv ⟨paidIn, takenOut, _, hupkeeps⟩
    exact hupkeeps.invariant (fun v k account _ _ hv hwrite => hwrite.inOrder hv) hv

end

/-! ### Genesis -/

/-- Where there is no position, the totals of genesis are in order. -/
theorem Solvent.genesis {v : Accounts} {rateFp : U128} (hnone : ∀ k, storedPosition v k = none)
    (hglobal : ∃ account, v.lookup stakingGlobalId = some account ∧
      fromSlice account.data = some (genesisWithRate rateFp))
    (hreserve : IsPool v stakingReserveId) (hpool : IsPool v stakingUnbondingPoolId) :
    Solvent (.genesisWithRate rateFp) v := by
  refine ⟨hglobal, hreserve, hpool, le_rfl, ?_, ?_, ?_, ?_, fun k p hp => ?_⟩
  · rw [positionTotal_of_none hnone]
    rfl
  · rw [positionTotal_of_none hnone]
    rfl
  · have hzero : (positionValue 0 initialStakingIndex : ℕ) = 0 := by decide
    rw [positionTotal_of_none hnone]
    show (positionValue 0 initialStakingIndex : ℕ) + 0 ≤ _
    omega
  · rw [positionTotal_of_none hnone]
    exact Nat.zero_le _
  · rw [hnone k] at hp
    cases hp

namespace NodeConfig

variable [Crypto] [GenesisFormat] {config : NodeConfig} {accounts accounts' : Accounts}

variable {writes : List (Pubkey × Account)}

omit [Crypto] [GenesisFormat] in
theorem storedPosition_writeAll {k : Pubkey}
    (hwrites : ∀ write ∈ writes, k = write.1 →
      (fromSlice write.2.data : Option StakePositionV7) = none)
    (hnone : storedPosition accounts k = none) :
    storedPosition (writeAll writes accounts) k = none :=
  List.foldlRecOn (motive := fun v => storedPosition v k = none) writes _ hnone
    fun v hv write hwrite => by
      rw [storedPosition_insert]
      split_ifs with hk
      · exact hwrites write hwrite hk
      · exact hv

/-- No account every network starts with is a position, the registry of validators apart. -/
theorem CommonWrites.fromSlice_eq_none
    (h : CommonWrites config writes) : ∀ write ∈ writes, write.1 ≠ validatorRegistryAccountId →
      (fromSlice write.2.data : Option StakePositionV7) = none := by
  have hregistryLength : ∀ bytes, toVec genesisRegistry = some bytes → bytes.length ≠ 121 := by
    decide
  obtain ⟨hstats, hregistry, hparams, hemergency, hpool, _⟩ := h
  simp only [forall_mem_cons]
  refine ⟨fun _ => fromSlice_position_eq_none ?_, fun _ => fromSlice_position_eq_none ?_,
    fun _ => fromSlice_position_eq_none (hregistryLength _ hregistry),
    fun _ => fromSlice_position_eq_none ?_, fun _ => fromSlice_emergency hemergency,
    fun _ => fromSlice_position_eq_none ?_, fun hne => absurd rfl hne, nofun⟩
  · exact config.chainId.length_toBytes.trans_ne (by decide)
  · exact (length_toVec hstats).trans_ne (by decide)
  · exact (length_toVec hparams).trans_ne (by decide)
  · exact (length_toVec hpool).trans_ne (by decide)

/-- The accounts of the v7 economy are no positions. -/
theorem V7Writes.fromSlice_eq_none (h : V7Writes config writes) :
    ∀ write ∈ writes, (fromSlice write.2.data : Option StakePositionV7) = none := by
  have hempty : (fromSlice ([] : List UInt8) : Option StakePositionV7) = none :=
    fromSlice_position_eq_none (by decide)
  obtain ⟨hglobal, _, hregistry, htreasury⟩ := h
  simp only [mem_append, mem_cons, not_mem_nil, or_false, List.mem_map,
    mem_toList]
  rintro write ((((rfl | rfl | rfl | rfl | rfl) | hwrite) | rfl | rfl | rfl) | ⟨treasury, rfl, rfl⟩)
  · exact fromSlice_position_eq_none ((length_toVec hglobal).trans_ne (by decide))
  · exact hempty
  · exact hempty
  · exact hempty
  · exact hempty
  · split_ifs at hwrite
    · obtain rfl := mem_singleton.1 hwrite
      exact hempty
    · cases hwrite
  · exact hempty
  · exact fromSlice_registry hregistry
  · exact hempty
  · obtain ⟨state, amount, hstate, hpending⟩ := exists_treasuryState htreasury
    obtain ⟨bytes, hbytes, rfl⟩ := map_eq_some_iff.1 hstate
    exact fromSlice_treasury hpending hbytes

/-- No account of a v7 network starts as a position. -/
theorem storedPosition_seedGenesis (h : config.seedGenesis = some accounts)
    (hv7 : config.economicsV7 = true) (k : Pubkey) : storedPosition accounts k = none := by
  have hmanifest : ∀ bytes, toVec canonicalManifest = some bytes → bytes.length ≠ 121 := by
    decide
  obtain ⟨allocated, common, v7, manifest, h⟩ := exists_seeds h
  have hallocated : ∀ k, storedPosition allocated k = none := by
    refine allocations_induction (P := fun v => ∀ k, storedPosition v k = none) (fun _ => rfl) ?_
      h.allocs
    intro v k balance amount hv _ k'
    rw [storedPosition_insert]
    split_ifs
    · exact fromSlice_data_getOrNew.trans (hv k)
    · exact hv k'
  have hwrites := (if_pos hv7).mp h.v7Writes
  by_cases hk : k = validatorRegistryAccountId
  · -- the registry of the v7 economy replaces the other
    obtain @⟨_, registry, _, _, _, _, hregistry, _⟩ := hwrites
    have hlookup : accounts.lookup k = some (withData stakingProgramId registry) :=
      h.lookup_of_mem_v7 hv7 (by simp [hk])
    rw [storedPosition, hlookup]
    exact fromSlice_registry hregistry
  · rw [h.accounts_eq]
    refine storedPosition_writeAll ?_ (storedPosition_writeAll
      (fun write hwrite _ => hwrites.fromSlice_eq_none write hwrite) (storedPosition_writeAll
        (fun write hwrite heq => h.commonWrites.fromSlice_eq_none write hwrite (heq ▸ hk))
        (hallocated k)))
    rcases h.manifestWrites with rfl | ⟨bytes, hbytes, rfl⟩
    · intro _ hwrite
      cases hwrite
    · intro write hwrite _
      obtain rfl := mem_singleton.1 hwrite
      exact fromSlice_position_eq_none (hmanifest bytes hbytes)

/-- The books of genesis. -/
theorem lookup_seedGenesis_books (h : config.seedGenesis = some accounts)
    (hv7 : config.economicsV7 = true) : ∃ global,
      toVec (genesisWithRate config.quantoRateFpOr) = some global ∧
      accounts.lookup stakingGlobalId = some (withData stakingProgramId global) ∧
      ∀ k ∈ [stakingReserveId, stakingUnbondingPoolId],
        accounts.lookup k = some (Account.newWallet stakingProgramId) := by
  obtain ⟨allocated, common, v7, manifest, h⟩ := exists_seeds h
  have hwrites := (if_pos hv7).mp h.v7Writes
  obtain ⟨hglobal, _, _, _⟩ := hwrites
  refine ⟨_, hglobal, h.lookup_of_mem_v7 hv7 (by simp), fun k hk => ?_⟩
  refine h.lookup_of_mem_v7 hv7 ?_
  simp only [mem_cons, not_mem_nil, or_false] at hk
  rcases hk with rfl | rfl <;> simp

/-- The books of genesis are in order. -/
theorem inOrder_seedGenesis (h : config.seedGenesis = some accounts)
    (hv7 : config.economicsV7 = true) : InOrder accounts := by
  have hnone := storedPosition_seedGenesis h hv7
  obtain ⟨global, hbytes, hglobal, hlookup⟩ := lookup_seedGenesis_books h hv7
  have hpool : ∀ k ∈ [stakingReserveId, stakingUnbondingPoolId], IsPool accounts k :=
    fun k hk => ⟨_, hlookup k hk, rfl, rfl⟩
  exact ⟨⟨_, .genesis hnone ⟨_, hglobal, fromSlice_eq_some_iff.2 hbytes⟩ (hpool _ (by simp))
    (hpool _ (by simp))⟩, fun k _ => hnone k⟩

end NodeConfig

/-! ### Runs -/

/-- A transaction all of whose instructions are staking instructions. -/
def StakesOnly : ChainEvent → Prop
  | .transaction tx _ _ => ∀ ix ∈ tx.message.instructions, ix.programId = stakingProgramId
  | .participation .. => True

/-- A transaction whose executions keep the books. -/
def RunsKeepBooks [Crypto] [WasmEngine] (cfg : LedgerConfig) (c : Chain) : ChainEvent → Prop
  | .transaction tx _ round => ∀ e ∈ Ledger.executions cfg tx round c.ledger, KeepsBooks e
  | .participation .. => True

instance : DecidablePred StakesOnly
  | .transaction .. => inferInstanceAs (Decidable (∀ ix ∈ _, _))
  | .participation .. => isTrue trivial

instance [Crypto] [WasmEngine] (cfg : LedgerConfig) (c : Chain) :
    DecidablePred (RunsKeepBooks cfg c)
  | .transaction .. => inferInstanceAs (Decidable (∀ e ∈ _, _))
  | .participation .. => isTrue trivial

namespace Chain

variable [Crypto] [WasmEngine] {cfg : LedgerConfig} {c : Chain}

/-- The steps of a transaction that only stakes keep the books in order. -/
theorem keeps_inOrder {tx : Transaction} {collector : Pubkey} {round dust : U64}
    (hsha : ∀ bytes, ¬IsProtocolId (Crypto.sha3 bytes)) (hv7 : cfg.economicsV7 = true)
    (hverify : tx.verifySignature = true)
    (hstakes : StakesOnly (.transaction tx collector round))
    (hkeeps : RunsKeepBooks cfg c (.transaction tx collector round)) :
    Keeps cfg tx.message.payer collector round dust (· ∈ Ledger.executions cfg tx round c.ledger)
      fun _ v => InOrder v ∧ Unstaked v := by
  have hpayer : ¬IsProtocolId tx.message.payer := by
    rw [payer_of_verifySignature hverify]
    exact hsha _
  have hstats : ∀ {payer}, ¬IsProtocolId payer → stakingStatsId ≠ payer := by
    rintro payer hnot rfl
    exact hnot (isProtocolId_repeatedByte (by decide))
  have hunderived : Underived stakingStatsId := by
    apply Underived.of_forall_ne
    intro bytes heq
    apply hsha bytes
    rw [heq]
    exact isProtocolId_repeatedByte (by decide)
  constructor
  · rintro _ v k account amountIn amountOut ⟨hv, hunstaked⟩ hwrite
    refine ⟨hwrite.inOrder hv7 hpayer hunstaked hv, ?_⟩
    exact hunstaked.of_received (hwrite.received (hstats hpayer) (by decide))
  · rintro _ e store ⟨hv, hunstaked⟩ he hcovers hpayer' _ hruns
    rw [← hpayer'] at hpayer
    refine ⟨?_, hruns.unstaked hv7 hcovers (hstats hpayer) hunderived hunstaked⟩
    have hid : e.ix.programId = stakingProgramId := hstakes _ (Ledger.ix_mem_of_mem_executions he)
    have hnative : nativeProgram cfg.economicsV7 e.ix.programId = some .stakingV7 := by
      rw [hid, hv7]
      decide
    cases hruns with
    | native hprogram hrun =>
      obtain rfl := mem_unique hnative hprogram
      exact StakingV7Program.process_inOrder hv hcovers hpayer (hkeeps e he) _ _ hrun
    | contract hnone =>
      rw [hnative] at hnone
      cases hnone
  · rintro _ v v' ⟨hv, hunstaked⟩ hsweep
    exact ⟨hv.of_sweep hsweep, hunstaked.of_sweep hsweep⟩

/-- Runs in which accounts stake keep the books in order. -/
theorem inOrder_run (hsha : ∀ bytes, ¬IsProtocolId (Crypto.sha3 bytes))
    (hv7 : cfg.economicsV7 = true) {events : List ChainEvent}
    (hstakes : ∀ event ∈ events, StakesOnly event)
    (hrun : Run.Meets (step cfg) (RunsKeepBooks cfg) c events)
    (h : InOrder c.ledger.store) (hunstaked : Unstaked c.ledger.store) :
    InOrder (run cfg c events).ledger.store := by
  have hmeets : Run.Meets (step cfg) (fun c event => StakesOnly event ∧ RunsKeepBooks cfg c event)
      c events :=
    Run.meets_and.2 ⟨Run.meets_of_forall (fun _ event hevent => hstakes event hevent) c, hrun⟩
  have hend : InOrder (run cfg c events).ledger.store ∧
      Unstaked (run cfg c events).ledger.store := by
    refine invariant (I := fun _ v => InOrder v ∧ Unstaked v) hsha ?_ ?_ hmeets ⟨h, hunstaked⟩
    · rintro c tx collector round _ ⟨hstore, hstoreUnstaked⟩
      refine ⟨Ledger.closed_of hstore (Ledger.closeDueQuantos_inOrder hstore), ?_⟩
      exact invariant_closed (I := fun _ v => Unstaked v)
        (fun _ _ _ _ _ _ hv hwrite => hv.of_received (hwrite.received (by decide)))
        hstoreUnstaked
    · rintro c tx collector round hverify ⟨hstakes, hkeeps⟩
      exact keeps_inOrder hsha hv7 hverify hstakes hkeeps
  exact hend.1

/-- Solvency: in every run in which accounts stake, unstake and withdraw and quantos close, and
whose executions keep the books, the reserve covers all positions, the unbonding pool covers what
is being withdrawn, and the totals are the sums over all positions. -/
theorem staking_solvent [GenesisFormat] (hsha : ∀ bytes, ¬IsProtocolId (Crypto.sha3 bytes))
    {config : NodeConfig} {accounts : Accounts} (hseed : config.seedGenesis = some accounts)
    (hcfg : config.ledgerConfig = some cfg) (hv7 : config.economicsV7 = true)
    {events : List ChainEvent} (hstakes : ∀ event ∈ events, StakesOnly event)
    (hrun : Run.Meets (step cfg) (RunsKeepBooks cfg) (ofAccounts accounts) events) :
    ∃ g, storedGlobal (run cfg (ofAccounts accounts) events).ledger.store = some g ∧
      positionTotal (fun p => p.currentValue g)
          (run cfg (ofAccounts accounts) events).ledger.store ≤
        (run cfg (ofAccounts accounts) events).ledger.store.balanceOf stakingReserveId ∧
      positionTotal (fun p => p.unbondingAmount)
          (run cfg (ofAccounts accounts) events).ledger.store ≤
        (run cfg (ofAccounts accounts) events).ledger.store.balanceOf stakingUnbondingPoolId ∧
      g.totalShares = positionTotal (fun p => (p.settle g).activeShares)
        (run cfg (ofAccounts accounts) events).ledger.store ∧
      g.pendingShares = positionTotal (fun p => (p.settle g).pendingShares)
        (run cfg (ofAccounts accounts) events).ledger.store := by
  obtain ⟨admin, _, hsettings⟩ := bind_eq_some_iff.1 hcfg
  have hv7' : cfg.economicsV7 = true := by rw [← Option.some.inj hsettings, hv7]
  have hend := inOrder_run hsha hv7' hstakes hrun (NodeConfig.inOrder_seedGenesis hseed hv7)
    (NodeConfig.seedGenesis_unstaked hseed)
  obtain ⟨g, hsolvent⟩ := hend.solvent
  exact ⟨g, hsolvent.storedGlobal_eq, hsolvent.total_currentValue_le, hsolvent.unbonding,
    hsolvent.earning, hsolvent.joining⟩

end Chain

/-! ### Unstaking a part of a deposit

A network of one wallet whose index grows by a ten-thousandth with every quanto of ten rounds. The
wallet stakes 10001 units, for 10000 shares. It takes one unit back before they earn, for which no
share is removed; after the close of the quanto the shares are worth 10001 units, and the reserve
holds 10000. -/

section Rounding

def stakeAccounts : Accounts :=
  (@NodeConfig.seedGenesis capFormat capCrypto stakeConfig).getD ∅

def stakeSettings : LedgerConfig := ⟨true, 10, false, adminFeeWallet⟩

/-- The wallet stakes one amount and unstakes another, and the quanto closes. -/
def stakeEvents (amount taken : ℕ) : List ChainEvent :=
  [stakeEvent 0 0 [stakeInstruction amount, unstakeInstruction taken], stakeEvent 1 10 []]

/-- The accounts after the close. -/
def stakeStore (amount taken : ℕ) : Accounts :=
  (@Chain.run capCrypto WasmEngine.none stakeSettings (.ofAccounts stakeAccounts)
    (stakeEvents amount taken)).ledger.store

/-- The reserve does not cover the position of the wallet. -/
theorem Chain.staking_insolvent :
    (∀ bytes, ¬IsProtocolId (capCrypto.sha3 bytes)) ∧
      @NodeConfig.seedGenesis capFormat capCrypto stakeConfig = some stakeAccounts ∧
      stakeConfig.ledgerConfig = some stakeSettings ∧ stakeConfig.economicsV7 = true ∧
      (∀ event ∈ stakeEvents 10001 1, StakesOnly event) ∧
      ∃ g, storedGlobal (@Chain.run capCrypto WasmEngine.none stakeSettings
          (.ofAccounts stakeAccounts) (stakeEvents 10001 1)).ledger.store = some g ∧
        (@Chain.run capCrypto WasmEngine.none stakeSettings (.ofAccounts stakeAccounts)
          (stakeEvents 10001 1)).ledger.store.balanceOf stakingReserveId <
        positionTotal (fun p => p.currentValue g)
          (@Chain.run capCrypto WasmEngine.none stakeSettings (.ofAccounts stakeAccounts)
            (stakeEvents 10001 1)).ledger.store := by
  refine ⟨not_isProtocolId_ofHashes (by decide +kernel), by decide +kernel, by decide +kernel, rfl,
    by decide +kernel, ?_⟩
  decide +kernel

/-- Half of a deposit of 20002 units is taken back, and the reserve covers the rest. -/
theorem Chain.staking_solvent_half :
    (∀ event ∈ stakeEvents 20002 10001, StakesOnly event) ∧
      Run.Meets (@Chain.step capCrypto WasmEngine.none stakeSettings)
        (@RunsKeepBooks capCrypto WasmEngine.none stakeSettings) (.ofAccounts stakeAccounts)
        (stakeEvents 20002 10001) ∧
      ∃ g, storedGlobal (stakeStore 20002 10001) = some g ∧
        positionTotal (fun p => p.currentValue g) (stakeStore 20002 10001) ≤
          (stakeStore 20002 10001).balanceOf stakingReserveId := by
  have hstakes : ∀ event ∈ stakeEvents 20002 10001, StakesOnly event := by decide +kernel
  have hrun : Run.Meets (@Chain.step capCrypto WasmEngine.none stakeSettings)
      (@RunsKeepBooks capCrypto WasmEngine.none stakeSettings) (.ofAccounts stakeAccounts)
      (stakeEvents 20002 10001) := by decide +kernel
  obtain ⟨g, hglobal, hcovered, _⟩ := @Chain.staking_solvent capCrypto WasmEngine.none stakeSettings
    capFormat (not_isProtocolId_ofHashes (by decide +kernel)) stakeConfig
    stakeAccounts (by decide +kernel)
    (by decide +kernel) rfl _ hstakes hrun
  exact ⟨hstakes, hrun, g, hglobal, hcovered⟩

end Rounding

end QChain
