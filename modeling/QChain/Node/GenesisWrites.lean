import QChain.Execution.Effects
import QChain.Node.Genesis

/-!
# What genesis writes

Genesis pays the allocations and then writes accounts one after the other: those of every network,
those of the v7 economy and the manifest of the schema. The list of them says what an address holds
in the beginning, and what every write keeps holds of the accounts a network starts from.
-/

namespace QChain

open Account Borsh List Option

/-- A write of genesis to the accounts seeded so far. -/
inductive GenesisWrite (v : Accounts) : Pubkey → Account → Prop
  | allocation {k : Pubkey} {balance : U64} {amount : ℕ}
      (hbalance : (balance : ℕ) = v.balanceOf k + amount) :
      GenesisWrite v k { v.getOrNew k systemProgramId with balance := balance }
  | singleton {k : Pubkey} {account : Account} (hk : IsProtocolId k)
      (howner : account.owner ∈ [stakingProgramId, governanceProgramId, treasuryV7ProgramId])
      (hnonce : account.nonce = 0) : GenesisWrite v k account
  | adminFeeWallet : GenesisWrite v QChain.adminFeeWallet (newWallet systemProgramId)

/-- What every write of genesis keeps. -/
def GenesisKeeps (P : Accounts → Prop) : Prop :=
  ∀ v k account, P v → GenesisWrite v k account → P (v.insert k account)

namespace NodeConfig

/-- Accounts are written one after the other. -/
def writeAll (writes : List (Pubkey × Account)) (accounts : Accounts) : Accounts :=
  writes.foldl (fun accounts write => accounts.insert write.1 write.2) accounts

/-- The addresses that every network writes. -/
def commonKeys : List Pubkey :=
  [chainIdAccountId, stakingStatsId, registryAccountId, paramsAccountId, emergencyAccountId,
    stakingRewardsPoolId, validatorRegistryAccountId]

/-- The addresses that a network of the v7 economy writes, the emission reserve only under the hard
cap and the treasury only if it has one. -/
def v7Keys : List Pubkey :=
  [stakingGlobalId, stakingReserveId, validatorFeePoolId, stakingUnbondingPoolId,
    validatorUnbondingPoolId] ++ [emissionReserveId] ++
  [QChain.adminFeeWallet, validatorRegistryAccountId, validatorBondEscrowId] ++ [treasuryAccountId]

variable [GenesisFormat] [Crypto]

/-- The accounts of every network. -/
inductive CommonWrites (config : NodeConfig) : List (Pubkey × Account) → Prop
  | mk {stats registry params emergency pool : List UInt8} {guardians : List Pubkey}
      (hstats : toVec (0 : U64) = some stats) (hregistry : toVec genesisRegistry = some registry)
      (hparams : toVec EconomicParams.default = some params)
      (hemergency : toVec (genesisEmergency guardians config.governanceGuardianThreshold) =
        some emergency)
      (hpool : toVec (RewardPoolData.mk 0) = some pool) (validators : List UInt8) :
      CommonWrites config
        [(chainIdAccountId, withData stakingProgramId config.chainId.toBytes),
          (stakingStatsId, withData stakingProgramId stats),
          (registryAccountId, withData governanceProgramId registry),
          (paramsAccountId, withData governanceProgramId params),
          (emergencyAccountId, withData governanceProgramId emergency),
          (stakingRewardsPoolId, withData stakingProgramId pool),
          (validatorRegistryAccountId, withData stakingProgramId validators)]

/-- The accounts of the v7 economy. -/
inductive V7Writes (config : NodeConfig) : List (Pubkey × Account) → Prop
  | mk {global registry : List UInt8} {entries : List ValidatorV7Entry} {treasury : Option Account}
      (hglobal : toVec (GlobalStakingState.genesisWithRate config.quantoRateFpOr) = some global)
      (hentries : founders 0 [] config.validators = some entries)
      (hregistry : toVec (ValidatorV7Registry.mk entries) = some registry)
      (htreasury : config.treasuryAccount = some treasury) :
      V7Writes config
        ([(stakingGlobalId, withData stakingProgramId global),
          (stakingReserveId, newWallet stakingProgramId),
          (validatorFeePoolId, newWallet stakingProgramId),
          (stakingUnbondingPoolId, newWallet stakingProgramId),
          (validatorUnbondingPoolId, newWallet stakingProgramId)] ++
        (if config.hardCapSupply then
          [(emissionReserveId, { newWallet stakingProgramId with
            balance := config.emissionReserveAtoms })] else []) ++
        [(QChain.adminFeeWallet, newWallet systemProgramId),
          (validatorRegistryAccountId, withData stakingProgramId registry),
          (validatorBondEscrowId, { newWallet stakingProgramId with
            balance := Word.clamp (validatorBondAtoms * entries.length) })] ++
        treasury.toList.map (treasuryAccountId, ·))

/-- What a network starts from: the allocations, and what is written after them. -/
structure Seeds (config : NodeConfig) (accounts allocated : Accounts)
    (common v7 manifest : List (Pubkey × Account)) : Prop where
  allocs : config.genesis.foldlM allocate ∅ = some allocated
  commonWrites : CommonWrites config common
  v7Writes : if config.economicsV7 then V7Writes config v7 else v7 = []
  manifestWrites : manifest = [] ∨ ∃ bytes, toVec canonicalManifest = some bytes ∧
    manifest = [(schemaManifestId, withData stakingProgramId bytes)]
  accounts_eq : accounts = writeAll manifest (writeAll v7 (writeAll common allocated))

variable {P : Accounts → Prop} {config : NodeConfig} {accounts accounts' allocated : Accounts}
  {common v7 manifest writes : List (Pubkey × Account)} {k : Pubkey} {account : Account}

/-! ### The list of writes -/

theorem exists_seeds (h : config.seedGenesis = some accounts) :
    ∃ allocated common v7 manifest, Seeds config accounts allocated common v7 manifest := by
  have hmanifest : ∀ before : Accounts, ((if config.explicitSchemaVersions = true then
      (toVec canonicalManifest).bind fun bytes =>
        pure (before.insert schemaManifestId (withData stakingProgramId bytes))
      else pure before) : Option Accounts) = some accounts → ∃ manifest,
        (manifest = [] ∨ ∃ bytes, toVec canonicalManifest = some bytes ∧
          manifest = [(schemaManifestId, withData stakingProgramId bytes)]) ∧
        accounts = writeAll manifest before := by
    intro before heq
    split_ifs at heq
    · obtain ⟨bytes, hbytes, heq⟩ := bind_eq_some_iff.1 heq
      exact ⟨_, .inr ⟨bytes, hbytes, rfl⟩, (Option.some.inj heq).symm⟩
    · exact ⟨[], .inl rfl, (Option.some.inj heq).symm⟩
  simp only [seedGenesis, seedCommon, bind_eq_bind, bind_eq_some_iff] at h
  obtain ⟨allocated, hallocs, _, ⟨_, hstats, _, hregistry, _, hparams, _, _, _, hemergency, _,
    hpool, validators, _, hcommon⟩, h⟩ := h
  obtain rfl := Option.some.inj hcommon
  replace hcommon : CommonWrites config _ :=
    .mk hstats hregistry hparams hemergency hpool validators
  by_cases hv7 : config.economicsV7 = true
  · rw [if_pos hv7] at h
    simp only [seedV7, bind_eq_bind, bind_eq_some_iff] at h
    obtain ⟨_, ⟨_, hglobal, _, hentries, _, hregistry, treasury, htreasury, hseeded⟩, h⟩ := h
    obtain ⟨manifest, hmanifest, haccounts⟩ := hmanifest _ h
    have hv7Writes := V7Writes.mk hglobal hentries hregistry htreasury
    refine ⟨_, _, _, _, hallocs, hcommon, (if_pos hv7).mpr hv7Writes, hmanifest, ?_⟩
    rw [haccounts]
    cases treasury <;> obtain rfl := Option.some.inj hseeded <;> split_ifs <;> rfl
  · rw [if_neg hv7] at h
    obtain ⟨manifest, hmanifest, haccounts⟩ := hmanifest _ h
    exact ⟨_, _, [], _, hallocs, hcommon, (if_neg hv7).mpr rfl, hmanifest, haccounts⟩

theorem CommonWrites.keys (h : CommonWrites config common) : common.map Prod.fst = commonKeys := by
  cases h
  rfl

theorem V7Writes.keys (h : V7Writes config v7) : (v7.map Prod.fst).Sublist v7Keys := by
  cases h with
  | @mk _ _ _ treasury =>
    simp only [map_append]
    refine .append (.append (.append (.refl _) ?_) (.refl _)) ?_
    · split_ifs
      · exact .refl _
      · exact nil_sublist _
    · cases treasury with
      | none => exact nil_sublist _
      | some _ => exact .refl _

omit [GenesisFormat] [Crypto] in
theorem lookup_writeAll_of_notMem (h : k ∉ writes.map Prod.fst) :
    (writeAll writes accounts).lookup k = accounts.lookup k :=
  Finmap.lookup_foldl_insert_of_notMem h accounts

omit [GenesisFormat] [Crypto] in
theorem lookup_writeAll_of_mem (hnodup : (writes.map Prod.fst).Nodup) (h : (k, account) ∈ writes) :
    (writeAll writes accounts).lookup k = some account :=
  Finmap.lookup_foldl_insert_of_mem hnodup h accounts

namespace Seeds

variable (h : Seeds config accounts allocated common v7 manifest)

include h

theorem lookup_of_notMem_manifest (hk : k ≠ schemaManifestId) :
    accounts.lookup k = (writeAll v7 (writeAll common allocated)).lookup k := by
  rw [h.accounts_eq]
  apply lookup_writeAll_of_notMem
  rcases h.manifestWrites with rfl | ⟨bytes, _, rfl⟩
  · exact not_mem_nil
  · simpa using hk

theorem lookup_of_mem_v7 (hv7 : config.economicsV7 = true) (hk : (k, account) ∈ v7) :
    accounts.lookup k = some account := by
  have hwrites := (if_pos hv7).mp h.v7Writes
  have hkeys : v7Keys.Nodup ∧ ∀ k ∈ v7Keys, k ≠ schemaManifestId := by decide +kernel
  rw [h.lookup_of_notMem_manifest
    (hkeys.2 k (hwrites.keys.subset (List.mem_map_of_mem (f := Prod.fst) hk)))]
  exact lookup_writeAll_of_mem (hwrites.keys.nodup hkeys.1) hk

theorem notMem_v7 (hk : k ∉ v7Keys) : k ∉ v7.map Prod.fst := by
  have hwrites := h.v7Writes
  split_ifs at hwrites
  · exact fun hmem => hk (hwrites.keys.subset hmem)
  · rw [hwrites]
    exact not_mem_nil

theorem lookup_of_mem_common (hk : k ∉ v7.map Prod.fst) (hmem : (k, account) ∈ common) :
    accounts.lookup k = some account := by
  have hkeys : commonKeys.Nodup ∧ ∀ k ∈ commonKeys, k ≠ schemaManifestId := by decide +kernel
  rw [← h.commonWrites.keys] at hkeys
  rw [h.lookup_of_notMem_manifest (hkeys.2 k (List.mem_map_of_mem (f := Prod.fst) hmem)),
    lookup_writeAll_of_notMem hk]
  exact lookup_writeAll_of_mem hkeys.1 hmem

theorem lookup_of_notMem (hk : k ∉ v7.map Prod.fst) (hmem : k ∉ commonKeys)
    (hmanifest : k ≠ schemaManifestId) : accounts.lookup k = allocated.lookup k := by
  rw [← h.commonWrites.keys] at hmem
  rw [h.lookup_of_notMem_manifest hmanifest, lookup_writeAll_of_notMem hk,
    lookup_writeAll_of_notMem hmem]

end Seeds

/-! ### What the writes keep -/

omit [GenesisFormat] [Crypto] in
/-- What every payment of an allocation keeps. -/
theorem allocations_induction {allocs : List GenesisAllocation} (h : P accounts)
    (hkeeps : ∀ v k (balance : U64) (amount : ℕ), P v → (balance : ℕ) = v.balanceOf k + amount →
      P (v.insert k { v.getOrNew k systemProgramId with balance := balance }))
    (hallocs : allocs.foldlM allocate accounts = some accounts') : P accounts' := by
  induction allocs generalizing accounts with
  | nil =>
    obtain rfl := Option.some.inj hallocs
    exact h
  | cons alloc rest ih =>
    rw [foldlM_cons, bind_eq_bind, bind_eq_some_iff] at hallocs
    obtain ⟨next, halloc, hrest⟩ := hallocs
    simp only [allocate, bind_eq_bind, bind_eq_some_iff, Word.checked_eq_some,
      Accounts.balance_getOrNew] at halloc
    obtain ⟨balance, hbalance, halloc⟩ := halloc
    obtain rfl := Option.some.inj halloc
    exact ih (hkeeps _ _ _ _ h hbalance) hrest

omit [GenesisFormat] [Crypto] in
theorem writeAll_keeps (hkeeps : GenesisKeeps P) (h : P accounts)
    (hwrites : ∀ write ∈ writes, ∀ v, GenesisWrite v write.1 write.2) :
    P (writeAll writes accounts) :=
  List.foldlRecOn writes _ h fun v hv write hwrite => hkeeps v _ _ hv (hwrites write hwrite v)

omit [GenesisFormat] [Crypto] in
/-- The treasury is an account of its program, and starts without pending operations. -/
theorem exists_treasuryState {treasury : Account}
    (h : config.treasuryAccount = some (some treasury)) : ∃ state amount,
      genesisTreasuryAccountMultisig state amount = some treasury ∧ state.pending = [] := by
  simp only [treasuryAccount, bind_eq_bind, bind_eq_some_iff] at h
  obtain ⟨state, hstate, h⟩ := h
  split at h
  · obtain ⟨_, haccount, h⟩ := bind_eq_some_iff.1 h
    obtain rfl := Option.some.inj (Option.some.inj h)
    refine ⟨_, _, haccount, ?_⟩
    unfold treasuryMultisigState at hstate
    split_ifs at hstate
    · cases Option.some.inj hstate
    · obtain ⟨signers, _, hstate⟩ := bind_eq_some_iff.1 hstate
      dsimp only at hstate
      split at hstate
      · obtain rfl := Option.some.inj (Option.some.inj hstate)
        rfl
      · cases hstate
  · obtain ⟨_, _, h⟩ := bind_eq_some_iff.1 h
    obtain ⟨_, haccount, h⟩ := bind_eq_some_iff.1 h
    obtain rfl := Option.some.inj (Option.some.inj h)
    exact ⟨_, _, haccount, rfl⟩
  · cases Option.some.inj h

theorem CommonWrites.genesisWrite (h : CommonWrites config common) :
    ∀ write ∈ common, ∀ v, GenesisWrite v write.1 write.2 := by
  have hkeys : ∀ k ∈ commonKeys, IsProtocolId k := by decide +kernel
  rw [← h.keys] at hkeys
  have hwallets : ∀ write ∈ common, write.2.owner ∈ [stakingProgramId, governanceProgramId,
      treasuryV7ProgramId] ∧ write.2.nonce = 0 := by
    cases h
    simp [withData, newWallet]
  intro write hwrite v
  obtain ⟨howner, hnonce⟩ := hwallets write hwrite
  exact .singleton (hkeys _ (List.mem_map_of_mem hwrite)) howner hnonce

theorem V7Writes.genesisWrite (h : V7Writes config v7) :
    ∀ write ∈ v7, ∀ v, GenesisWrite v write.1 write.2 := by
  have hstaking : ∀ {v : Accounts} {n : ℕ} {balance : U64} {data : List UInt8}, n < 27 →
      GenesisWrite v (repeatedByte n)
        { newWallet stakingProgramId with balance := balance, data := data } :=
    fun hn => .singleton (isProtocolId_repeatedByte hn) (mem_cons_self ..) rfl
  cases h with
  | mk _ _ _ htreasury =>
    simp only [mem_append, mem_cons, not_mem_nil, or_false, List.mem_map,
      mem_toList]
    rintro write ((((rfl | rfl | rfl | rfl | rfl) | hwrite) | rfl | rfl | rfl) |
      ⟨treasury, rfl, rfl⟩) v
    · exact hstaking (n := 15) (by decide)
    · exact hstaking (n := 11) (by decide)
    · exact hstaking (n := 12) (by decide)
    · exact hstaking (n := 13) (by decide)
    · exact hstaking (n := 14) (by decide)
    · split_ifs at hwrite
      · obtain rfl := mem_singleton.1 hwrite
        exact hstaking (n := 20) (by decide)
      · cases hwrite
    · exact .adminFeeWallet
    · exact hstaking (n := 9) (by decide)
    · exact hstaking (n := 10) (by decide)
    · obtain ⟨_, _, hstate, _⟩ := exists_treasuryState htreasury
      obtain ⟨_, _, rfl⟩ := map_eq_some_iff.1 hstate
      exact .singleton (isProtocolId_repeatedByte (by decide)) (by simp [newWallet]) rfl

/-- What holds of no accounts and is kept by every write of genesis holds of the accounts a
network starts from. -/
theorem seedGenesis_induction (hkeeps : GenesisKeeps P) (hempty : P ∅)
    (hseed : config.seedGenesis = some accounts) : P accounts := by
  obtain ⟨allocated, common, v7, manifest, h⟩ := exists_seeds hseed
  rw [h.accounts_eq]
  refine writeAll_keeps hkeeps (writeAll_keeps hkeeps (writeAll_keeps hkeeps ?_
    h.commonWrites.genesisWrite) ?_) ?_
  · refine allocations_induction hempty (fun v k balance amount hv hbalance => ?_) h.allocs
    exact hkeeps _ _ _ hv (.allocation hbalance)
  · have hwrites := h.v7Writes
    split_ifs at hwrites
    · exact hwrites.genesisWrite
    · rw [hwrites]
      nofun
  · rcases h.manifestWrites with rfl | ⟨bytes, _, rfl⟩
    · nofun
    · intro write hwrite v
      obtain rfl := mem_singleton.1 hwrite
      exact .singleton (isProtocolId_repeatedByte (by decide)) (mem_cons_self ..) rfl

end NodeConfig

end QChain
