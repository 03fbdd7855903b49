import QChain.Execution.HardCap
import QChain.Execution.ValidatorSteps
import QChain.System.History

/-!
# Histories of the validators

A network on which only validator instructions run, as a history of the books of its validators:
every execution enters what its instruction says, the close of a quanto enters what it does
silently, and everything else the ledger writes leaves the books alone. What the steps of the books
keep therefore holds after every run from genesis.
-/

namespace QChain

open Accounts Borsh Exec List Option Transact

/-- A transaction all of whose instructions are validator instructions. -/
def ValidatorsOnly : ChainEvent → Prop
  | .transaction tx _ _ => ∀ ix ∈ tx.message.instructions, ix.programId = validatorV7ProgramId
  | .participation .. => True

instance : DecidablePred ValidatorsOnly
  | .transaction .. => inferInstanceAs (Decidable (∀ ix ∈ _, _))
  | .participation .. => isTrue trivial

/-! ### What the ledger writes -/

/-- The accounts whose data the ledger itself writes. -/
def ledgerDataKeys : List Pubkey := [feeStateAccountId, paramsAccountId, stakingRewardsPoolId]

/-- The ledger writes no data but its own. -/
theorem LedgerWrite.dataAt_eq {cfg : LedgerConfig} {payer collector k k' : Pubkey} {v : Accounts}
    {account : Account} {amountIn amountOut : ℕ}
    (h : LedgerWrite cfg payer collector v k account amountIn amountOut)
    (hk' : k' ∉ ledgerDataKeys) : dataAt (v.insert k account) k' = v.dataAt k' := by
  have hwritten : ∀ k ∈ ledgerDataKeys, ∀ account,
      dataAt (v.insert k account) k' = v.dataAt k' := by
    intro k hk account
    apply dataAt_insert_of_ne
    rintro rfl
    exact hk' hk
  cases h with
  | fee | reserve => exact dataAt_insert_of_eq data_getOrNew
  | charge hlookup => exact dataAt_insert_of_eq (dataAt_of_lookup hlookup).symm
  | feeState hk =>
    refine hwritten _ ?_ _
    rcases hk with rfl | rfl
    · exact mem_cons_self ..
    · exact mem_cons_of_mem _ (mem_cons_self ..)
  | rewardPool => exact hwritten _ (by simp [ledgerDataKeys]) _

/-- Sweeping dust changes no data. -/
theorem dataAt_of_sweep {v v' : Accounts} {dust : U64} {k : Pubkey}
    (h : Swept dust v v' k) : v'.dataAt k = v.dataAt k := by
  rcases h with hsame | ⟨account, hlookup, _, _, hlookup'⟩
  · exact dataAt_congr hsame
  · rw [dataAt_of_lookup hlookup, dataAt_of_lookup hlookup']

namespace Recorded

variable {b : ValidatorBooks} {v v' : Accounts} {cfg : LedgerConfig} {payer collector k : Pubkey}
  {account : Account} {amountIn amountOut : ℕ}

theorem not_mem_bondPools (hk : ¬IsProtocolId k) : k ∉ bondPools := by
  have hpools : ∀ k ∈ bondPools, IsProtocolId k := by decide
  exact fun hmem => hk (hpools k hmem)

/-- The ledger moves fees and keeps accounts of its own. -/
theorem ledgerWrite (h : Recorded b v) (hpayer : ¬IsProtocolId payer)
    (hwrite : LedgerWrite cfg payer collector v k account amountIn amountOut) :
    Recorded b (v.insert k account) := by
  have hstate : ∀ k ∈ ledgerDataKeys, k ∉ bookKeys ∧ k ∉ bondPools := by decide
  refine h.congr (fun k' hk' => hwrite.dataAt_eq fun hmem => (hstate k' hmem).1 hk')
    fun k' hk' => hwrite.received ?_ fun hmem => (hstate k' hmem).2 hk'
  rintro rfl
  exact not_mem_bondPools hpayer hk'

/-- Wallets that are swept hold no bonds. -/
theorem sweep {dust : U64} (h : Recorded b v) (hsweep : ∀ k, Swept dust v v' k) :
    Recorded b v' := by
  have hpool : ∀ {k amount}, Reserves v k amount → Received k v v' := by
    rintro k amount ⟨account, hlookup, howner, _⟩
    exact .of_eq (((hsweep k).lookup_eq hlookup howner).trans hlookup.symm)
  refine h.congr (fun k _ => dataAt_of_sweep (hsweep k)) ?_
  simp only [bondPools, forall_mem_cons]
  exact ⟨hpool h.escrow, hpool h.pool, fun _ hk => by cases hk⟩

variable [Crypto]

/-- The close of a quanto makes silent steps of the books. -/
theorem closingWrite (h : Recorded b v)
    (hwrite : ClosingWrite v k account amountIn amountOut) :
    ∃ b', (b' = b ∨ b.Step none b') ∧ Recorded b' (v.insert k account) := by
  have hother : ∀ k ∈ [stakingReserveId, emissionReserveId, validatorFeePoolId],
      k ∉ bookKeys ∧ k ∉ bondPools := by decide
  have hreserve : ∀ k ∈ [stakingReserveId, emissionReserveId, validatorFeePoolId], ∀ account,
      Recorded b (v.insert k account) := by
    intro k hk account
    refine h.congr (fun k' hk' => ?_) fun k' hk' => ?_
    · apply dataAt_insert_of_ne
      rintro rfl
      exact (hother _ hk).1 hk'
    · apply Received.insert_of_ne
      rintro rfl
      exact (hother _ hk).2 hk'
  cases hwrite with
  | emit => exact ⟨b, .inl rfl, hreserve _ (by simp) _⟩
  | spend hk =>
    refine ⟨b, .inl rfl, hreserve _ ?_ _⟩
    rcases hk with rfl | rfl <;> simp
  | reward _ hbalance =>
    exact ⟨b, .inl rfl, h.insert_balance fun _ => hbalance ▸ Nat.le_add_right _ _⟩
  | @registry before after account bytes hlookup hbefore hupkeep hbytes =>
    have hstored : storedRegistryV7 v = some before := by
      rw [storedRegistryV7, hlookup]
      exact hbefore
    obtain rfl := mem_unique h.storedRegistryV7_eq hstored
    refine ⟨_, .inr (.upkeep hupkeep), ?_⟩
    have hwritten : Recorded { b with registry := after } (v.insert validatorRegistryAccountId
        { v.getOrNew validatorRegistryAccountId stakingProgramId with data := bytes }) :=
      h.writeRegistry hbytes
    rw [getOrNew_of_lookup hlookup] at hwritten
    exact hwritten
  | global hg hquanto hbytes =>
    obtain rfl := mem_unique h.storedGlobal_eq hg
    exact ⟨_, .inr (.close hquanto), h.writeGlobal hbytes⟩

end Recorded

/-! ### Histories -/

/-- The instruction by which an execution names the validator in a slot of the registry. -/
def Execution.onSlot [Crypto] (e : Execution) (slot : ℕ) :
    Option ValidatorV7Instruction :=
  (ValidatorV7Instruction.decode.all e.ix.data).filter fun instr => decide <|
    ((storedRegistryV7 e.before).bind fun reg => instr.target.bind reg.find) = some slot

namespace ValidatorBooks

variable [Crypto]

/-- An execution of a validator instruction and the step of the books it makes. -/
structure Act (e : Execution) (b b' : ValidatorBooks) (instr : ValidatorV7Instruction) :
    Prop where
  decode : ValidatorV7Instruction.decode.all e.ix.data = some instr
  step : b.Step (some instr) b'
  run : (ValidatorV7Program.process e.ix e.payer).run e.before = .ok ((), e.after)
  held : ∃ store, Held e.ix.accounts store b e.before ∧ Held e.ix.accounts store b' e.after
  registry : validatorRegistryAccountId ∈ e.ix.accounts
  quanto : instr.readsQuanto = true → stakingGlobalId ∈ e.ix.accounts
  payer : ¬IsProtocolId e.payer

/-- The histories of the books of validators. -/
def Runs (b : ValidatorBooks) (log : List Execution) (b' : ValidatorBooks) : Prop :=
  History (fun b b' => b.Step none b') (fun e b b' => ∃ instr, Act e b b' instr) b log b'

section

variable {b b' : ValidatorBooks} {e : Execution} {instr : ValidatorV7Instruction} {slot : ℕ}
  {log : List Execution}

/-- A history is cut at one of its executions. -/
theorem Runs.act_at {i : ℕ} (h : b.Runs log b') (he : log[i]? = some e) :
    ∃ b₁ b₂ instr, b.Runs (log.take i) b₁ ∧ b₁.Act e b₂ instr ∧
      b₂.Runs (log.drop (i + 1)) b' := by
  obtain ⟨b₁, b₂, hbefore, ⟨instr, hact⟩, hafter⟩ := h.split_at he
  exact ⟨b₁, b₂, instr, hbefore, hact, hafter⟩

/-- The registry that an execution reads and writes. -/
theorem Act.storedRegistryV7_eq (h : b.Act e b' instr) :
    storedRegistryV7 e.before = some b.registry ∧ storedRegistryV7 e.after = some b'.registry := by
  obtain ⟨store, hbefore, hafter⟩ := h.held
  exact ⟨hbefore.storedRegistryV7_eq h.registry, hafter.storedRegistryV7_eq h.registry⟩

/-- The validator an execution names, in the books. -/
theorem Act.mem_onSlot (h : b.Act e b' instr) {instr' : ValidatorV7Instruction} :
    instr' ∈ e.onSlot slot ↔ instr' = instr ∧ instr.target.bind b.registry.find = some slot := by
  rw [Execution.onSlot, h.decode, h.storedRegistryV7_eq.1, mem_def,
    filter_eq_some_iff, decide_eq_true_iff, some_inj]
  constructor
  · rintro ⟨rfl, hfind⟩
    exact ⟨rfl, hfind⟩
  · rintro ⟨rfl, hfind⟩
    exact ⟨rfl, hfind⟩

/-- What an execution makes of the entry in a slot; it names the validator there if it edits it,
unless it is a report. -/
theorem Act.turn (h : b.Act e b' instr) {v : ValidatorV7Entry}
    (hv : b.registry.validators[slot]? = some v) :
    ∃ v', b'.registry.validators[slot]? = some v' ∧
      (v' = v ∨ UpkeepEntry v v' ∨
        b.Edit v instr v' ∧ (instr.isReport = false → instr ∈ e.onSlot slot)) := by
  obtain ⟨v', hv', hturn⟩ := h.step.turn hv
  refine ⟨v', hv', ?_⟩
  cases hturn with
  | same => exact .inl rfl
  | upkeep hupkeep => exact .inr (.inl hupkeep)
  | edit hlabel hedit hfind =>
    obtain rfl := Option.some.inj hlabel
    refine .inr (.inr ⟨hedit, fun hreport => h.mem_onSlot.2 ⟨rfl, ?_⟩⟩)
    rw [hedit.target hreport]
    exact hfind hreport

end

end ValidatorBooks

namespace Chain

variable [Crypto] [WasmEngine] {cfg : LedgerConfig} {c : Chain} {b₀ : ValidatorBooks}

omit [WasmEngine] in
theorem process_of_validatorV7 {e : Execution} (hruns : Runs cfg e)
    (hv7 : cfg.economicsV7 = true) (hix : e.ix.programId = validatorV7ProgramId) :
    (ValidatorV7Program.process e.ix e.payer).run e.before = .ok ((), e.after) := by
  have hnative : nativeProgram cfg.economicsV7 e.ix.programId = some .validatorV7 := by
    rw [hv7, hix]
    decide +kernel
  cases hruns with
  | native hprogram hrun =>
    obtain rfl := mem_unique hnative hprogram
    exact hrun
  | contract hnone => exact absurd (hnone.symm.trans hnative) (by simp)

omit [WasmEngine] in
/-- An execution of a validator instruction is a step of the books. -/
theorem act_of_runs {e : Execution} {b : ValidatorBooks} {store : Accounts}
    (hrun : (ValidatorV7Program.process e.ix e.payer).run e.before = .ok ((), e.after))
    (hpayer : ¬IsProtocolId e.payer) (hcovers : Covers e.before store (e.payer :: e.ix.accounts))
    (h : Recorded b (e.before ∪ store)) :
    ∃ instr b', b.Act e b' instr ∧ Recorded b' (e.after ∪ store) := by
  have hheld : Held e.ix.accounts store b e.before :=
    ⟨_, ⟨rfl, fun k hk => hcovers k (mem_cons_of_mem _ hk)⟩, h⟩
  obtain ⟨instr, hdecode, hregistry, hquanto, b', hstep, hheld'⟩ :=
    ValidatorV7Program.process_steps hheld (Recorded.not_mem_bondPools hpayer) _ _ hrun
  obtain ⟨v, hshows, hrecorded⟩ := id hheld'
  refine ⟨instr, b', ⟨hdecode, hstep, hrun, ⟨store, hheld, hheld'⟩, hregistry, hquanto,
    hpayer⟩, ?_⟩
  rw [hshows.view]
  exact hrecorded

/-- A run of validator instructions is a history of the books. -/
theorem run_books (hsha : ∀ bytes, ¬IsProtocolId (Crypto.sha3 bytes))
    (hv7 : cfg.economicsV7 = true) {events : List ChainEvent}
    (hevents : ∀ event ∈ events, ValidatorsOnly event) (h : Recorded b₀ c.ledger.store) :
    ∃ log b, (run cfg c events).log = c.log ++ log ∧ b₀.Runs log b ∧
      Recorded b (run cfg c events).ledger.store := by
  have hmeets : Run.Meets (step cfg) (fun _ event => ValidatorsOnly event) c events :=
    Run.meets_of_forall (fun _ event hevent => hevents event hevent) c
  refine invariant (I := fun whole v => ∃ log b, whole = c.log ++ log ∧ b₀.Runs log b ∧
    Recorded b v) hsha ?_ ?_ hmeets ?_
  · intro c' tx collector round _ hc
    refine invariant_closed (I := fun whole v => ∃ log b, whole = c.log ++ log ∧ b₀.Runs log b ∧
      Recorded b v) ?_ hc
    rintro _ v k account amountIn amountOut ⟨log, b, rfl, hruns, hb⟩ hwrite
    obtain ⟨b', rfl | hstep, hb'⟩ := hb.closingWrite hwrite
    · exact ⟨log, b', rfl, hruns, hb'⟩
    · exact ⟨log, b', rfl, hruns.silent hstep, hb'⟩
  · intro c' tx collector round hverify honly
    have hpayer : ¬IsProtocolId tx.message.payer := by
      rw [payer_of_verifySignature hverify]
      exact hsha _
    constructor
    · rintro _ v k account amountIn amountOut ⟨log, b, rfl, hruns, hb⟩ hwrite
      exact ⟨log, b, rfl, hruns, hb.ledgerWrite hpayer hwrite⟩
    · rintro _ e store ⟨log, b, rfl, hruns, hb⟩ he hcovers hpayer' _ hruns'
      have hrun := process_of_validatorV7 hruns' hv7 (honly _ (Ledger.ix_mem_of_mem_executions he))
      rw [← hpayer'] at hpayer
      obtain ⟨instr, b', hact, hb'⟩ := act_of_runs hrun hpayer hcovers hb
      refine ⟨log ++ [e], b', ?_, hruns.entry ⟨instr, hact⟩, hb'⟩
      rw [append_assoc]
    · rintro _ v v' ⟨log, b, rfl, hruns, hb⟩ hsweep
      exact ⟨log, b, rfl, hruns, hb.sweep hsweep⟩
  · exact ⟨[], b₀, (append_nil _).symm, .refl, h⟩

end Chain

/-! ### Genesis -/

/-- The books a network starts with: its founders, whose bonds are in the escrow. -/
def ValidatorBooks.genesis [Crypto] [GenesisFormat] (config : NodeConfig)
    (founders : List ValidatorV7Entry) : ValidatorBooks where
  chainId := config.chainId
  global := .genesisWithRate config.quantoRateFpOr
  registry := ⟨founders⟩
  recovery := default
  timelock := default
  rotation := default
  log := default
  escrow := (Word.clamp (validatorBondAtoms * founders.length) : U64)
  pool := 0

namespace NodeConfig

variable {config : NodeConfig} {accounts accounts' : Accounts} {k : Pubkey}

/-- The registries that are created when they are first written. -/
def lazyKeys : List Pubkey :=
  [validatorRecoveryRegistryId, validatorKeyTimelockRegistryId,
    validatorConsensusRotationRegistryId, validatorKmAuditLogId]

variable [Crypto] [GenesisFormat]

/-- The books of genesis. -/
theorem recorded_seedGenesis (h : config.seedGenesis = some accounts)
    (hv7 : config.economicsV7 = true) : ∃ entries, founders 0 [] config.validators = some entries ∧
      Recorded (.genesis config entries) accounts := by
  have hlazyKeys : ∀ k ∈ lazyKeys, k ∉ v7Keys ∧ k ∉ commonKeys ∧ k ≠ schemaManifestId := by
    decide
  obtain ⟨allocated, common, v7, manifest, h⟩ := exists_seeds h
  have hlazy : ∀ k ∈ lazyKeys, ∀ {α : Type} [Inhabited α] [Borsh α],
      (lazyData (accounts.dataAt k) : Option α) = some default := by
    intro k hk α _ _
    obtain ⟨hkey, hcommon, hmanifest⟩ := hlazyKeys k hk
    rw [dataAt_congr (h.lookup_of_notMem (h.notMem_v7 hkey) hcommon hmanifest)]
    -- allocations go to wallets without data
    have hallocated : ∀ k, allocated.dataAt k = [] := by
      refine allocations_induction (P := fun v => ∀ k, v.dataAt k = []) (fun _ => rfl) ?_ h.allocs
      intro v k balance amount hv _ k'
      rw [← hv k']
      exact dataAt_insert_of_eq data_getOrNew
    rw [hallocated k]
    rfl
  simp only [lazyKeys, forall_mem_cons] at hlazy
  obtain ⟨hrecovery, htimelock, hrotation, hlog, _⟩ := hlazy
  have hchainKey := h.notMem_v7 (k := chainIdAccountId) (by decide)
  have hchain : accounts.lookup chainIdAccountId =
      some (withData stakingProgramId config.chainId.toBytes) := by
    obtain ⟨_, _, _, _, _, _⟩ := h.commonWrites
    exact h.lookup_of_mem_common hchainKey (mem_cons_self ..)
  have hwrites := (if_pos hv7).mp h.v7Writes
  obtain @⟨global, registry, entries, treasury, hglobal, hentries, hregistry, _⟩ := hwrites
  have hglobalAt : accounts.lookup stakingGlobalId = some (withData stakingProgramId global) :=
    h.lookup_of_mem_v7 hv7 (by simp)
  have hregistryAt : accounts.lookup validatorRegistryAccountId =
      some (withData stakingProgramId registry) := h.lookup_of_mem_v7 hv7 (by simp)
  have hescrowAt : accounts.lookup validatorBondEscrowId = some
      { Account.newWallet stakingProgramId with
        balance := Word.clamp (validatorBondAtoms * entries.length) } :=
    h.lookup_of_mem_v7 hv7 (by simp)
  have hpoolAt : accounts.lookup validatorUnbondingPoolId =
      some (Account.newWallet stakingProgramId) := h.lookup_of_mem_v7 hv7 (by simp)
  refine ⟨entries, hentries, ?_, ?_, ?_, hrecovery, htimelock, hrotation, hlog,
    ⟨_, hescrowAt, rfl, le_rfl⟩, ⟨_, hpoolAt, rfl, le_rfl⟩⟩
  · exact dataAt_of_lookup hchain
  · rw [dataAt_of_lookup hglobalAt]
    exact fromSlice_eq_some_iff.2 hglobal
  · rw [dataAt_of_lookup hregistryAt]
    exact fromSlice_eq_some_iff.2 hregistry

omit [GenesisFormat] in
/-- Every founder starts with nothing but its bond. -/
theorem mem_founders {i : ℕ} {used : List (List UInt8)} {validators : List ValidatorConfig}
    {entries : List ValidatorV7Entry} (h : founders i used validators = some entries) :
    entries.length = validators.length ∧ ∀ e ∈ entries, e.state = .active ∧
      e.frozenUntilQuanto = 0 ∧ e.consensusKeyExpiryQuanto = 0 ∧ e.retiredConsensusKeys = [] := by
  induction validators generalizing i used entries with
  | nil =>
    obtain rfl := Option.some.inj h
    exact ⟨rfl, fun e he => nomatch he⟩
  | cons v rest ih =>
    simp only [founders, bind_eq_bind, bind_eq_some_iff] at h
    obtain ⟨moniker, _, text, _, entries', hrest, h⟩ := h
    obtain rfl := Option.some.inj h
    obtain ⟨hlength, hentries⟩ := ih hrest
    refine ⟨congrArg (· + 1) hlength, fun e he => ?_⟩
    rcases mem_cons.1 he with rfl | he
    · exact ⟨rfl, rfl, rfl, rfl⟩
    · exact hentries e he

/-- The books of genesis are sound, if the bonds of the founders do not exceed what an account can
hold. -/
theorem sound_genesis {entries : List ValidatorV7Entry}
    (h : founders 0 [] config.validators = some entries)
    (hbonds : validatorBondAtoms * config.validators.length < 2 ^ 64) :
    (ValidatorBooks.genesis config entries).Sound := by
  obtain ⟨hlength, hentries⟩ := mem_founders h
  have hescrow : ((Word.clamp (validatorBondAtoms * entries.length) : U64) : ℕ) =
      validatorBondAtoms * entries.length := by
    rw [Word.toNat_clamp, hlength]
    omega
  refine ⟨fun _ he => absurd he not_mem_nil, fun _ hp => absurd hp not_mem_nil, ?_, ?_⟩
  · show _ ≤ ((Word.clamp (validatorBondAtoms * entries.length) : U64) : ℕ)
    rw [hescrow]
    exact Nat.mul_le_mul_left _ countP_le_length
  · have hnone : ValidatorV7Registry.unbondings ⟨entries⟩ = 0 := by
      apply countP_eq_zero.2
      intro e he
      rw [ValidatorV7Entry.inPool, (hentries e he).1]
      decide
    show _ * ValidatorV7Registry.unbondings ⟨entries⟩ ≤ 0
    rw [hnone, Nat.mul_zero]

omit [Crypto] [GenesisFormat] in
theorem economicsV7_ledgerConfig {cfg : LedgerConfig} (h : config.ledgerConfig = some cfg) :
    cfg.economicsV7 = config.economicsV7 := by
  obtain ⟨admin, _, hsettings⟩ := bind_eq_some_iff.1 h
  rw [← Option.some.inj hsettings]

end NodeConfig

/-- A v7 network on which only validator instructions run, as a history of its books. -/
theorem Chain.network_books [Crypto] [WasmEngine] [GenesisFormat]
    (hsha : ∀ bytes, ¬IsProtocolId (Crypto.sha3 bytes)) {cfg : LedgerConfig} {config : NodeConfig}
    {accounts : Accounts} (hseed : config.seedGenesis = some accounts)
    (hcfg : config.ledgerConfig = some cfg) (hv7 : config.economicsV7 = true)
    {events : List ChainEvent} (hevents : ∀ event ∈ events, ValidatorsOnly event) :
    ∃ founders b, NodeConfig.founders 0 [] config.validators = some founders ∧
      (ValidatorBooks.genesis config founders).Runs
        (run cfg (ofAccounts accounts) events).log b ∧
      Recorded b (run cfg (ofAccounts accounts) events).ledger.store := by
  obtain ⟨founders, hfounders, hrecorded⟩ := NodeConfig.recorded_seedGenesis hseed hv7
  obtain ⟨log, b, hlog, hruns, hb⟩ := run_books (c := ofAccounts accounts) hsha
    ((NodeConfig.economicsV7_ledgerConfig hcfg).trans hv7) hevents hrecorded
  refine ⟨founders, b, hfounders, ?_, hb⟩
  rw [hlog]
  exact hruns

/-! ### Small networks

Networks of a few wallets, in which every round closes a quanto. Some of the wallets are founders,
with the keys of the wallet as their consensus keys. A signature of a recovery message is good if it
repeats the message, and all other signatures are. -/

section Members

/-- SHA3-256 of the keys of the wallets. -/
def memberHashes : List (List UInt8 × Bytes32) :=
  walletHashes ++
    [(3, 0x07e1095180c23a7d1370fe52714d1a4765092ca4b3c0a5c9424389d4492526c7),
     (4, 0xecc46b11b9fb625f166a7919b0247957fe53d7d59dfcb1fe668735e00caccca4),
     (5, 0x69febe7de254dc1d05a5f3d28a42e22e32dd6b7caeaac7779be6f69544a45507)].map
      fun (i, address) => (componentBytes (walletKeys i).components, address)

@[reducible] def memberCrypto : Crypto where
  sha3 := (Crypto.ofHashes memberHashes).sha3
  verifyEd25519Component _ _ _ := true
  verifyMlDsa65Component _ msg sig := if msg.take 26 = recoveryAuthV1 then sig = msg else true
  verifySlhDsaComponent _ _ _ := true

variable (i : UInt8)

/-- The address of the `i`-th wallet. -/
def memberAddress : Pubkey :=
  memberCrypto.sha3 (componentBytes (walletKeys i).components)

/-- The network address of every validator. -/
def memberHost : Utf8 := ⟨[104, 58, 49], by decide +kernel⟩

variable (founders : List UInt8)

/-- The settings of a network with the given wallets as founders. -/
def memberConfig : NodeConfig :=
  { capConfig 0 with
    validators := founders.map fun i => ⟨walletKeys i, memberHost, 1, none, none⟩
    genesis := [0, 2, 3, 4, 5].map fun i => ⟨memberAddress i, Word.ofNat 5000000000000⟩
    quantoRateFp := some 0
    roundsPerQuanto := some 1
    hardCapSupply := false
    supplyCapQch := none }

def memberAccounts : Accounts :=
  (@NodeConfig.seedGenesis capFormat memberCrypto (memberConfig founders)).getD ∅

def memberSettings : LedgerConfig := ⟨true, 1, false, adminFeeWallet⟩

/-- A transaction of the `i`-th wallet; the second wallet collects the fees. -/
def memberEvent (nonce round : U64) (instructions : List Instruction) : ChainEvent :=
  .transaction
    { message :=
        { version := 1
          payer := memberAddress i
          payerKeys := walletKeys i
          nonce := nonce
          chainId := 0
          feeLimit := 1000000000
          priorityFee := 0
          validUntilRound := 0
          instructions := instructions }
      signature := hybridSignature }
    (memberAddress 1) round

/-- A validator instruction of the `i`-th wallet. -/
def memberInstruction (names : List Pubkey) (data : List UInt8) : Instruction :=
  ⟨validatorV7ProgramId, memberAddress i :: names, data⟩

/-- The network after some transactions. -/
def memberChain (events : List ChainEvent) : Chain :=
  @Chain.run memberCrypto WasmEngine.none memberSettings (.ofAccounts (memberAccounts founders))
    events

theorem memberCrypto_sha3 : ∀ bytes, ¬IsProtocolId (memberCrypto.sha3 bytes) :=
  @not_isProtocolId_ofHashes memberHashes (by decide)

/-- A founder begins to leave. -/
def leave : Instruction :=
  memberInstruction i [validatorRegistryAccountId, validatorBondEscrowId, validatorUnbondingPoolId,
    stakingGlobalId] (1 :: (memberAddress i).toBytes)

/-- A founder withdraws its bond. -/
def withdraw : Instruction :=
  memberInstruction i [validatorRegistryAccountId, validatorUnbondingPoolId, stakingGlobalId,
    memberAddress i] (2 :: (memberAddress i).toBytes)

/-- A founder takes the key of the `k`-th wallet. -/
def takeKey (i k : UInt8) : Instruction :=
  memberInstruction i [validatorRegistryAccountId, stakingGlobalId]
    (7 :: (toVec (memberAddress i, walletKeys k, memberHost, hybridSignature)).getD [])

/-- A wallet registers a validator with the key of the `k`-th wallet. -/
def registerKey (i k : UInt8) : Instruction :=
  memberInstruction i [validatorRegistryAccountId, validatorBondEscrowId, stakingGlobalId]
    (0 :: (toVec ((⟨[97, 98, 99], by decide +kernel⟩ : Utf8), walletKeys k, memberHost,
      (none : Option Pubkey), hybridSignature)).getD [])

end Members

end QChain
