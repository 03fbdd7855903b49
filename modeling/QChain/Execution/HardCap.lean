import QChain.Execution.Chain
import QChain.Node.GenesisWrites

/-!
# The hard cap

Under the hard cap nothing is minted after genesis: emission is paid out of a reserve, and fees that
would be burned return to it. Every write credits no more than it takes, with one exception: the
upfront fee is the byte fee plus the tip, computed with saturation, and both are credited in full.
-/

namespace QChain

open Accounts Exec Option Transact

/-! ### The v6 economy is empty -/

/-- The total of v6 stakes is there and is zero. -/
def Unstaked (accounts : Accounts) : Prop :=
  ∃ account, accounts.lookup stakingStatsId = some account ∧ account.owner = stakingProgramId ∧
    account.data = List.replicate 8 0

namespace Unstaked

variable {v v' : Accounts}

theorem of_received (h : Unstaked v) (hreceived : Received stakingStatsId v v') : Unstaked v' := by
  obtain ⟨account, hlookup, howner, hdata⟩ := h
  obtain ⟨balance, _, hlookup'⟩ := hreceived account hlookup
  exact ⟨_, hlookup', howner, hdata⟩

theorem storedStats_eq (h : Unstaked v) : (storedStats v : ℕ) = 0 := by
  obtain ⟨account, hlookup, _, hdata⟩ := h
  have hzero : Borsh.fromSlice (List.replicate 8 0) = some (0 : U64) := by decide
  rw [storedStats, hlookup, bind_some, hdata]
  rfl

/-- The data of the total are no record of a program. -/
theorem unclaimed (h : Unstaked v) : Unclaimed v stakingStatsId := by
  obtain ⟨account, hlookup, howner, hdata⟩ := h
  have hposition : (Borsh.fromSlice (List.replicate 8 0) : Option StakePositionV7) = none := by
    decide
  have hstake : StakeAccountData.readOrLegacy (List.replicate 8 0) = none := by decide
  have hne : stakingProgramId ≠ governanceProgramId := by decide
  refine ⟨fun hfresh => ?_, ?_, ?_, ?_⟩
  · obtain ⟨_, hempty, _⟩ := hfresh
    rw [getOrNew_of_lookup hlookup, hdata] at hempty
    exact absurd hempty (by decide)
  · rw [storedPosition, hlookup, bind_some, hdata, hposition]
  · rw [storedStake, hlookup, bind_some, hdata, hstake]
  · rw [storedProposal, hlookup]
    simp [howner, hne]

theorem of_sweep {dust : U64} (h : Unstaked v) (hsweep : ∀ k, Swept dust v v' k) :
    Unstaked v' := by
  obtain ⟨account, hlookup, howner, hdata⟩ := h
  exact ⟨account, (hsweep stakingStatsId).lookup_eq hlookup howner, howner, hdata⟩

end Unstaked

section

variable [Crypto] {cfg : LedgerConfig} {payer collector : Pubkey} {round dust : U64}
  {s₀ v store : Accounts} {es : List Execution} {paidIn takenOut : ℕ}

/-! ### One step -/

omit [Crypto] in
theorem nativeProgram_ne_staking {id : Pubkey} {program : NativeProgram}
    (h : nativeProgram true id = some program) : program ≠ .staking := by
  rintro rfl
  simp only [nativeProgram, if_true, true_and] at h
  split_ifs at h <;> cases h

omit [Crypto] in
theorem nativeProgram_stakingProgramId {economicsV7 : Bool} :
    nativeProgram economicsV7 stakingProgramId ≠ none := by
  cases economicsV7 <;> decide +kernel

omit [Crypto] in
theorem statsId_notMem_keys {program : NativeProgram} (h : program ≠ .staking) :
    stakingStatsId ∉ program.keys := by
  cases program with
  | staking => exact absurd rfl h
  | _ => decide +kernel

theorem Runs.unstaked {e : Execution} (h : Runs cfg e) (hv7 : cfg.economicsV7 = true)
    (hcovers : Covers e.before store (e.payer :: e.ix.accounts))
    (hpayer : stakingStatsId ≠ e.payer) (hunderived : Underived stakingStatsId)
    (hunstaked : Unstaked (e.before ∪ store)) : Unstaked (e.after ∪ store) := by
  refine hunstaked.of_received (h.received hcovers hpayer hunderived ?_ hunstaked.unclaimed ?_)
  · intro program hprogram
    rw [hv7] at hprogram
    exact statsId_notMem_keys (nativeProgram_ne_staking hprogram)
  · intro hnone account hlookup
    obtain ⟨account', hlookup', howner, _⟩ := hunstaked
    obtain rfl := mem_unique hlookup hlookup'
    rw [howner]
    intro hid
    rw [← hid] at hnone
    exact nativeProgram_stakingProgramId hnone

/-- No instruction of the v7 economy raises the supply. -/
theorem Runs.supply_union_le {e : Execution} (h : Runs cfg e) (hv7 : cfg.economicsV7 = true) :
    Accounts.supply (e.after ∪ store) ≤ Accounts.supply (e.before ∪ store) := by
  cases h with
  | native hprogram hrun =>
    rw [hv7] at hprogram
    obtain ⟨paidIn, takenOut, hle, heffects⟩ :=
      NativeProgram.process_balanced (nativeProgram_ne_staking hprogram) _ _ hrun
    have := heffects.supply_union_le store
    omega
  | contract _ heffect => exact heffect.supply_union_le store

omit [Crypto] in
theorem LedgerWrite.balance_le {k : Pubkey} {account : Account} {amountIn amountOut : ℕ}
    (h : LedgerWrite cfg payer collector v k account amountIn amountOut)
    (hv7 : cfg.economicsV7 = true) (hunstaked : Unstaked v) :
    (account.balance : ℕ) + amountOut ≤ v.balanceOf k + amountIn := by
  cases h with
  | fee _ hbalance => exact hbalance.le
  | charge hlookup hbalance =>
    rw [balanceOf_of_lookup hlookup]
    exact hbalance.le
  | reserve hbalance => exact hbalance
  | feeState => simp
  | rewardPool hstaked =>
    rcases hstaked with hv6 | hpos
    · rw [hv7] at hv6
      cases hv6
    · rw [hunstaked.storedStats_eq] at hpos
      exact absurd hpos (lt_irrefl 0)

omit [Crypto] in
theorem ClosingWrite.balance_le {k : Pubkey} {account : Account} {amountIn amountOut : ℕ}
    (h : ClosingWrite v k account amountIn amountOut) :
    (account.balance : ℕ) + amountOut ≤ v.balanceOf k + amountIn := by
  cases h with
  | emit _ _ hbalance => exact hbalance
  | spend _ hbalance | reward _ hbalance => exact hbalance.le
  | registry hlookup => exact (balanceOf_of_lookup hlookup).ge
  | global => simp

/-! ### Whole transactions -/

omit [Crypto] in
theorem Closes.supply_le (h : Closes s₀ paidIn takenOut v) :
    v.supply + takenOut ≤ s₀.supply + paidIn := by
  induction h with
  | refl => exact le_rfl
  | @write _ _ _ _ v k account _ hwrite ih =>
    have hbalance := hwrite.balance_le
    have hinsert : Accounts.supply (v.insert k account) + v.balanceOf k =
      v.supply + account.balance := supply_insert
    omega
  | weaken _ hin ih => omega

theorem Steps.supply_le
    (h : Steps cfg payer collector round dust s₀ es paidIn takenOut v)
    (hv7 : cfg.economicsV7 = true) (hpayer : stakingStatsId ≠ payer)
    (hunderived : Underived stakingStatsId) (hunstaked : Unstaked s₀) :
    Unstaked v ∧ v.supply + takenOut ≤ s₀.supply + paidIn := by
  induction h with
  | refl => exact ⟨hunstaked, le_rfl⟩
  | @write _ _ _ _ _ v k account _ hwrite ih =>
    obtain ⟨hv, hle⟩ := ih
    refine ⟨hv.of_received (hwrite.received hpayer (by decide)), ?_⟩
    have hbalance := hwrite.balance_le hv7 hv
    have hinsert : Accounts.supply (v.insert k account) + v.balanceOf k =
      v.supply + account.balance := supply_insert
    omega
  | @exec _ _ _ e store _ hcovers he _ hruns ih =>
    obtain ⟨hv, hle⟩ := ih
    have hsupply : Accounts.supply (e.after ∪ store) ≤ Accounts.supply (e.before ∪ store) :=
      hruns.supply_union_le hv7
    rw [← he] at hpayer
    exact ⟨hruns.unstaked hv7 hcovers hpayer hunderived hv, by omega⟩
  | sweep _ hsweep ih =>
    obtain ⟨hv, hle⟩ := ih
    refine ⟨hv.of_sweep hsweep, le_trans (Nat.add_le_add_right ?_ _) hle⟩
    apply Finmap.total_le_total
    intro k
    rcases hsweep k with hsame | ⟨account, hlookup, _, _, hlookup'⟩
    · exact (balanceOf_congr hsame).le
    · rw [Finmap.weightAt_of_lookup hlookup']
      exact Nat.zero_le _
  | weaken _ hin hout ih =>
    obtain ⟨hv, hle⟩ := ih
    exact ⟨hv, by omega⟩

end

/-! ### Genesis -/

namespace NodeConfig

variable [Crypto] [GenesisFormat] {config : NodeConfig} {accounts : Accounts}

/-- Genesis starts with a v6 total of zero. -/
theorem seedGenesis_unstaked (h : config.seedGenesis = some accounts) : Unstaked accounts := by
  have hzero : Borsh.toVec (0 : U64) = some (List.replicate 8 0) := by decide
  obtain ⟨allocated, common, v7, manifest, h⟩ := exists_seeds h
  obtain ⟨hstats, _, _, _, _, _⟩ := h.commonWrites
  obtain rfl := mem_unique hzero hstats
  have hkey := h.notMem_v7 (k := stakingStatsId) (by decide)
  exact ⟨_, h.lookup_of_mem_common hkey (List.mem_cons_of_mem _ (List.mem_cons_self ..)), rfl, rfl⟩

end NodeConfig

/-! ### Whole runs -/

/-- The payer of a transaction does not hold the largest balance an account can hold. -/
def PayerBelowMax (c : Chain) : ChainEvent → Prop
  | .transaction tx _ _ => c.ledger.store.balanceOf tx.message.payer < 2 ^ 64 - 1
  | .participation .. => True

namespace Chain

variable [Crypto] [WasmEngine] {cfg : LedgerConfig} {c : Chain}

/-- An event does not raise the supply. -/
theorem supply_step_le (hsha : ∀ bytes, ¬IsProtocolId (Crypto.sha3 bytes))
    (hv7 : cfg.economicsV7 = true) (hcap : cfg.hardCapSupply = true) {event : ChainEvent}
    (hevent : PayerBelowMax c event) (h : Unstaked c.ledger.store) :
    Unstaked (step cfg c event).ledger.store ∧
      (step cfg c event).ledger.store.supply ≤ c.ledger.store.supply := by
  have hstats : ∀ bytes, Crypto.sha3 bytes ≠ stakingStatsId := by
    intro bytes heq
    apply hsha bytes
    rw [heq]
    exact isProtocolId_repeatedByte (by decide)
  cases event with
  | participation quanto entries =>
    rw [store_step_participation]
    exact ⟨h, le_rfl⟩
  | transaction tx feeCollector round =>
    by_cases hverify : tx.verifySignature = true
    · rcases step_transaction cfg c tx feeCollector round with
        heq | ⟨result, ledger, happly, heq⟩
      · rw [heq]
        exact ⟨h, le_rfl⟩
      · rw [heq]
        -- first the quantos that are due, then the transaction
        obtain ⟨p₁, t₁, hle₁, hcloses⟩ : ∃ p₁ t₁, (cfg.hardCapSupply → p₁ ≤ t₁) ∧
            Closes c.ledger.store p₁ t₁ (Ledger.closed cfg tx round c.ledger) :=
          Ledger.closed_closes
        obtain ⟨p₂, t₂, hle₂, hsteps⟩ :=
          Ledger.applyTransaction_steps (payer_notMem_closingKeys hsha) _ _ happly
        have hclosed : Unstaked (Ledger.closed cfg tx round c.ledger) :=
          hcloses.invariant (fun v k account amountIn amountOut hv hwrite =>
            hv.of_received (hwrite.received (by decide))) h
        have hpayer : stakingStatsId ≠ tx.message.payer := by
          rw [payer_of_verifySignature hverify]
          exact (hstats _).symm
        obtain ⟨hend, hsupply⟩ := hsteps.supply_le hv7 hpayer (.of_forall_ne hstats) hclosed
        refine ⟨hend, ?_⟩
        have hsupply₁ := hcloses.supply_le
        have hfees₁ := hle₁ hcap
        have hfees₂ := hle₂ ⟨hv7, hevent⟩
        show ledger.store.supply ≤ c.ledger.store.supply
        omega
    · rw [step_of_not_verifySignature (Bool.eq_false_iff.2 hverify)]
      exact ⟨h, le_rfl⟩

/-- The hard cap: however transactions are applied, the sum of all balances is at most that of
genesis, as long as no payer holds the largest balance there is. -/
theorem supply_le_genesis [GenesisFormat] (hsha : ∀ bytes, ¬IsProtocolId (Crypto.sha3 bytes))
    {config : NodeConfig} {accounts : Accounts} (hseed : config.seedGenesis = some accounts)
    (hcfg : config.ledgerConfig = some cfg) (hv7 : config.economicsV7 = true)
    (hcap : config.hardCapSupply = true) {events : List ChainEvent}
    (hrun : Run.Meets (step cfg) PayerBelowMax (ofAccounts accounts) events) :
    (run cfg (ofAccounts accounts) events).ledger.store.supply ≤ accounts.supply := by
  obtain ⟨admin, _, hsettings⟩ := bind_eq_some_iff.1 hcfg
  have hcfg' := Option.some.inj hsettings
  have hv7' : cfg.economicsV7 = true := by rw [← hcfg', hv7]
  have hcap' : cfg.hardCapSupply = true := by rw [← hcfg', hv7, hcap, Bool.and_self]
  have hinvariant : Unstaked (run cfg (ofAccounts accounts) events).ledger.store ∧
      (run cfg (ofAccounts accounts) events).ledger.store.supply ≤ accounts.supply := by
    refine hrun.induction (P := fun c => Unstaked c.ledger.store ∧
      c.ledger.store.supply ≤ accounts.supply)
      ⟨NodeConfig.seedGenesis_unstaked hseed, le_rfl⟩ fun c event _ hevent h => ?_
    obtain ⟨hunstaked, hle⟩ := supply_step_le hsha hv7' hcap' hevent h.1
    exact ⟨hunstaked, hle.trans h.2⟩
  exact hinvariant.2

end Chain

/-! ### A payer with the largest balance

A hard-capped network of one wallet. With a smaller balance and no tip, its transaction pays
what is credited. With the largest balance there is and a tip of all of it, the byte fee comes
on top of what the wallet pays. -/

section Saturation

instance (c : Chain) : DecidablePred (PayerBelowMax c) := fun event => by
  unfold PayerBelowMax
  split <;> infer_instance

/-- SHA3-256 on the keys of the wallet. -/
@[reducible] def capCrypto : Crypto := .ofHashes walletHashes

/-- The texts of the configuration do not matter here. -/
@[reducible] def capFormat : GenesisFormat where
  json _ _ := []
  defaultQuantoRateFp := 0

/-- The settings of a hard-capped network of one wallet. -/
def capConfig (balance : U64) : NodeConfig where
  validators := []
  genesis := [⟨capCrypto.sha3 (componentBytes (walletKeys 0).components), balance⟩]
  validatorRotation := false
  compressedStateTree := false
  economicsV7 := true
  quantoRateFp := none
  roundsPerQuanto := none
  treasuryAuthority := none
  treasuryAmount := none
  treasurySigners := []
  treasuryThreshold := 0
  treasuryTimelockRounds := 0
  treasuryMaxPerReleaseQch := 0
  treasuryMaxPerWindowQch := 0
  treasuryWindowRounds := 0
  treasuryPolicyThreshold := 0
  treasurySignersThreshold := 0
  treasuryOpExpiryRounds := 0
  adminFeeWallet := none
  hardCapSupply := true
  supplyCapQch := some 18446744074
  emissionReserveQch := none
  explicitSchemaVersions := false
  governanceGuardians := []
  governanceGuardianThreshold := 0

def capAccounts (balance : U64) : Accounts :=
  (@NodeConfig.seedGenesis capFormat capCrypto (capConfig balance)).getD ∅

def capSettings : LedgerConfig := ⟨true, defaultRoundsPerQuanto, true, adminFeeWallet⟩

/-- A transaction without instructions of the wallet, for which the second wallet collects the
fees. -/
def capEvent (feeLimit tip : U64) : ChainEvent :=
  .transaction
    { message :=
        { version := 1
          payer := capCrypto.sha3 (componentBytes (walletKeys 0).components)
          payerKeys := walletKeys 0
          nonce := 0
          chainId := 0
          feeLimit := feeLimit
          priorityFee := tip
          validUntilRound := 0
          instructions := [] }
      signature := hybridSignature }
    (capCrypto.sha3 (componentBytes (walletKeys 1).components)) 0

/-- A network within its cap whose supply is higher after a transaction: the fee collector
gets the tip, which is all the wallet had, and the fee pool its share of the byte fee. -/
theorem Chain.supply_exceeds_genesis :
    let max : U64 := Word.ofNat (2 ^ 64 - 1)
    (∀ bytes, ¬IsProtocolId (capCrypto.sha3 bytes)) ∧
      @NodeConfig.seedGenesis capFormat capCrypto (capConfig max) = some (capAccounts max) ∧
      (capConfig max).ledgerConfig = some capSettings ∧
      (capAccounts max).supply ≤ (capConfig max).supplyCapAtoms ∧
      (capAccounts max).supply <
        (@Chain.run capCrypto WasmEngine.none capSettings (.ofAccounts (capAccounts max))
          [capEvent max max]).ledger.store.supply := by
  intro max
  exact ⟨not_isProtocolId_ofHashes (by decide +kernel), by decide +kernel, by decide +kernel,
    by decide +kernel, by decide +kernel⟩

/-- A network whose index grows by a ten-thousandth with every quanto of ten rounds. -/
def stakeConfig : NodeConfig :=
  { capConfig 1000000000000 with
    quantoRateFp := some (Word.ofNat 100000000000000)
    roundsPerQuanto := some 10
    hardCapSupply := false
    supplyCapQch := none }

/-- The same network, hard-capped, with so many coins in the emission reserve. -/
def reserveConfig (reserve : U64) : NodeConfig :=
  { stakeConfig with
    hardCapSupply := true
    supplyCapQch := some 18446744074
    emissionReserveQch := some reserve }

def reserveAccounts (reserve : U64) : Accounts :=
  (@NodeConfig.seedGenesis capFormat capCrypto (reserveConfig reserve)).getD ∅

def reserveSettings : LedgerConfig := ⟨true, 10, true, adminFeeWallet⟩

def stakeWallet : Pubkey := capCrypto.sha3 (componentBytes (walletKeys 0).components)

/-- The address of its position. -/
def stakePosition : Pubkey := capCrypto.sha3 (componentBytes (walletKeys 2).components)

/-- A transaction of the wallet. -/
def stakeEvent (nonce round : U64) (instructions : List Instruction) : ChainEvent :=
  .transaction
    { message :=
        { version := 1
          payer := stakeWallet
          payerKeys := walletKeys 0
          nonce := nonce
          chainId := 0
          feeLimit := 1000000000
          priorityFee := 0
          validUntilRound := 0
          instructions := instructions }
      signature := hybridSignature }
    (capCrypto.sha3 (componentBytes (walletKeys 1).components)) round

/-- The wallet stakes an amount. -/
def stakeInstruction (amount : ℕ) : Instruction :=
  ⟨stakingProgramId, [stakeWallet, stakePosition, stakingGlobalId, stakingReserveId],
    0 :: toLeBytes 8 amount⟩

/-- The wallet unstakes an amount. -/
def unstakeInstruction (amount : ℕ) : Instruction :=
  ⟨stakingProgramId,
    [stakeWallet, stakePosition, stakingGlobalId, stakingReserveId, stakingUnbondingPoolId],
    2 :: toLeBytes 8 amount⟩

/-- The wallet sends an amount to the second one. -/
def sendInstruction (amount : ℕ) : Instruction :=
  ⟨systemProgramId, [stakeWallet, capCrypto.sha3 (componentBytes (walletKeys 1).components)],
    1 :: toLeBytes 8 amount⟩

/-- The wallet stakes, sends some units and unstakes others, and two quantos close. -/
def spendEvents : List ChainEvent :=
  [stakeEvent 0 0 [stakeInstruction 100000000000, sendInstruction 5000000],
    stakeEvent 1 10 [unstakeInstruction 1000000], stakeEvent 2 20 []]

/-- The network after these transactions. -/
def spentChain : Chain :=
  @Chain.run capCrypto WasmEngine.none reserveSettings (.ofAccounts (reserveAccounts 1000))
    spendEvents

/-- The second close pays from the emission reserve, and fees go to the pools. -/
theorem Chain.supply_le_genesis_wallet :
    Run.Meets (@Chain.step capCrypto WasmEngine.none reserveSettings) PayerBelowMax
        (.ofAccounts (reserveAccounts 1000)) spendEvents ∧
      spentChain.log.length = 3 ∧
      spentChain.ledger.store.balanceOf emissionReserveId <
        (reserveAccounts 1000).balanceOf emissionReserveId ∧
      spentChain.ledger.store.supply ≤ (reserveAccounts 1000).supply := by
  have hrun : Run.Meets (@Chain.step capCrypto WasmEngine.none reserveSettings) PayerBelowMax
      (.ofAccounts (reserveAccounts 1000)) spendEvents := by decide +kernel
  refine ⟨hrun, by decide +kernel, by decide +kernel, ?_⟩
  rw [spentChain]
  exact @supply_le_genesis capCrypto WasmEngine.none reserveSettings capFormat
    (not_isProtocolId_ofHashes (by decide +kernel)) (reserveConfig 1000) (reserveAccounts 1000)
    (by decide +kernel) (by decide +kernel) rfl rfl spendEvents hrun

end Saturation

end QChain
