import QChain.Execution.Bonds

/-!
# Reports of equivocation

A report carries two vertices of one round, both signed by their author, and burns the bond of the
validator who has or had this key. The quanto it looks at is read from the working copies of the
transaction. If that does not name the account of the staking totals, they are taken for those of
genesis, and no window is ever over.
-/

namespace QChain

open Borsh Exec List Option Transact ValidatorV7Entry

/-! ### Registries have encodings -/

/-- An entry has an encoding if its texts, its keys and its retired keys have. -/
theorem ValidatorV7Entry.encodes_iff {v : ValidatorV7Entry} :
    Encodes v ↔ Encodes v.moniker ∧ Encodes v.pubkeyBundle ∧ Encodes v.p2pAddress ∧
      Encodes v.retiredConsensusKeys := by
  have hfields : Encodes v ↔ Encodes (v.address, v.operatorAddress, v.withdrawalAddress, v.moniker,
      v.pubkeyBundle, v.p2pAddress, v.bond, v.state, v.registeredQuanto, v.activationQuanto,
      v.exitRequestedQuanto, v.bondReleaseQuanto, v.participationCredits,
      v.participationOpportunities, v.consensusKeyExpiryQuanto, v.consensusKeyRevoked,
      v.retiredConsensusKeys, v.frozenUntilQuanto) := Iff.rfl
  rw [hfields]
  simp only [encodes_pair, encodes_of_fixedSize, true_and, and_true]

namespace ValidatorV7Registry

variable {reg : ValidatorV7Registry} {data : List UInt8} {idx : ℕ} {v v' : ValidatorV7Entry}

theorem encodes_of_vec_all {d : Decoder ValidatorV7Entry}
    (hd : ∀ front v back, d front = some (v, back) → Encodes v)
    (h : (d.vec.map mk).all data = some reg) : Encodes reg := by
  unfold Decoder.all at h
  split at h
  · next reg' hdecode =>
    obtain rfl := Option.some.inj h
    obtain ⟨validators, hvalidators, rfl⟩ := Decoder.map_eq_some.1 hdecode
    exact encodes_of_vec hd hvalidators
  · cases h

/-- A registry that was read has an encoding, also one in an earlier format. -/
theorem encodes_of_decodeRegistry (h : decodeRegistry data = some reg) : Encodes reg := by
  rcases or_eq_some_iff.1 h with h | ⟨_, h⟩
  · exact encodes_of_fromSlice h
  · obtain ⟨d, hd, h⟩ := exists_of_findSome?_eq_some h
    simp only [mem_cons, not_mem_nil, or_false] at hd
    refine encodes_of_vec_all (fun front v back hv => ?_) h
    rw [ValidatorV7Entry.encodes_iff]
    rcases hd with rfl | rfl | rfl
    · obtain ⟨⟨_, _, _, _, _, _, _, _, _, _, _, _, _, _, _, _, _⟩, hfields, rfl⟩ :=
        Decoder.map_eq_some.1 hv
      have hencodes := encodes_of_decode hfields
      simp only [encodes_pair, encodes_of_fixedSize, true_and] at hencodes
      exact hencodes
    · obtain ⟨⟨_, _, _, _, _, _, _, _, _, _, _, _, _, _⟩, hfields, rfl⟩ :=
        Decoder.map_eq_some.1 hv
      have hencodes := encodes_of_decode hfields
      simp only [encodes_pair, encodes_of_fixedSize, and_true, true_and] at hencodes
      exact ⟨hencodes.1, hencodes.2.1, hencodes.2.2, encodes_nil⟩
    · obtain ⟨⟨_, _, _, _, _, _, _, _, _, _, _, _⟩, hfields, rfl⟩ := Decoder.map_eq_some.1 hv
      have hencodes := encodes_of_decode hfields
      simp only [encodes_pair, encodes_of_fixedSize, and_true, true_and] at hencodes
      exact ⟨hencodes.1, hencodes.2.1, hencodes.2.2, encodes_nil⟩

theorem encodes_iff :
    Encodes reg ↔ reg.validators.length < 2 ^ 32 ∧ ∀ v ∈ reg.validators, Encodes v := by
  have hvalidators : Encodes reg ↔ Encodes reg.validators := Iff.rfl
  rw [hvalidators, encodes_list]

/-- The entry of a validator is replaced by one whose texts and keys are the same. -/
theorem encodes_set (h : Encodes reg) (hv : reg.validators[idx]? = some v)
    (hsame : v'.moniker = v.moniker ∧ v'.pubkeyBundle = v.pubkeyBundle ∧
      v'.p2pAddress = v.p2pAddress ∧ v'.retiredConsensusKeys = v.retiredConsensusKeys) :
    Encodes (⟨reg.validators.set idx v'⟩ : ValidatorV7Registry) := by
  obtain ⟨hlength, hmem⟩ := encodes_iff.1 h
  have hv' : Encodes v' := by
    rw [ValidatorV7Entry.encodes_iff, hsame.1, hsame.2.1, hsame.2.2.1, hsame.2.2.2]
    exact ValidatorV7Entry.encodes_iff.1 (hmem v (mem_of_getElem? hv))
  exact Borsh.encodes_set (α := ValidatorV7Entry) h hv'

end ValidatorV7Registry

theorem encodes_of_storedRegistryV7 {accounts : Accounts} {reg : ValidatorV7Registry}
    (h : storedRegistryV7 accounts = some reg) : Encodes reg := by
  unfold storedRegistryV7 at h
  split at h
  · obtain rfl := Option.some.inj h
    exact encodes_nil (α := ValidatorV7Entry)
  · exact ValidatorV7Registry.encodes_of_decodeRegistry h

/-! ### Reports -/

/-- Evidence that holds on a network: two different vertices of one round, both signed by their
author. -/
@[mk_iff]
structure EquivocationEvidence.Valid [Crypto] (chainId : Bytes32)
    (evidence : EquivocationEvidence) : Prop where
  round : evidence.vertexA.round = evidence.vertexB.round
  author : evidence.vertexA.author = evidence.vertexB.author
  digest : evidence.vertexA.digest ≠ evidence.vertexB.digest
  bundle : evidence.authorBundle.toAddress = evidence.vertexA.author
  signatureA : verifyVertexVote evidence.authorBundle chainId evidence.vertexA.digest
    evidence.signatureA = true
  signatureB : verifyVertexVote evidence.authorBundle chainId evidence.vertexB.digest
    evidence.signatureB = true

/-- A report names the accounts it needs, and its evidence holds on this network. -/
@[mk_iff]
structure Reports [Crypto] (ix : Instruction) (evidence : EquivocationEvidence) (w : Accounts) :
    Prop where
  registry : ix.accounts[1]? = some validatorRegistryAccountId
  escrow : ix.accounts[2]? = some validatorBondEscrowId
  pool : ix.accounts[3]? = some validatorUnbondingPoolId
  named : chainIdAccountId ∈ ix.accounts
  valid : ∃ account, w.lookup chainIdAccountId = some account ∧ account.data.length = 32 ∧
    evidence.Valid (Bytes32.ofBytes account.data)

/-- A bond that can be burned: the validator has one, and the pool where it is holds it. -/
def Burnable (w : Accounts) (v : ValidatorV7Entry) : Prop :=
  ∃ place, v.bondPlace = some place ∧ validatorBondAtoms ≤ w.balanceOf place

namespace ValidatorV7Program

variable [Crypto] {ix : Instruction} {evidence : EquivocationEvidence} {w : Accounts}
  {reg : ValidatorV7Registry} {g : GlobalStakingState} {idx : ℕ} {v : ValidatorV7Entry}

/-- What a report that succeeds has found. -/
theorem reportEquivocation_reports :
    Wp (reportEquivocation ix evidence) w fun _ _ => Reports ix evidence w ∧
      ∃ reg g idx v, storedRegistryV7 w = some reg ∧ storedGlobal w = some g ∧
        reg.findSlashable evidence.vertexA.author g.currentQuanto = some idx ∧
        reg.validators[idx]? = some v ∧ Burnable w v := by
  simp only [reportEquivocation, StakingProgram.checkEvidence, readChainId, wp_stepsV7,
    wp_balanceOrZero]
  rintro _ hregistry _ hescrow _ hpool hnamed ⟨rfl, rfl, rfl⟩ account hlookup hlength
    ⟨hround, hauthor⟩ hdigest hbundle hsignatureA hsignatureB reg hreg g hglobal idx hfind v hv
    ⟨hslashed, hremoved⟩ hbalance
  rw [Word.le_iff, Accounts.toNat_balance] at hbalance
  have hfound : Reports ix evidence w ∧ ∃ reg g idx v, storedRegistryV7 w = some reg ∧
      storedGlobal w = some g ∧
      reg.findSlashable evidence.vertexA.author g.currentQuanto = some idx ∧
      reg.validators[idx]? = some v ∧ Burnable w v :=
    ⟨⟨hregistry, hescrow, hpool, hnamed, account, hlookup, hlength, hround, hauthor, hdigest,
      hbundle, hsignatureA, hsignatureB⟩, reg, g, idx, v, hreg, hglobal, hfind, hv, _,
      bondPlace_of_slashable hslashed hremoved, hbalance⟩
  exact (wp_true.2 trivial).mono fun _ _ _ => (wp_true.2 trivial).mono fun _ _ _ => hfound

/-- A report in order succeeds, and burns the bond of the validator that was found. -/
theorem reportEquivocation_burns (hreports : Reports ix evidence w)
    (hreg : storedRegistryV7 w = some reg) (hglobal : storedGlobal w = some g)
    (hfind : reg.findSlashable evidence.vertexA.author g.currentQuanto = some idx)
    (hv : reg.validators[idx]? = some v) (hburnable : Burnable w v) :
    ∃ w', (reportEquivocation ix evidence).run w = .ok ((), w') ∧
      storedRegistryV7 w' =
        some ⟨reg.validators.set idx { v with state := .slashed, bond := 0 }⟩ ∧
      Transfers validatorBondAtoms v.bondPlace none w w' := by
  obtain ⟨hregistry, hescrow, hpool, hnamed, account, hlookup, hlength, hvalid⟩ := hreports
  obtain ⟨hround, hauthor, hdigest, hbundle, hsignatureA, hsignatureB⟩ := hvalid
  obtain ⟨place, hplace, hbalance⟩ := hburnable
  obtain ⟨hslashed, hremoved⟩ := slashable_of_bondPlace hplace
  have hpool' : (if v.state = .unbonding ∨ v.state = .revoked then validatorUnbondingPoolId
      else validatorBondEscrowId) = place := Option.some.inj
    ((bondPlace_of_slashable hslashed hremoved).symm.trans hplace)
  have hrun : Succeeds (reportEquivocation ix evidence) w fun _ w' =>
      storedRegistryV7 w' =
        some ⟨reg.validators.set idx { v with state := .slashed, bond := 0 }⟩ ∧
      Transfers validatorBondAtoms v.bondPlace none w w' := by
    simp only [reportEquivocation, StakingProgram.checkEvidence, readChainId, writeEntry,
      writeRegistryV7, succeeds_bind, succeeds_named, succeeds_require, succeeds_orThrow,
      succeeds_load, succeeds_pure, succeeds_readRegistryV7, succeeds_currentQuanto,
      succeeds_balanceOrZero, succeeds_debitExisting, succeeds_writeLazy]
    refine ⟨_, hregistry, _, hescrow, _, hpool, hnamed, ⟨rfl, rfl, rfl⟩, account, hlookup, hlength,
      ⟨hround, hauthor⟩, hdigest, hbundle, hsignatureA, hsignatureB, reg, hreg, g, hglobal, idx,
      hfind, v, hv, ⟨hslashed, hremoved⟩, ?_, ?_⟩
    · rw [Word.le_iff, Accounts.toNat_balance, hpool']
      exact hbalance
    · rw [hpool']
      obtain ⟨account, hlookup, balance, hsub⟩ := Accounts.exists_debit (by decide) hbalance
      obtain ⟨bytes, hbytes⟩ : Encodes (⟨reg.validators.set idx
          { v with state := .slashed, bond := 0 }⟩ : ValidatorV7Registry) :=
        ValidatorV7Registry.encodes_set (encodes_of_storedRegistryV7 hreg) hv
          ⟨rfl, rfl, rfl, rfl⟩
      refine ⟨account, hlookup, balance, hsub, bytes, hbytes, ?_, ?_⟩
      · rw [storedRegistryV7, Finmap.lookup_insert]
        show ValidatorV7Registry.decodeRegistry bytes = _
        rw [ValidatorV7Registry.decodeRegistry, fromSlice_eq_some_iff.2 hbytes, some_or]
      · rw [hplace]
        exact (Transfers.debit hlookup hsub).data
  obtain ⟨_, w', hrun, hpost⟩ := hrun
  exact ⟨w', hrun, hpost⟩

end ValidatorV7Program

/-! ### Instructions that are started -/

namespace Ledger

variable [Crypto] [WasmEngine]

/-- The instructions of a list that are started, with the working copies they start with: all up to
the first that fails. -/
def attempted (cfg : LedgerConfig) (store : Accounts) (tx : Transaction) (admission : Admission)
    (currentRound : U64) : List Instruction → Accounts → U64 → List (Instruction × Accounts)
  | [], _, _ => []
  | ix :: rest, working, totalGasFee => (ix, working) ::
    match (execInstruction cfg store tx admission currentRound totalGasFee ix).run working with
    | .ok (fee, working') =>
      attempted cfg store tx admission currentRound rest working' (Word.clamp (totalGasFee + fee))
    | .error _ => []

/-- The instructions that are started when a transaction is applied. -/
def attempts (cfg : LedgerConfig) (tx : Transaction) (currentRound : U64) (l : Ledger) :
    List (Instruction × Accounts) :=
  match (start cfg tx currentRound).run l with
  | .ok (.ok admission, l₁) =>
    attempted cfg l₁.store tx admission currentRound tx.message.instructions
      (workingSet tx l₁.store) 0
  | _ => []

/-- The accounts from which a transaction makes its working copies. -/
def opened (cfg : LedgerConfig) (tx : Transaction) (currentRound : U64) (l : Ledger) : Accounts :=
  match (start cfg tx currentRound).run l with
  | .ok (_, l₁) => l₁.store
  | .error _ => l.store

variable {cfg : LedgerConfig} {tx : Transaction} {admission : Admission} {round : U64}
  {store w : Accounts} {ix : Instruction} {l : Ledger} {collector : Pubkey}

theorem covers_of_attempted {instructions : List Instruction} {w₀ : Accounts} {totalGasFee : U64}
    (h : (ix, w) ∈ attempted cfg store tx admission round instructions w₀ totalGasFee)
    (hcovers : Covers w₀ store (tx.message.payer :: instructions.flatMap (·.accounts))) :
    Covers w store (tx.message.payer :: ix.accounts) := by
  induction instructions generalizing w₀ totalGasFee with
  | nil => cases h
  | cons ix₀ rest ih =>
    rcases mem_cons.1 h with heq | h
    · obtain ⟨rfl, rfl⟩ := Prod.mk.inj heq
      exact hcovers.head
    · split at h
      next fee w₁ hrun =>
        have hruns : Runs cfg ⟨ix₀, tx.message.payer, round, w₀, w₁⟩ :=
          execInstruction_runs _ _ hrun
        exact ih h (hcovers.tail fun k hk => hruns.mem hk)
      next => cases h

/-- An instruction that is started finds what it names as it is. -/
theorem covers_of_attempts (h : (ix, w) ∈ attempts cfg tx round l) :
    Covers w (opened cfg tx round l) (tx.message.payer :: ix.accounts) := by
  unfold attempts at h
  unfold opened
  split at h
  next admission l₁ hstart =>
    rw [hstart]
    exact covers_of_attempted h covers_copies
  next => cases h

/-- If the instructions of a transaction end well, all that were started have run. -/
theorem execInstructions_attempted {instructions : List Instruction} {w₀ : Accounts}
    {totalGasFee : U64} :
    Wp (execInstructions cfg tx collector admission round instructions w₀ totalGasFee) l
      fun r _ => r.isOk = true →
        ∀ p ∈ attempted cfg l.store tx admission round instructions w₀ totalGasFee,
          ∃ w', Runs cfg ⟨p.1, tx.message.payer, round, p.2, w'⟩ := by
  induction instructions generalizing w₀ totalGasFee with
  | nil =>
    rw [execInstructions, wp_pure]
    exact fun _ p hp => absurd hp not_mem_nil
  | cons ix rest ih =>
    simp only [execInstructions, wp_rules, wp_runOn]
    constructor
    · intro fee w₁ hrun
      refine ih.mono fun r _ hr hok p hp => ?_
      rw [attempted, hrun] at hp
      rcases mem_cons.1 hp with rfl | hp
      · exact ⟨w₁, execInstruction_runs _ _ hrun⟩
      · exact hr hok p hp
    · intro e _
      simp only [wp_ite, wp_rules]
      refine ⟨fun _ => (wp_true.2 trivial).mono fun _ _ _ hok => ?_, fun _ hok => ?_⟩
      · cases hok
      · cases hok

omit [Crypto] [WasmEngine] in
theorem settle_error {e : ExecError} :
    Wp (settle cfg tx collector admission (.error e)) l fun r _ => r.isOk = false := by
  simp only [settle, wp_bind]
  refine (wp_true.2 trivial).mono fun r _ _ => ?_
  cases r <;> exact (wp_pure _).2 rfl

/-- If a transaction succeeds, all instructions that were started have run. -/
theorem applyTransaction_attempts :
    Wp (applyTransaction cfg tx collector round) l fun r _ => r.isOk = true →
      ∀ p ∈ attempts cfg tx round l, ∃ w', Runs cfg ⟨p.1, tx.message.payer, round, p.2, w'⟩ := by
  unfold applyTransaction attempts
  rw [wp_bind]
  intro r l₁ hstart
  rw [hstart]
  cases r with
  | error e => exact (wp_pure _).2 fun hok => nomatch hok
  | ok admission =>
    simp only [wp_rules]
    refine execInstructions_attempted.mono fun r l₂ hr => ?_
    cases r with
    | error e =>
      refine settle_error.mono fun r _ hfailed hok => ?_
      rw [hfailed] at hok
      cases hok
    | ok result => exact (wp_true.2 trivial).mono fun _ _ _ _ => hr rfl

end Ledger

/-! ### Late reports -/

/-- A key that validators have retired, all of whose windows are over at a quanto. -/
@[mk_iff]
structure ValidatorV7Registry.Outdated (reg : ValidatorV7Registry) (k : Pubkey) (q : U64) :
    Prop where
  retired : ∃ v ∈ reg.validators, ∃ r ∈ v.retiredConsensusKeys, r.address = k
  notLive : reg.find k = none
  past : ∀ v ∈ reg.validators, ∀ r ∈ v.retiredConsensusKeys, r.address = k →
    r.slashUntilQuanto < q

/-- The validator that is held to account for a retired key, if the windows do not matter. -/
def ValidatorV7Registry.findRetired (reg : ValidatorV7Registry) (k : Pubkey) : Option ℕ :=
  reg.validators.findIdx? fun v => v.retiredConsensusKeys.any fun r => r.address = k

namespace ValidatorV7Registry

variable {reg : ValidatorV7Registry} {k : Pubkey} {q : U64}

/-- At the quanto of genesis all windows are open. -/
theorem findSlashable_zero (h : reg.find k = none) : reg.findSlashable k 0 = reg.findRetired k := by
  have hzero : ∀ q : U64, 0 ≤ q := fun q => Word.le_iff.2 (Nat.zero_le _)
  simp only [findSlashable, h, none_or, findRetired, hzero, and_true]

theorem Outdated.findSlashable_eq_none (h : reg.Outdated k q) : reg.findSlashable k q = none := by
  rw [findSlashable, h.notLive, none_or, findIdx?_eq_none_iff]
  intro v hv
  rw [List.any_eq_false]
  intro r hr hslashable
  rw [decide_eq_true_iff] at hslashable
  exact absurd (h.past v hv r hr hslashable.1) (not_lt.2 hslashable.2)

end ValidatorV7Registry

/-- A report that would be good but for the window of the key. -/
def GoodButLate [Crypto] (ix : Instruction) (evidence : EquivocationEvidence)
    (reg : ValidatorV7Registry) (w : Accounts) : Prop :=
  Reports ix evidence w ∧ ∃ idx v, reg.findRetired evidence.vertexA.author = some idx ∧
    reg.validators[idx]? = some v ∧ Burnable w v

namespace ValidatorV7Program

variable [Crypto] {cfg : LedgerConfig} {ix : Instruction} {payer : Pubkey} {round : U64}
  {evidence : EquivocationEvidence} {w w' : Accounts}

theorem process_reportEquivocation
    (hdecode : ValidatorV7Instruction.decode.all ix.data = some (.reportEquivocation evidence)) :
    process ix payer = reportEquivocation ix evidence := by
  unfold process
  rw [hdecode]
  rfl

/-- The executions of a report. -/
theorem runs_iff_reportEquivocation (hv7 : cfg.economicsV7 = true)
    (hprogram : ix.programId = validatorV7ProgramId)
    (hdecode : ValidatorV7Instruction.decode.all ix.data = some (.reportEquivocation evidence)) :
    Runs cfg ⟨ix, payer, round, w, w'⟩ ↔
      (reportEquivocation ix evidence).run w = .ok ((), w') := by
  have hprocess : process ix payer = reportEquivocation ix evidence :=
    process_reportEquivocation hdecode
  have hnative : nativeProgram cfg.economicsV7 ix.programId = some .validatorV7 := by
    rw [hv7, hprogram]
    decide
  constructor
  · intro hruns
    have hrun := Chain.process_of_validatorV7 hruns hv7 hprogram
    rwa [hprocess] at hrun
  · intro hrun
    refine .native hnative ?_
    show (process ix payer).run w = _
    rwa [hprocess]

end ValidatorV7Program

namespace Chain

variable [Crypto] [WasmEngine] {cfg : LedgerConfig} {c : Chain} {tx : Transaction}
  {collector : Pubkey} {round : U64} {ix : Instruction} {w : Accounts}
  {evidence : EquivocationEvidence} {reg : ValidatorV7Registry} {g : GlobalStakingState}

/-- An instruction fails, and the transaction with it: nothing is executed, and the registry of
validators stays as it is. -/
structure Refused (cfg : LedgerConfig) (c : Chain) (tx : Transaction) (collector : Pubkey)
    (round : U64) (ix : Instruction) (w : Accounts) : Prop where
  fails : ∀ w', ¬Runs cfg ⟨ix, tx.message.payer, round, w, w'⟩
  log : (step cfg c (.transaction tx collector round)).log = c.log
  registry : step cfg c (.transaction tx collector round) = c ∨
    (step cfg c (.transaction tx collector round)).ledger.store.dataAt validatorRegistryAccountId =
      (Ledger.closed cfg tx round c.ledger).dataAt validatorRegistryAccountId

theorem refused_of_fails (hsha : ∀ bytes, ¬IsProtocolId (Crypto.sha3 bytes))
    (hattempt : (ix, w) ∈ Ledger.attempts cfg tx round c.ledger)
    (hfails : ∀ w', ¬Runs cfg ⟨ix, tx.message.payer, round, w, w'⟩) :
    Refused cfg c tx collector round ix w := by
  rcases step_transaction cfg c tx collector round with heq | ⟨result, ledger, happly, heq⟩
  · exact ⟨hfails, by rw [heq], .inl heq⟩
  · have hnone : Ledger.committed cfg tx round c.ledger result = [] := by
      unfold Ledger.committed
      split_ifs with hok
      · obtain ⟨w', hruns⟩ := Ledger.applyTransaction_attempts _ _ happly hok _ hattempt
        exact absurd hruns (hfails w')
      · rfl
    rw [hnone, append_nil] at heq
    refine ⟨hfails, by rw [heq], .inr ?_⟩
    obtain ⟨paidIn, takenOut, _, hsteps⟩ :=
      Ledger.applyTransaction_steps (payer_notMem_closingKeys hsha) _ _ happly
    rw [hnone] at hsteps
    rw [heq]
    have hkeeps : Keeps cfg tx.message.payer collector round (Ledger.storedDust c.ledger.store)
        (fun _ => False) fun log v => log = [] ∧ v.dataAt validatorRegistryAccountId =
          (Ledger.closed cfg tx round c.ledger).dataAt validatorRegistryAccountId :=
      ⟨fun _ v k account _ _ h hwrite => ⟨h.1, (hwrite.dataAt_eq (by decide)).trans h.2⟩,
        fun _ _ _ _ h => h.elim,
        fun _ v v' h hsweep => ⟨h.1, (dataAt_of_sweep (hsweep _)).trans h.2⟩⟩
    exact (hsteps.invariant hkeeps (fun _ he => absurd he not_mem_nil) ⟨rfl, rfl⟩).2

/-- **Late reports.** A report for a key whose windows are over at the committed quanto fails and
leaves the registry as it is, exactly if the staking totals are among the working copies of the
transaction, or the report is bad for another reason. -/
theorem report_outdated (hsha : ∀ bytes, ¬IsProtocolId (Crypto.sha3 bytes))
    (hv7 : cfg.economicsV7 = true)
    (hattempt : (ix, w) ∈ Ledger.attempts cfg tx round c.ledger)
    (hprogram : ix.programId = validatorV7ProgramId)
    (hdecode : ValidatorV7Instruction.decode.all ix.data = some (.reportEquivocation evidence))
    (hreg : storedRegistryV7 (w ∪ Ledger.opened cfg tx round c.ledger) = some reg)
    (hglobal : storedGlobal (w ∪ Ledger.opened cfg tx round c.ledger) = some g)
    (houtdated : reg.Outdated evidence.vertexA.author g.currentQuanto) :
    Refused cfg c tx collector round ix w ↔
      stakingGlobalId ∈ w ∨ ¬GoodButLate ix evidence reg w := by
  have hcovers := Ledger.covers_of_attempts hattempt
  have hstored : Reports ix evidence w → storedRegistryV7 w = some reg := fun hreports => by
    rw [← hreg]
    exact storedRegistryV7_congr (hcovers.lookup_eq
      (mem_cons_of_mem _ (mem_of_getElem? hreports.registry)))
  have hgenesis : stakingGlobalId ∉ w → storedGlobal w = some GlobalStakingState.genesis :=
    fun hnot => by rw [storedGlobal, Finmap.lookup_eq_none.2 hnot]
  have hfirst : reg.findSlashable evidence.vertexA.author GlobalStakingState.genesis.currentQuanto =
      reg.findRetired evidence.vertexA.author :=
    ValidatorV7Registry.findSlashable_zero houtdated.notLive
  constructor
  · intro hrefused
    by_contra hnot
    obtain ⟨hnamed, hlate⟩ := not_or.1 hnot
    obtain ⟨hreports, idx, v, hfind, hv, hburnable⟩ := not_not.1 hlate
    obtain ⟨w', hrun, _⟩ := ValidatorV7Program.reportEquivocation_burns hreports
      (hstored hreports) (hgenesis hnamed) (hfirst.trans hfind) hv hburnable
    exact hrefused.fails w'
      ((ValidatorV7Program.runs_iff_reportEquivocation hv7 hprogram hdecode).2 hrun)
  · intro hcondition
    refine refused_of_fails hsha hattempt fun w' hruns => ?_
    have hrun := (ValidatorV7Program.runs_iff_reportEquivocation hv7 hprogram hdecode).1 hruns
    obtain ⟨hreports, reg', g', idx, v, hreg', hglobal', hfind, hv, hburnable⟩ :=
      ValidatorV7Program.reportEquivocation_reports _ _ hrun
    obtain rfl := mem_unique (hstored hreports) hreg'
    by_cases hnamed : stakingGlobalId ∈ w
    · have hsame : storedGlobal w = some g := by
        rw [← hglobal]
        have hcovers' : Covers w (Ledger.opened cfg tx round c.ledger) [stakingGlobalId] :=
          fun _ hk => .inl (mem_singleton.1 hk ▸ hnamed)
        exact storedGlobal_congr (hcovers'.lookup_eq (mem_singleton_self _))
      obtain rfl := mem_unique hsame hglobal'
      rw [houtdated.findSlashable_eq_none] at hfind
      cases hfind
    · obtain rfl := mem_unique (hgenesis hnamed) hglobal'
      rw [hfirst] at hfind
      exact (hcondition.resolve_left hnamed) ⟨hreports, idx, v, hfind, hv, hburnable⟩

end Chain

/-! ### An old key

A founder takes a new key in the first quanto, so that the old one can be held against it for one
quanto more. In the quanto after that it is reported for two vertices signed with the old key, by a
transaction that does not name the staking totals: they count as those of genesis, the window of the
key as open, and the bond is burned. -/

section OldKey

instance (reg : ValidatorV7Registry) (k : Pubkey) (q : U64) : Decidable (reg.Outdated k q) :=
  decidable_of_iff' _ (reg.outdated_iff k q)

/-- A vertex of the first wallet. -/
def oldVertex (parents : List Digest) : Vertex := ⟨0, memberAddress 0, [], parents⟩

/-- SHA3-256 of the keys of the wallets and of two vertices. -/
def oldHashes : List (List UInt8 × Bytes32) :=
  memberHashes ++
    [((oldVertex []).preimage, 0x2592afdd05a641daf5a25024dca9bf60da5982c4f49ac67043a15a445c8a9130),
     ((oldVertex [0]).preimage, 0x6f9b3dead767eda485db3f0302054cdc2ef22220f05f5d4be284349a97dcec8b)]

@[reducible] def oldCrypto : Crypto where
  sha3 := (Crypto.ofHashes oldHashes).sha3
  verifyEd25519Component := memberCrypto.verifyEd25519Component
  verifyMlDsa65Component := memberCrypto.verifyMlDsa65Component
  verifySlhDsaComponent := memberCrypto.verifySlhDsaComponent

/-- A network of two founders under this hash function. -/
def oldAccounts : Accounts :=
  (@NodeConfig.seedGenesis capFormat oldCrypto (memberConfig [0, 2])).getD ∅

def oldChain (events : List ChainEvent) : Chain :=
  @Chain.run oldCrypto WasmEngine.none memberSettings (.ofAccounts oldAccounts) events

/-- A vertex as it is encoded. -/
def oldFields (parents : List Digest) : U64 × Pubkey × List (UInt8 × Digest) × List Digest :=
  (0, memberAddress 0, [], parents)

variable (names : List Pubkey)

/-- The second founder reports the first one for both vertices. -/
def accuse : Instruction :=
  memberInstruction 2 ([validatorRegistryAccountId, validatorBondEscrowId,
    validatorUnbondingPoolId, chainIdAccountId] ++ names)
    (3 :: (toVec (oldFields [], hybridSignature, oldFields [0], hybridSignature,
      walletKeys 0)).getD [])

def oldEvidence : EquivocationEvidence :=
  ⟨oldVertex [], hybridSignature, oldVertex [0], hybridSignature, walletKeys 0⟩

/-- The transaction with the report. -/
def accusation : Transaction where
  message :=
    { version := 1
      payer := memberAddress 2
      payerKeys := walletKeys 2
      nonce := 0
      chainId := 0
      feeLimit := 1000000000
      priorityFee := 0
      validUntilRound := 0
      instructions := [accuse names] }
  signature := hybridSignature

/-- The founder with its new key, at the time of the report. -/
def oldState : Chain := oldChain [memberEvent 0 0 0 [takeKey 0 3]]

theorem exists_mem_pair {α β : Type} {l : List (α × β)} {a : α} {P : β → Prop}
    (h : ∃ p ∈ l, p.1 = a ∧ P p.2) : ∃ b, (a, b) ∈ l ∧ P b := by
  obtain ⟨⟨_, b⟩, hmem, rfl, hb⟩ := h
  exact ⟨b, hmem, hb⟩

theorem decode_accuse :
    ValidatorV7Instruction.decode.all (accuse names).data =
      some (.reportEquivocation oldEvidence) := by
  have hdata : (accuse names).data = (accuse []).data := rfl
  rw [hdata]
  decide +kernel

/-- The bond is burned for a key whose window is over. -/
theorem Chain.outdated_report_burns :
    (∀ bytes, ¬IsProtocolId (oldCrypto.sha3 bytes)) ∧
      @NodeConfig.seedGenesis capFormat oldCrypto (memberConfig [0, 2]) = some oldAccounts ∧
      (memberConfig [0, 2]).ledgerConfig = some memberSettings ∧
      ValidatorV7Instruction.decode.all (accuse []).data =
        some (.reportEquivocation oldEvidence) ∧
      ∃ w reg g reg', (accuse [], w) ∈ @Ledger.attempts oldCrypto WasmEngine.none memberSettings
          (accusation []) 2 oldState.ledger ∧
        storedRegistryV7 (w ∪ @Ledger.opened oldCrypto memberSettings (accusation []) 2
          oldState.ledger) = some reg ∧
        storedGlobal (w ∪ @Ledger.opened oldCrypto memberSettings (accusation []) 2
          oldState.ledger) = some g ∧
        reg.Outdated oldEvidence.vertexA.author g.currentQuanto ∧
        reg.validators.map (·.state) = [.active, .active] ∧
        storedRegistryV7 (@Chain.step oldCrypto WasmEngine.none memberSettings oldState
          (.transaction (accusation []) (memberAddress 1) 2)).ledger.store = some reg' ∧
        reg'.validators.map (·.state) = [.slashed, .active] := by
  refine ⟨@not_isProtocolId_ofHashes oldHashes (by decide +kernel), by decide +kernel,
    by decide +kernel, decode_accuse [], ?_⟩
  simp only [exists_and_left]
  exact exists_mem_pair (by decide +kernel)

/-- A report that names the staking totals is refused. -/
theorem Chain.report_outdated_named :
    ∃ w, stakingGlobalId ∈ w ∧ @Refused oldCrypto WasmEngine.none memberSettings oldState
      (accusation [stakingGlobalId]) (memberAddress 1) 2 (accuse [stakingGlobalId]) w := by
  obtain ⟨w, hattempt, reg, hreg, g, hglobal, houtdated, hnamed⟩ :
      ∃ w, (accuse [stakingGlobalId], w) ∈ @Ledger.attempts oldCrypto WasmEngine.none memberSettings
          (accusation [stakingGlobalId]) 2 oldState.ledger ∧
        ∃ reg, storedRegistryV7 (w ∪ @Ledger.opened oldCrypto memberSettings
          (accusation [stakingGlobalId]) 2 oldState.ledger) = some reg ∧
        ∃ g, storedGlobal (w ∪ @Ledger.opened oldCrypto memberSettings
          (accusation [stakingGlobalId]) 2 oldState.ledger) = some g ∧
        reg.Outdated (memberAddress 0) g.currentQuanto ∧ stakingGlobalId ∈ w :=
    exists_mem_pair (by decide +kernel)
  refine ⟨w, hnamed, ?_⟩
  exact (@report_outdated oldCrypto WasmEngine.none memberSettings oldState
    (accusation [stakingGlobalId]) (memberAddress 1) 2 (accuse [stakingGlobalId]) w oldEvidence reg
    g (@not_isProtocolId_ofHashes oldHashes (by decide +kernel)) rfl hattempt rfl
    (decode_accuse _) hreg hglobal houtdated).2 (.inl hnamed)

end OldKey

end QChain
