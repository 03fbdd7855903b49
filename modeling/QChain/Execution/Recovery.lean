import QChain.Execution.ValidatorHistory

/-!
# Recovery committees

The approvals of a validator's committee are given over a nonce that every use increases. The nonce
is lost where the committee is removed, and a committee that is set again starts from the first one;
old approvals are then good again.
-/

namespace QChain

open Borsh Exec List Option Transact

/-! ### Messages -/

variable (accounts : Accounts)

/-- The identifier of the network in its account. -/
def storedChainId : Option Bytes32 :=
  (accounts.lookup chainIdAccountId).map fun account => Bytes32.ofBytes account.data

/-- The nonce over which the committee of a validator has to sign. -/
def recoveryNonce (addr : Pubkey) : Option U64 := do
  let recovery : RecoveryRegistry ← storedLazy accounts validatorRecoveryRegistryId
  let entry ← recovery.entries[← recovery.find addr]?
  pure entry.nonce

/-- What the committee of a validator has to sign for an operation. -/
def recoveryChallenge (addr : Pubkey) (op : RecoveryOp) :
    Option (List UInt8) := do
  pure (recoveryMessage (← storedChainId accounts) addr op (← recoveryNonce accounts addr))

/-- An approval of a recovery operation, as the accounts stand. -/
def Approves [Crypto] (accounts : Accounts) (addr : Pubkey) (op : RecoveryOp)
    (approval : RecoveryApproval) : Prop :=
  ∃ msg ∈ recoveryChallenge accounts addr op,
    verifyDomain approval.bundle recoveryAuthV1 msg approval.signature = true

/-- The committee that is to be set for a validator. -/
def pendingCommittee (addr : Pubkey) : Option RecoveryConfig := do
  let tl : KeyTimelockRegistry ← storedLazy accounts validatorKeyTimelockRegistryId
  let pending ← tl.pending[← tl.find addr .recoveryCommittee]?
  match pending.change with
  | .recoveryCommittee config => some config
  | _ => none

/-- The messages for different nonces or validators are different. -/
theorem recoveryMessage_inj {chainId chainId' : Bytes32} {addr addr' : Pubkey} {op op' : RecoveryOp}
    {nonce nonce' : U64}
    (h : recoveryMessage chainId addr op nonce = recoveryMessage chainId' addr' op' nonce') :
    addr = addr' ∧ nonce = nonce' := by
  obtain ⟨h, hnonce⟩ := append_inj' h (by rw [length_toLeBytes, length_toLeBytes])
  obtain ⟨h, _⟩ := append_inj' h (by rw [length_toLeBytes, length_toLeBytes])
  obtain ⟨h, _⟩ := append_inj' h rfl
  obtain ⟨_, haddr⟩ := append_inj' h (by rw [Bytes32.length_toBytes, Bytes32.length_toBytes])
  refine ⟨Bytes32.toBytes_injective haddr, Word.ext ?_⟩
  exact toLeBytes_inj nonce.toNat_lt nonce'.toNat_lt hnonce

/-! ### Entries of the registry -/

theorem map_set_of_eq {α β : Type*} {l : List α} {i : ℕ} {x y : α} {f : α → β}
    (hx : l[i]? = some x) (hf : f y = f x) : (l.set i y).map f = l.map f := by
  apply ext_getElem?
  intro j
  rw [getElem?_map, getElem?_map, getElem?_set]
  split_ifs with hij hlt
  · rw [← hij, hx, map_some, map_some, hf]
  · rw [getElem?_eq_none (hij ▸ not_lt.1 hlt)]
  · rfl

namespace RecoveryRegistry

variable {r r' : RecoveryRegistry} {addr : Pubkey} {config : RecoveryConfig}

/-- Every validator has one committee at most. -/
theorem Recommit.nodup (h : Recommit r addr config r')
    (hnodup : (r.entries.map (·.consensusAddress)).Nodup) :
    (r'.entries.map (·.consensusAddress)).Nodup := by
  cases h with
  | clear => exact hnodup.sublist ((eraseIdx_sublist ..).map _)
  | absent => exact hnodup
  | replace _ hentry =>
    rw [map_set_of_eq hentry]
    · exact hnodup
    · rfl
  | create hfind =>
    rw [find, findIdx?_eq_none_iff] at hfind
    rw [map_append, nodup_append]
    refine ⟨hnodup, nodup_singleton _, fun a ha a' ha' => ?_⟩
    obtain ⟨entry, hentry, rfl⟩ := List.mem_map.1 ha
    rw [mem_singleton.1 ha']
    exact of_decide_eq_false (hfind entry hentry)

/-- The nonces stay, and a committee that is created starts from the first. -/
theorem Recommit.nonce (h : Recommit r addr config r') : ∀ entry ∈ r'.entries,
    (∃ entry' ∈ r.entries, entry'.consensusAddress = entry.consensusAddress ∧
      entry'.nonce = entry.nonce) ∨
    r.find addr = none ∧ config.isClearing ≠ true ∧ entry.consensusAddress = addr := by
  intro entry hentry
  cases h with
  | clear => exact .inl ⟨entry, mem_of_mem_eraseIdx hentry, rfl, rfl⟩
  | absent => exact .inl ⟨entry, hentry, rfl, rfl⟩
  | replace _ hold =>
    rcases mem_or_eq_of_mem_set hentry with hentry | rfl
    · exact .inl ⟨entry, hentry, rfl, rfl⟩
    · exact .inl ⟨_, mem_of_getElem? hold, rfl, rfl⟩
  | create hfind hset =>
    rcases mem_append.1 hentry with hentry | hentry
    · exact .inl ⟨entry, hentry, rfl, rfl⟩
    · rw [mem_singleton.1 hentry]
      exact .inr ⟨hfind, hset, rfl⟩

end RecoveryRegistry

/-! ### The operations of a log -/

/-- The recovery operation that an execution carried out. -/
def Execution.recovers (e : Execution) : Option (Pubkey × RecoveryOp × List RecoveryApproval) :=
  match ValidatorV7Instruction.decode.all e.ix.data with
  | some (.recoverOp addr op approvals) => some (addr, op, approvals)
  | _ => none

/-- No committee is set for a validator whose earlier committee, since removed, has acted; and no
nonce is used up. -/
def KeepsNonces (log : List Execution) (e : Execution) : Prop :=
  match ValidatorV7Instruction.decode.all e.ix.data with
  | some (.applyPendingKeyChange addr .recoveryCommittee) =>
    recoveryNonce e.before addr = none →
      (∀ config ∈ pendingCommittee e.before addr, config.isClearing = true) ∨
        ∀ e' ∈ log, ∀ r ∈ e'.recovers, r.1 ≠ addr
  | some (.recoverOp addr _ _) => ∀ nonce ∈ recoveryNonce e.before addr, (nonce + 1 : ℕ) < 2 ^ 64
  | _ => True

/-! ### Executions of recovery operations -/

namespace ValidatorV7Program

variable [Crypto] {ix : Instruction} {payer addr : Pubkey} {op : RecoveryOp}
  {approvals : List RecoveryApproval} {kind : KeyChangeKind} {w w' : Accounts}

theorem process_recoverOp
    (h : ValidatorV7Instruction.decode.all ix.data = some (.recoverOp addr op approvals)) :
    process ix payer = recoverOp ix addr op approvals := by
  unfold process
  rw [h]
  rfl

theorem process_applyPendingKeyChange
    (h : ValidatorV7Instruction.decode.all ix.data = some (.applyPendingKeyChange addr kind)) :
    process ix payer = applyPendingKeyChange ix addr kind := by
  unfold process
  rw [h]
  rfl

/-- Counted are the members of the committee that have signed, each of them once. -/
theorem countApprovals_spec {config : RecoveryConfig} {msg : List UInt8} :
    (countApprovals config msg approvals).Nodup ∧
      ∀ k, k ∈ countApprovals config msg approvals ↔ k ∈ config.signers ∧ ∃ a ∈ approvals,
        a.bundle.toAddress = k ∧ verifyDomain a.bundle recoveryAuthV1 msg a.signature = true := by
  -- the induction keeps the members counted so far apart
  suffices hfold : ∀ (approvals : List RecoveryApproval) (counted : List Pubkey), counted.Nodup →
      (approvals.foldl (fun counted a =>
        if a.bundle.toAddress ∉ config.signers ∨ a.bundle.toAddress ∈ counted then counted
        else if verifyDomain a.bundle recoveryAuthV1 msg a.signature then
          counted ++ [a.bundle.toAddress]
        else counted) counted).Nodup ∧
      ∀ k, k ∈ approvals.foldl (fun counted a =>
        if a.bundle.toAddress ∉ config.signers ∨ a.bundle.toAddress ∈ counted then counted
        else if verifyDomain a.bundle recoveryAuthV1 msg a.signature then
          counted ++ [a.bundle.toAddress]
        else counted) counted ↔ k ∈ counted ∨ k ∈ config.signers ∧ ∃ a ∈ approvals,
          a.bundle.toAddress = k ∧ verifyDomain a.bundle recoveryAuthV1 msg a.signature = true by
    obtain ⟨hnodup, hmem⟩ := hfold approvals [] nodup_nil
    refine ⟨hnodup, fun k => (hmem k).trans ?_⟩
    simp only [not_mem_nil, false_or]
  intro approvals
  induction approvals with
  | nil => simp
  | cons a rest ih =>
    intro counted hcounted
    simp only [foldl_cons, exists_mem_cons_iff]
    split_ifs with hskip hvalid
    · obtain ⟨hnodup, hmem⟩ := ih counted hcounted
      refine ⟨hnodup, fun k => (hmem k).trans ?_⟩
      grind
    · obtain ⟨hnodup, hmem⟩ := ih (counted ++ [a.bundle.toAddress]) (by grind)
      refine ⟨hnodup, fun k => (hmem k).trans ?_⟩
      grind
    · obtain ⟨hnodup, hmem⟩ := ih counted hcounted
      refine ⟨hnodup, fun k => (hmem k).trans ?_⟩
      grind

/-- What a recovery operation names. -/
theorem recoverOp_names (h : (recoverOp ix addr op approvals).run w = .ok ((), w')) :
    validatorRecoveryRegistryId ∈ ix.accounts ∧ chainIdAccountId ∈ ix.accounts ∧
      chainIdAccountId ∈ w := by
  have hwp : Wp (recoverOp ix addr op approvals) w fun _ _ =>
      validatorRecoveryRegistryId ∈ ix.accounts ∧ chainIdAccountId ∈ ix.accounts ∧
        chainIdAccountId ∈ w := by
    simp only [recoverOp, readRecoveryRegistry, readChainId, wp_stepsV7]
    rintro _ _ _ hrecoveryPk _ _ _ _ _ _ _ _ ⟨rfl, rfl, rfl, rfl, rfl, rfl⟩ _ _ _ _ _ _ _ hchain
      account haccount
    have hrecovery : validatorRecoveryRegistryId ∈ ix.accounts := mem_of_getElem? hrecoveryPk
    have hcopied : chainIdAccountId ∈ w := Finmap.mem_of_lookup_eq_some haccount
    simp only [hrecovery, hchain, hcopied, and_self, wp_true, implies_true]
  exact hwp _ _ h

omit [Crypto] in
/-- What the application of a pending change names. -/
theorem applyPendingKeyChange_names
    (h : (applyPendingKeyChange ix addr kind).run w = .ok ((), w')) :
    validatorKeyTimelockRegistryId ∈ ix.accounts ∧
      validatorRecoveryRegistryId ∈ ix.accounts := by
  have hwp : Wp (applyPendingKeyChange ix addr kind) w fun _ _ =>
      validatorKeyTimelockRegistryId ∈ ix.accounts ∧
        validatorRecoveryRegistryId ∈ ix.accounts := by
    simp only [applyPendingKeyChange, readKeyTimelockRegistry, wp_stepsV7]
    rintro _ _ _ htimelockPk _ hrecoveryPk _ _ ⟨rfl, rfl, rfl, rfl⟩
    have htimelock : validatorKeyTimelockRegistryId ∈ ix.accounts :=
      mem_of_getElem? htimelockPk
    have hrecovery : validatorRecoveryRegistryId ∈ ix.accounts :=
      mem_of_getElem? hrecoveryPk
    simp only [htimelock, hrecovery, and_self, wp_true, implies_true]
  exact hwp _ _ h

end ValidatorV7Program

namespace ValidatorBooks

variable [Crypto] {b b' : ValidatorBooks} {e : Execution} {addr : Pubkey} {op : RecoveryOp}
  {approvals : List RecoveryApproval}

/-- What the committee had to sign for an operation that was carried out. -/
theorem Act.recoveryNonce_eq (h : b.Act e b' (.recoverOp addr op approvals)) {i : ℕ}
    {entry : RecoveryEntry} (hfind : b.recovery.find addr = some i)
    (hentry : b.recovery.entries[i]? = some entry) :
    recoveryNonce e.before addr = some entry.nonce ∧ storedChainId e.before = some b.chainId := by
  obtain ⟨store, hheld, _⟩ := h.held
  have hrun := h.run
  rw [ValidatorV7Program.process_recoverOp h.decode] at hrun
  obtain ⟨hrecovery, hchain, hcopied⟩ := ValidatorV7Program.recoverOp_names hrun
  obtain ⟨account, haccount⟩ := Finmap.mem_iff.1 hcopied
  constructor
  · rw [recoveryNonce, hheld.storedLazy_recovery hrecovery]
    simp [hfind, hentry]
  · rw [storedChainId, haccount, map_some, hheld.chainId_eq hchain haccount]

/-- A recovery operation was signed by a member of the committee. -/
theorem Act.recovered (h : b.Act e b' (.recoverOp addr op approvals)) :
    ∃ i entry, b.recovery.find addr = some i ∧ b.recovery.entries[i]? = some entry ∧
      ∃ a ∈ approvals, verifyDomain a.bundle recoveryAuthV1
        (recoveryMessage b.chainId addr op entry.nonce) a.signature = true := by
  have hstep := h.step
  cases hstep with
  | pending hinstr | rotation hinstr => cases hinstr
  | edit _ hrecovery => cases hrecovery
  | @recover _ _ _ i _ entry _ _ _ _ _ hcommittee hentry hthreshold hquorum =>
    refine ⟨i, entry, hcommittee, hentry, ?_⟩
    generalize recoveryMessage b.chainId addr op entry.nonce = msg at hquorum ⊢
    cases hcounted : ValidatorV7Program.countApprovals entry.config msg approvals with
    | nil =>
      rw [hcounted] at hquorum
      exact absurd (UInt8.toNat_inj.1 (Nat.le_zero.1 hquorum)) hthreshold
    | cons k rest =>
      have hk : k ∈ ValidatorV7Program.countApprovals entry.config msg approvals := by
        rw [hcounted]
        exact mem_cons_self ..
      obtain ⟨_, a, ha, _, hsigned⟩ := (ValidatorV7Program.countApprovals_spec.2 k).1 hk
      exact ⟨a, ha, hsigned⟩

/-- A change of a committee is the one that was pending. -/
theorem Act.pendingCommittee_eq {ti : ℕ} {p : PendingKeyChangeEntry} {config : RecoveryConfig}
    (h : b.Act e b' (.applyPendingKeyChange addr .recoveryCommittee))
    (hti : b.timelock.find addr .recoveryCommittee = some ti)
    (hp : b.timelock.pending[ti]? = some p) (hchange : p.change = .recoveryCommittee config) :
    pendingCommittee e.before addr = some config ∧
      recoveryNonce e.before addr =
        (b.recovery.find addr).bind fun i => (b.recovery.entries[i]?).map (·.nonce) := by
  obtain ⟨store, hheld, _⟩ := h.held
  have hrun := h.run
  rw [ValidatorV7Program.process_applyPendingKeyChange h.decode] at hrun
  obtain ⟨htimelock, hrecovery⟩ := ValidatorV7Program.applyPendingKeyChange_names hrun
  constructor
  · rw [pendingCommittee, hheld.storedLazy_timelock htimelock]
    simp [hti, hp, hchange]
  · rw [recoveryNonce, hheld.storedLazy_recovery hrecovery]
    simp [map_eq_bind]

end ValidatorBooks

/-! ### Nonces along a history -/

theorem Execution.recovers_eq_some {e : Execution} {addr : Pubkey} {op : RecoveryOp}
    {approvals : List RecoveryApproval} (h : e.recovers = some (addr, op, approvals)) :
    ValidatorV7Instruction.decode.all e.ix.data = some (.recoverOp addr op approvals) := by
  unfold recovers at h
  split at h
  next hdecode =>
    obtain ⟨rfl, rfl, rfl⟩ := Prod.mk.injEq .. ▸ Option.some.inj h
    exact hdecode
  next => cases h

theorem Execution.recovers_eq_none {e : Execution} {instr : ValidatorV7Instruction}
    (h : ValidatorV7Instruction.decode.all e.ix.data = some instr)
    (hinstr : instr.isRecovery = false) : e.recovers = none := by
  rw [recovers, h]
  cases instr with
  | recoverOp => cases hinstr
  | _ => rfl

/-- The committees of a network have used up the nonces below their own. -/
structure Nonces (chainId : Bytes32) (log : List Execution) (b : ValidatorBooks) : Prop where
  chainId_eq : b.chainId = chainId
  nodup : (b.recovery.entries.map (·.consensusAddress)).Nodup
  used : ∀ e ∈ log, ∀ r ∈ e.recovers, storedChainId e.before = some chainId ∧
    ∃ nonce, recoveryNonce e.before r.1 = some nonce ∧
      ∀ entry ∈ b.recovery.entries, entry.consensusAddress = r.1 → nonce < entry.nonce

namespace Nonces

variable [Crypto] {chainId : Bytes32} {log : List Execution} {b b' : ValidatorBooks} {e : Execution}
  {instr : ValidatorV7Instruction}

variable (h : Nonces chainId log b)

include h

omit [Crypto] in
/-- An execution that is no recovery operation, and after which nonces are as they were. -/
theorem concat (hchain : b'.chainId = b.chainId)
    (hnodup : (b'.recovery.entries.map (·.consensusAddress)).Nodup) (hnone : e.recovers = none)
    (hentries : ∀ e' ∈ log, ∀ r ∈ e'.recovers, ∀ entry ∈ b'.recovery.entries,
      entry.consensusAddress = r.1 → ∃ entry' ∈ b.recovery.entries,
        entry'.consensusAddress = r.1 ∧ entry'.nonce = entry.nonce) :
    Nonces chainId (log ++ [e]) b' := by
  refine ⟨hchain.trans h.chainId_eq, hnodup, fun e' he' r hr => ?_⟩
  rcases mem_append.1 he' with he' | he'
  · obtain ⟨hstored, nonce, hnonce, hused⟩ := h.used e' he' r hr
    refine ⟨hstored, nonce, hnonce, fun entry hentry haddress => ?_⟩
    obtain ⟨entry', hentry', haddress', hsame⟩ := hentries e' he' r hr entry hentry haddress
    rw [← hsame]
    exact hused entry' hentry' haddress'
  · rw [mem_singleton.1 he', hnone] at hr
    cases hr

/-- A committee is set, changed or removed. -/
theorem committee {addr : Pubkey} {config : RecoveryConfig} {ti : ℕ} {p : PendingKeyChangeEntry}
    (hact : b.Act e b' (.applyPendingKeyChange addr .recoveryCommittee))
    (hkeeps : KeepsNonces log e) (hti : b.timelock.find addr .recoveryCommittee = some ti)
    (hp : b.timelock.pending[ti]? = some p) (hchange : p.change = .recoveryCommittee config)
    (hchain : b'.chainId = b.chainId) (hrecommit : b.recovery.Recommit addr config b'.recovery) :
    Nonces chainId (log ++ [e]) b' := by
  have hnone : e.recovers = none := Execution.recovers_eq_none hact.decode rfl
  obtain ⟨hpending, hnonce⟩ := hact.pendingCommittee_eq hti hp hchange
  rw [KeepsNonces, hact.decode] at hkeeps
  refine h.concat hchain (hrecommit.nodup h.nodup) hnone fun e' he' r hr entry hentry haddress => ?_
  rcases hrecommit.nonce entry hentry with ⟨entry', hentry', haddress', hsame⟩ | ⟨hfind, hset, hnew⟩
  · exact ⟨entry', hentry', haddress'.trans haddress, hsame⟩
  · -- a committee that is created, for a validator no committee has acted for
    rw [hfind] at hnonce
    rcases hkeeps hnonce with hclearing | hother
    · exact absurd (hclearing config hpending) hset
    · exact absurd (haddress.symm.trans hnew) (hother e' he' r hr)

/-- The nonce of a committee that acts is used up. -/
theorem recover {addr : Pubkey} {op : RecoveryOp} {approvals : List RecoveryApproval} {i : ℕ}
    {entry : RecoveryEntry} (hact : b.Act e b' (.recoverOp addr op approvals))
    (hkeeps : KeepsNonces log e) (hfind : b.recovery.find addr = some i)
    (hentry : b.recovery.entries[i]? = some entry) (hchain : b'.chainId = b.chainId)
    (hrecovery : b'.recovery = ⟨b.recovery.entries.set i
      { entry with nonce := Word.clamp (entry.nonce + 1) }⟩) :
    Nonces chainId (log ++ [e]) b' := by
  obtain ⟨hnonce, hstored⟩ := hact.recoveryNonce_eq hfind hentry
  rw [KeepsNonces, hact.decode] at hkeeps
  have hlt : entry.nonce < (Word.clamp (entry.nonce + 1) : U64) := by
    have hroom := hkeeps entry.nonce hnonce
    rw [Word.lt_iff, Word.toNat_clamp]
    omega
  have haddr := RecoveryRegistry.address_of_find hfind hentry
  refine ⟨hchain.trans h.chainId_eq, ?_, fun e' he' r hr => ?_⟩
  · rw [hrecovery]
    rw [map_set_of_eq hentry]
    · exact h.nodup
    · rfl
  rw [hrecovery]
  rcases mem_append.1 he' with he' | he'
  · obtain ⟨hstored', nonce, hnonce', hused⟩ := h.used e' he' r hr
    refine ⟨hstored', nonce, hnonce', fun entry' hentry' haddress => ?_⟩
    rcases mem_or_eq_of_mem_set hentry' with hold | rfl
    · exact hused entry' hold haddress
    · exact (hused entry (mem_of_getElem? hentry) haddress).trans hlt
  · obtain rfl := mem_singleton.1 he'
    have hrecovers : e'.recovers = some (addr, op, approvals) := by
      rw [Execution.recovers, hact.decode]
    obtain rfl := mem_unique hrecovers hr
    refine ⟨hstored.trans (congrArg some h.chainId_eq), entry.nonce, hnonce, ?_⟩
    intro entry' hentry' haddress
    -- no other entry has the address
    obtain ⟨j, hj⟩ := mem_iff_getElem?.1 hentry'
    obtain ⟨hi, _⟩ := List.getElem?_eq_some_iff.1 hentry
    by_cases hij : i = j
    · subst hij
      rw [getElem?_set_self hi] at hj
      rw [← Option.some.inj hj]
      exact hlt
    · rw [getElem?_set_ne hij] at hj
      refine absurd ((getElem?_inj ?_ h.nodup).1 ?_) hij
      · rwa [length_map]
      · rw [getElem?_map, getElem?_map, hentry, hj, map_some, map_some,
          haddr, haddress]

/-- An execution keeps nonces used up. -/
theorem entry (hact : b.Act e b' instr) (hkeeps : KeepsNonces log e) :
    Nonces chainId (log ++ [e]) b' := by
  have hsame : b'.chainId = b.chainId → b'.recovery = b.recovery → instr.isRecovery = false →
      Nonces chainId (log ++ [e]) b' := by
    intro hchain hrecovery hinstr
    refine h.concat hchain ?_ (Execution.recovers_eq_none hact.decode hinstr) ?_
    · rw [hrecovery]
      exact h.nodup
    · intro e' _ r _ entry hentry haddress
      rw [hrecovery] at hentry
      exact ⟨entry, hentry, haddress, rfl⟩
  have hstep := hact.step
  cases hstep with
  | pending hinstr | rotation hinstr =>
    refine hsame rfl rfl ?_
    cases instr <;> first | rfl | cases hinstr
  | edit _ hrecovery => exact hsame rfl rfl hrecovery
  | slash | register => exact hsame rfl rfl rfl
  | committee hti hp hchange hrecommit =>
    exact h.committee hact hkeeps hti hp hchange rfl hrecommit
  | recover _ _ hfind hentry => exact h.recover hact hkeeps hfind hentry rfl rfl

theorem silent (hstep : b.Step none b') : Nonces chainId log b' := by
  cases hstep with
  | close | upkeep => exact ⟨h.chainId_eq, h.nodup, h.used⟩

end Nonces

namespace Chain

variable [Crypto] [WasmEngine] [GenesisFormat] {cfg : LedgerConfig} {config : NodeConfig}
  {accounts : Accounts} {events : List ChainEvent}

/-- Recovery approvals are single-use: in every run of validator instructions that keeps nonces, no
approval of a recovery operation approves a later one, while every operation has an approval. A
signature is taken to be valid for one message only. -/
theorem approvals_single_use (hsha : ∀ bytes, ¬IsProtocolId (Crypto.sha3 bytes))
    (hsignature : ∀ (bundle : PublicKeyBundle) (signature : MultiSignature) (msg msg' : List UInt8),
      verifyDomain bundle recoveryAuthV1 msg signature = true →
      verifyDomain bundle recoveryAuthV1 msg' signature = true → msg = msg')
    (hseed : config.seedGenesis = some accounts) (hcfg : config.ledgerConfig = some cfg)
    (hv7 : config.economicsV7 = true) (hevents : ∀ event ∈ events, ValidatorsOnly event)
    (hkeeps : Along KeepsNonces (run cfg (ofAccounts accounts) events).log)
    {i j : ℕ} {e e' : Execution} (hij : i < j)
    (hi : (run cfg (ofAccounts accounts) events).log[i]? = some e)
    (hj : (run cfg (ofAccounts accounts) events).log[j]? = some e')
    {addr addr' : Pubkey} {op op' : RecoveryOp} {approvals approvals' : List RecoveryApproval}
    (he : e.recovers = some (addr, op, approvals))
    (he' : e'.recovers = some (addr', op', approvals')) :
    (∃ a ∈ approvals', Approves e'.before addr' op' a) ∧
      ∀ a, Approves e.before addr op a → ¬Approves e'.before addr' op' a := by
  obtain ⟨founders, b, _, hruns, _⟩ := network_books hsha hseed hcfg hv7 hevents
  obtain ⟨b₁, b₂, hruns, ⟨instr, hact⟩, _⟩ := hruns.split_at hj
  have hnonces : Nonces config.chainId ((run cfg (ofAccounts accounts) events).log.take j) b₁ := by
    refine hruns.invariant_along (hkeeps.take j) ⟨rfl, nodup_nil, ?_⟩ ?_ ?_
    · exact fun e he => absurd he not_mem_nil
    · exact fun log b b' h hstep => h.silent hstep
    · rintro log e b b' hkeeps h ⟨instr, hact⟩
      exact h.entry hact hkeeps
  obtain rfl := mem_unique hact.decode (Execution.recovers_eq_some he')
  obtain ⟨_, entry, hfind, hentry, hsigned⟩ := hact.recovered
  obtain ⟨hnonce', hchain'⟩ := hact.recoveryNonce_eq hfind hentry
  have hchallenge : recoveryChallenge e'.before addr' op' =
      some (recoveryMessage b₁.chainId addr' op' entry.nonce) := by
    rw [recoveryChallenge, hnonce', hchain']
    rfl
  constructor
  · obtain ⟨a, ha, hvalid⟩ := hsigned
    exact ⟨a, ha, _, hchallenge, hvalid⟩
  · rintro a ⟨msg, hmsg, hvalid⟩ ⟨msg', hmsg', hvalid'⟩
    have hbefore : e ∈ (run cfg (ofAccounts accounts) events).log.take j := by
      apply mem_of_getElem?
      rw [getElem?_take_of_lt hij, hi]
    obtain ⟨hchain, nonce, hnonce, hused⟩ := hnonces.used e hbefore _ he
    have hmsg₁ : recoveryMessage config.chainId addr op nonce = msg := by
      rw [recoveryChallenge, hchain, hnonce] at hmsg
      exact Option.some.inj hmsg
    have hmsg₂ : recoveryMessage b₁.chainId addr' op' entry.nonce = msg' :=
      mem_unique hchallenge hmsg'
    -- the signature is valid for one message, but the nonces differ
    rw [← hsignature _ _ _ _ hvalid hvalid', ← hmsg₁] at hmsg₂
    obtain ⟨haddr, hsame⟩ := recoveryMessage_inj hmsg₂
    have hlt := hused entry (mem_of_getElem? hentry)
      ((RecoveryRegistry.address_of_find hfind hentry).trans haddr)
    exact absurd hsame hlt.ne'

end Chain

/-! ### A committee that is set again

A network of one founder, whose committee is one wallet. The committee lifts a freeze, is removed
and set again; its approval is then good once more. Where it acts twice before it is removed, each
operation needs an approval of its own. -/

section Replay

instance (log : List Execution) : DecidablePred (KeepsNonces log) := fun e => by
  unfold KeepsNonces
  split <;> infer_instance

instance [Crypto] (accounts : Accounts) (addr : Pubkey) (op : RecoveryOp) :
    DecidablePred (Approves accounts addr op) := fun approval =>
  decidable_of_iff ((recoveryChallenge accounts addr op).any fun msg =>
    verifyDomain approval.bundle recoveryAuthV1 msg approval.signature) <| by
    rw [Option.any_eq_true]
    rfl

/-- The founder proposes a committee. -/
def proposeCommittee (committee : RecoveryConfig) : Instruction :=
  memberInstruction 0 [validatorRegistryAccountId, validatorKeyTimelockRegistryId, stakingGlobalId]
    (10 :: (memberAddress 0).toBytes ++ (toVec committee).getD [])

/-- The committee that was proposed is set. -/
def setCommittee : Instruction :=
  memberInstruction 0 [validatorRegistryAccountId, validatorKeyTimelockRegistryId,
    validatorRecoveryRegistryId, stakingGlobalId] (12 :: (memberAddress 0).toBytes ++ [2])

/-- The accounts a recovery operation names. -/
def recoveryNames : List Pubkey :=
  [validatorRegistryAccountId, validatorRecoveryRegistryId, validatorBondEscrowId,
    validatorUnbondingPoolId, stakingGlobalId, validatorKmAuditLogId, chainIdAccountId]

/-- The approval of the third wallet that a freeze of the founder be lifted. -/
def liftApproval (nonce : U64) : RecoveryApproval :=
  ⟨walletKeys 2, ⟨[⟨1, List.replicate 64 0⟩, ⟨2, recoveryAuthV1 ++ recoveryMessage
    (@NodeConfig.chainId capFormat memberCrypto (memberConfig [0])) (memberAddress 0) .unfreeze
      nonce⟩]⟩⟩

/-- The committee lifts a freeze. -/
def liftFreeze (nonce : U64) : Instruction :=
  memberInstruction 0 recoveryNames (11 :: (memberAddress 0).toBytes ++ [2] ++
    (toVec [((liftApproval nonce).bundle, (liftApproval nonce).signature)]).getD [])

/-- The committee acts, is removed and set again, and acts by the same approval. -/
def replayEvents : List ChainEvent :=
  [memberEvent 0 0 0 [proposeCommittee ⟨[memberAddress 2], 1⟩],
   memberEvent 0 1 7 [setCommittee, liftFreeze 0, proposeCommittee ⟨[], 0⟩],
   memberEvent 0 2 14 [setCommittee, proposeCommittee ⟨[memberAddress 2], 1⟩],
   memberEvent 0 3 21 [setCommittee, liftFreeze 0]]

/-- The committee acts twice. -/
def twiceEvents : List ChainEvent :=
  [memberEvent 0 0 0 [proposeCommittee ⟨[memberAddress 2], 1⟩],
   memberEvent 0 1 7 [setCommittee, liftFreeze 0, liftFreeze 1]]

/-- The second component of a hybrid signature is verified by ML-DSA-65. -/
theorem verifyMlDsa65_of_verify [Crypto] {bundle : PublicKeyBundle} {msg : List UInt8}
    {signature : MultiSignature} (h : verify bundle msg signature = true) :
    ∃ key sig, signature.components[1]? = some sig ∧
      Crypto.verifyMlDsa65Component key msg sig.bytes = true := by
  unfold verify at h
  split at h
  · cases h
  next combo hcombo =>
    rw [Bool.and_eq_true, List.all_eq_true] at h
    obtain ⟨hlength, hall⟩ := h
    have hschemes : ∃ rest, bundle.components.map (·.scheme) =
        algorithmEd25519 :: algorithmMlDsa65 :: rest := by
      have hmem := mem_of_find?_eq_some hcombo
      have hfound := find?_some hcombo
      rw [decide_eq_true_iff] at hfound
      simp only [mem_cons, not_mem_nil, or_false] at hmem
      rcases hmem with rfl | rfl
      · exact ⟨_, (Option.some.inj hfound).symm⟩
      · exact ⟨_, (Option.some.inj hfound).symm⟩
    obtain ⟨rest, hschemes⟩ := hschemes
    match hkeys : bundle.components, hsigs : signature.components with
    | [], _ | [_], _ => simp [hkeys] at hschemes
    | _ :: _ :: _, [] | _ :: _ :: _, [_] => simp [hkeys, hsigs] at hlength
    | _ :: key :: _, _ :: sig :: _ =>
      rw [hkeys, hsigs] at hall
      rw [hkeys] at hschemes
      have hscheme : key.scheme = algorithmMlDsa65 := (List.cons.inj (List.cons.inj hschemes).2).1
      have hvalid : verifyComponent msg key sig = true := hall (key, sig) (by simp)
      unfold verifyComponent at hvalid
      split_ifs at hvalid with hne hed
      · rw [hscheme] at hed
        cases hed
      · exact ⟨key.bytes, sig, rfl, hvalid⟩

/-- The signature of a recovery message repeats it. -/
theorem memberCrypto_signature (bundle : PublicKeyBundle) (signature : MultiSignature)
    (msg msg' : List UInt8)
    (h : @verifyDomain memberCrypto bundle recoveryAuthV1 msg signature = true)
    (h' : @verifyDomain memberCrypto bundle recoveryAuthV1 msg' signature = true) :
    msg = msg' := by
  have hrepeats : ∀ msg, @verifyDomain memberCrypto bundle recoveryAuthV1 msg signature = true →
      (signature.components[1]?).map (·.bytes) = some (recoveryAuthV1 ++ msg) := by
    intro msg h
    obtain ⟨key, sig, hsig, hvalid⟩ := @verifyMlDsa65_of_verify memberCrypto _ _ _ h
    change (if (recoveryAuthV1 ++ msg).take 26 = recoveryAuthV1 then
      decide (sig.bytes = recoveryAuthV1 ++ msg) else true) = true at hvalid
    rw [take_left' (by decide), if_pos rfl, decide_eq_true_iff] at hvalid
    rw [hsig, map_some, hvalid]
  have heq := (hrepeats msg h).symm.trans (hrepeats msg' h')
  exact append_cancel_left (Option.some.inj heq)

/-- The approval of a committee approves two operations. -/
theorem Chain.approvals_replayed :
    (∀ bytes, ¬IsProtocolId (memberCrypto.sha3 bytes)) ∧
      (∀ (bundle : PublicKeyBundle) (signature : MultiSignature) (msg msg' : List UInt8),
        @verifyDomain memberCrypto bundle recoveryAuthV1 msg signature = true →
        @verifyDomain memberCrypto bundle recoveryAuthV1 msg' signature = true → msg = msg') ∧
      @NodeConfig.seedGenesis capFormat memberCrypto (memberConfig [0]) =
        some (memberAccounts [0]) ∧
      (memberConfig [0]).ledgerConfig = some memberSettings ∧
      (memberConfig [0]).economicsV7 = true ∧
      (∀ event ∈ replayEvents, ValidatorsOnly event) ∧
      ∃ e e', (memberChain [0] replayEvents).log[2]? = some e ∧
        (memberChain [0] replayEvents).log[7]? = some e' ∧
        e.recovers = some (memberAddress 0, .unfreeze, [liftApproval 0]) ∧
        e'.recovers = some (memberAddress 0, .unfreeze, [liftApproval 0]) ∧
        @Approves memberCrypto e.before (memberAddress 0) .unfreeze (liftApproval 0) ∧
        @Approves memberCrypto e'.before (memberAddress 0) .unfreeze (liftApproval 0) := by
  refine ⟨memberCrypto_sha3, memberCrypto_signature, by decide +kernel,
    by decide +kernel, rfl, by decide +kernel, ?_⟩
  have hlog : ∀ i ∈ [2, 7], ∃ e, (memberChain [0] replayEvents).log[i]? = some e ∧
      e.recovers = some (memberAddress 0, .unfreeze, [liftApproval 0]) ∧
        @Approves memberCrypto e.before (memberAddress 0) .unfreeze (liftApproval 0) := by
    decide +kernel
  obtain ⟨e, he, hrecovers, happroves⟩ := hlog 2 (by simp)
  obtain ⟨e', he', hrecovers', happroves'⟩ := hlog 7 (by simp)
  exact ⟨e, e', he, he', hrecovers, hrecovers', happroves, happroves'⟩

/-- Two operations of a committee have approvals of their own. -/
theorem Chain.approvals_single_use_twice :
    Along KeepsNonces (memberChain [0] twiceEvents).log ∧
      ∃ e e', (memberChain [0] twiceEvents).log[2]? = some e ∧
        (memberChain [0] twiceEvents).log[3]? = some e' ∧
        e.recovers = some (memberAddress 0, .unfreeze, [liftApproval 0]) ∧
        e'.recovers = some (memberAddress 0, .unfreeze, [liftApproval 1]) ∧
        (∃ a ∈ [liftApproval 1], @Approves memberCrypto e'.before (memberAddress 0) .unfreeze a) ∧
        ∀ a, @Approves memberCrypto e.before (memberAddress 0) .unfreeze a →
          ¬@Approves memberCrypto e'.before (memberAddress 0) .unfreeze a := by
  have hrun : Along KeepsNonces (memberChain [0] twiceEvents).log ∧
      (∃ e, (memberChain [0] twiceEvents).log[2]? = some e ∧
        e.recovers = some (memberAddress 0, .unfreeze, [liftApproval 0])) ∧
      ∃ e, (memberChain [0] twiceEvents).log[3]? = some e ∧
        e.recovers = some (memberAddress 0, .unfreeze, [liftApproval 1]) := by
    decide +kernel
  obtain ⟨hkeeps, ⟨e, he, hfacts⟩, e', he', hfacts'⟩ := hrun
  refine ⟨hkeeps, e, e', he, he', hfacts, hfacts', ?_⟩
  unfold memberChain at hkeeps he he'
  exact @approvals_single_use memberCrypto WasmEngine.none capFormat memberSettings
    (memberConfig [0]) (memberAccounts [0]) twiceEvents memberCrypto_sha3 memberCrypto_signature
    (by decide +kernel) (by decide +kernel) rfl (by decide +kernel) hkeeps
    2 3 e e' (by decide) he he' _ _ _ _ _ _ hfacts hfacts'

end Replay

end QChain
