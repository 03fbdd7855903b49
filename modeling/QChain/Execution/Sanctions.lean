import QChain.Execution.Recovery

/-!
# What committees impose on validators

A recovery committee can freeze a validator, and it can set a deadline for its consensus key. Until
a freeze ends, no other party changes the keys and addresses of the validator or moves its bond,
except that a bond may be slashed. The deadline is the field by which the operator sets an expiry,
and the operator may remove it or put it off, or leave and register again.
-/

namespace QChain

open Borsh Exec Execution List Option Transact

/-! ### Validators that are left out -/

theorem filter_eraseIdx_of_false {α : Type*} {p : α → Bool} {l : List α} {i : ℕ} {x : α}
    (hx : l[i]? = some x) (hp : p x = false) : (l.eraseIdx i).filter p = l.filter p := by
  induction l generalizing i with
  | nil => cases hx
  | cons a l ih =>
    cases i with
    | zero =>
      obtain rfl := Option.some.inj hx
      rw [eraseIdx_cons_zero, filter_cons_of_neg (Bool.eq_false_iff.1 hp)]
    | succ i => rw [eraseIdx_cons_succ, filter_cons, filter_cons, ih hx]

/-- The validator in a slot is in no committee and gets no fees: both are as if it were not
registered. -/
structure ValidatorV7Registry.LeavesOut (reg : ValidatorV7Registry) (slot : ℕ) (q : U64) :
    Prop where
  committee : reg.activeCommittee q = activeCommittee ⟨reg.validators.eraseIdx slot⟩ q
  fees : eligibleAddresses reg q = eligibleAddresses ⟨reg.validators.eraseIdx slot⟩ q

/-- A validator whose key is disabled is left out. -/
theorem ValidatorV7Registry.leavesOut_of_disabled {reg : ValidatorV7Registry} {slot : ℕ} {q : U64}
    {v : ValidatorV7Entry} (hv : reg.validators[slot]? = some v)
    (h : v.consensusKeyDisabled q = true) : reg.LeavesOut slot q := by
  constructor
  · unfold activeCommittee
    rw [filter_eraseIdx_of_false hv]
    rw [h, Bool.not_true, Bool.and_false]
  · unfold eligibleAddresses
    rw [filter_eraseIdx_of_false hv]
    rw [isEligible, h, Bool.not_true, Bool.and_false]

/-! ### Deadlines -/

/-- The key of a validator expires at a quanto or before. -/
def ValidatorV7Entry.ExpiresBy (v : ValidatorV7Entry) (q : U64) : Prop :=
  (v.consensusKeyExpiryQuanto : ℕ) ≠ 0 ∧ v.consensusKeyExpiryQuanto ≤ q

theorem ValidatorV7Entry.ExpiresBy.disabled {v : ValidatorV7Entry} {q q' : U64}
    (h : v.ExpiresBy q) (hq : q ≤ q') : v.consensusKeyDisabled q' = true := by
  rw [consensusKeyDisabled, decide_eq_true ⟨h.1, h.2.trans hq⟩, Bool.or_true, Bool.true_or]

/-- An instruction that does not put off the deadline of the validator it names: it sets no later
expiry, and does not register the validator again. -/
def ValidatorV7Instruction.KeepsExpiry (q : U64) : ValidatorV7Instruction → Prop
  | setConsensusKeyExpiry _ expiryQuanto => (expiryQuanto : ℕ) ≠ 0 ∧ expiryQuanto ≤ q
  | bondAndRegister _ _ _ _ _ => False
  | _ => True

namespace ValidatorBooks

variable [Crypto] {b b' : ValidatorBooks} {v v' : ValidatorV7Entry} {instr : ValidatorV7Instruction}
  {q : U64} {slot : ℕ} {log : List Execution}

theorem Edit.expiresBy (h : b.Edit v instr v') (hrotation : instr.isRotation = false)
    (hrecovery : instr.isRecovery = false) (hkeeps : instr.KeepsExpiry q) (hv : v.ExpiresBy q) :
    v'.ExpiresBy q := by
  cases h with
  | expiry => exact hkeeps
  | recover => cases hrecovery
  | rotate | accept => cases hrotation
  | registerAgain => exact hkeeps.elim
  | _ => exact hv

omit [Crypto] in
theorem UpkeepEntry.expiresBy (h : UpkeepEntry v v') (hv : v.ExpiresBy q) : v'.ExpiresBy q := by
  rw [h.1]
  exact hv

/-- A validator whose key expires, along a history in which it gets no new key, its committee does
not act, and the deadline is not put off. -/
theorem Runs.expiresBy (h : b.Runs log b') (hv : b.registry.validators[slot]? = some v)
    (hexpires : v.ExpiresBy q)
    (hlog : ∀ e ∈ log, ∀ instr ∈ e.onSlot slot, (instr.isRotation = false ∧
      instr.isRecovery = false) ∧ instr.KeepsExpiry q) :
    ∃ v', b'.registry.validators[slot]? = some v' ∧ v'.ExpiresBy q := by
  refine h.invariant_along (I := fun _ b => ∃ v, b.registry.validators[slot]? = some v ∧
    v.ExpiresBy q) (.of_forall hlog) ⟨v, hv, hexpires⟩ ?_ ?_
  · rintro _ b b' ⟨v, hv, hexpires⟩ hstep
    obtain ⟨v', hv', hturn⟩ := hstep.turn hv
    refine ⟨v', hv', ?_⟩
    cases hturn with
    | same => exact hexpires
    | upkeep hupkeep => exact hupkeep.expiresBy hexpires
    | edit hlabel => cases hlabel
  · rintro _ e b b' he ⟨v, hv, hexpires⟩ ⟨instr, hact⟩
    obtain ⟨v', hv', rfl | hupkeep | ⟨hedit, hinstr⟩⟩ := hact.turn hv
    · exact ⟨v', hv', hexpires⟩
    · exact ⟨v', hv', hupkeep.expiresBy hexpires⟩
    · refine ⟨v', hv', ?_⟩
      cases hreport : instr.isReport with
      | false =>
        obtain ⟨⟨hrotation, hrecovery⟩, hkeeps⟩ := he instr (hinstr hreport)
        exact hedit.expiresBy hrotation hrecovery hkeeps hexpires
      | true =>
        cases hedit with
        | slash => exact hexpires
        | _ => cases hreport

/-- The entry a recovery operation makes. -/
theorem Act.recoverOp_entry {e : Execution} {addr : Pubkey} {op : RecoveryOp}
    {approvals : List RecoveryApproval} (h : b.Act e b' (.recoverOp addr op approvals))
    (hslot : b.registry.find addr = some slot) :
    ∃ v, b.registry.validators[slot]? = some v ∧
      b'.registry.validators[slot]? = some (op.edit b.quanto v) := by
  have hstep := h.step
  cases hstep with
  | pending hinstr | rotation hinstr => cases hinstr
  | edit _ hrecovery => cases hrecovery
  | recover _ _ _ _ _ _ hfind he hedit =>
    obtain rfl := mem_unique hfind hslot
    refine ⟨_, he, ?_⟩
    obtain ⟨hlt, _⟩ := List.getElem?_eq_some_iff.1 he
    cases hedit with
    | recover => exact getElem?_set_self hlt

end ValidatorBooks

/-! ### Freezes -/

namespace ValidatorV7Entry

theorem isFrozen_iff {v : ValidatorV7Entry} {q : U64} :
    v.isFrozen q = true ↔ (v.frozenUntilQuanto : ℕ) ≠ 0 ∧ q < v.frozenUntilQuanto :=
  decide_eq_true_iff

/-- A validator that is frozen was frozen before, if the end of the freeze was not set since. -/
theorem isFrozen_of_le {v v' : ValidatorV7Entry} {q q' : U64} (h : v'.isFrozen q' = true)
    (huntil : v'.frozenUntilQuanto = v.frozenUntilQuanto ∨ v'.frozenUntilQuanto = 0)
    (hq : q ≤ q') : v.isFrozen q = true := by
  rw [isFrozen_iff] at h
  rcases huntil with huntil | huntil
  · rw [huntil] at h
    exact isFrozen_iff.2 ⟨h.1, lt_of_le_of_lt hq h.2⟩
  · rw [huntil] at h
    exact absurd rfl h.1

end ValidatorV7Entry

/-- What a freeze protects: the addresses and keys of a validator, and its bond, unless that is
slashed in one of the given executions. -/
structure Kept (log : List Execution) (v v' : ValidatorV7Entry) : Prop where
  address : v'.address = v.address
  operatorAddress : v'.operatorAddress = v.operatorAddress
  withdrawalAddress : v'.withdrawalAddress = v.withdrawalAddress
  pubkeyBundle : v'.pubkeyBundle = v.pubkeyBundle
  bond : (v'.bond = v.bond ∧ v'.inEscrow = v.inEscrow ∧ v'.inPool = v.inPool) ∨
    v'.state = .slashed ∧ ∃ e ∈ log, ∃ evidence,
      ValidatorV7Instruction.decode.all e.ix.data = some (.reportEquivocation evidence)

namespace Kept

variable {log : List Execution} {e : Execution} {v v' v'' : ValidatorV7Entry}

theorem refl : Kept log v v := ⟨rfl, rfl, rfl, rfl, .inl ⟨rfl, rfl, rfl⟩⟩

theorem mono {log' : List Execution} (h : Kept log v v') (hlog : ∀ e ∈ log, e ∈ log') :
    Kept log' v v' := by
  refine ⟨h.address, h.operatorAddress, h.withdrawalAddress, h.pubkeyBundle, ?_⟩
  exact h.bond.imp_right fun ⟨hslashed, e, he, hreport⟩ => ⟨hslashed, e, hlog e he, hreport⟩

/-- What is kept and then kept again. A validator that was slashed must stay slashed. -/
theorem trans (h : Kept log v v') (h' : Kept log v' v'')
    (hslashed : v'.state = .slashed → v''.state = .slashed) : Kept log v v'' := by
  refine ⟨h'.address.trans h.address, h'.operatorAddress.trans h.operatorAddress,
    h'.withdrawalAddress.trans h.withdrawalAddress, h'.pubkeyBundle.trans h.pubkeyBundle, ?_⟩
  rcases h.bond with ⟨hbond, hescrow, hpool⟩ | ⟨hstate, hreport⟩
  · rcases h'.bond with ⟨hbond', hescrow', hpool'⟩ | hslashed'
    · exact .inl ⟨hbond'.trans hbond, hescrow'.trans hescrow, hpool'.trans hpool⟩
    · exact .inr hslashed'
  · exact .inr ⟨hslashed hstate, hreport⟩

/-- The upkeep of a quanto keeps what a freeze protects. -/
theorem of_upkeep (h : ValidatorBooks.UpkeepEntry v v') : Kept log v v' := by
  obtain ⟨hentry, hstates⟩ := h
  have hbond : v'.bond = v.bond := by rw [hentry]
  refine ⟨by rw [hentry], by rw [hentry], by rw [hentry], by rw [hentry], .inl ⟨hbond, ?_⟩⟩
  unfold ValidatorV7Entry.inEscrow ValidatorV7Entry.inPool
  rcases hstates with hsame | ⟨hold, hnew⟩ | ⟨hold, hnew⟩
  · rw [hsame]
    exact ⟨rfl, rfl⟩
  · rw [hold, hnew]
    decide
  · rw [hold, hnew]
    decide

end Kept

namespace ValidatorBooks

variable [Crypto] {b b' : ValidatorBooks} {v v' : ValidatorV7Entry} {instr : ValidatorV7Instruction}
  {label : Option ValidatorV7Instruction} {slot : ℕ} {e : Execution} {log : List Execution}

/-- Only the committee of a validator sets the end of a freeze, and a registration ends it. -/
theorem Edit.frozenUntilQuanto (h : b.Edit v instr v') (hrecovery : instr.isRecovery = false) :
    v'.frozenUntilQuanto = v.frozenUntilQuanto ∨ v'.frozenUntilQuanto = 0 := by
  cases h with
  | recover => cases hrecovery
  | registerAgain _ _ hregistration => exact .inr hregistration.frozen
  | _ => exact .inl rfl

/-- A validator that was slashed stays so. -/
theorem Edit.slashed (h : b.Edit v instr v') (hslashed : v.state = .slashed) :
    v'.state = .slashed := by
  cases h with
  | unjail hstate | registerAgain hstate => exact absurd (hslashed.symm.trans hstate) (by decide)
  | exit hstate => rcases hstate with h | h | h <;> exact absurd (hslashed.symm.trans h) (by decide)
  | withdraw hstate => rcases hstate with h | h <;> exact absurd (hslashed.symm.trans h) (by decide)
  | @recover op _ hop =>
    cases op with
    | revoke => rcases hop with h | h | h <;> exact absurd (hslashed.symm.trans h) (by decide)
    | _ => exact hslashed
  | slash => rfl
  | _ => exact hslashed

omit [Crypto] in
theorem UpkeepEntry.slashed (h : UpkeepEntry v v') (hslashed : v.state = .slashed) :
    v'.state = .slashed := by
  rcases h.2 with hsame | ⟨hold, _⟩ | ⟨hold, _⟩
  · exact hsame.symm.trans hslashed
  · exact absurd (hslashed.symm.trans hold) (by decide)
  · exact absurd (hslashed.symm.trans hold) (by decide)

/-- An instruction keeps what a freeze protects, unless it comes from the committee. The
instructions that do not look at the quanto never touch it. -/
theorem Edit.kept (h : b.Edit v instr v') (hrecovery : instr.isRecovery = false)
    (hthawed : v.state = .removed → v.isFrozen b.quanto = false)
    (hfrozen : instr.readsQuanto = true → v.isFrozen b.quanto = true)
    (hdecode : ValidatorV7Instruction.decode.all e.ix.data = some instr) : Kept [e] v v' := by
  have hrefused : instr.readsQuanto = true → v.isFrozen b.quanto = false → Kept [e] v v' :=
    fun hreads hnot => absurd (hnot.symm.trans (hfrozen hreads)) Bool.false_ne_true
  cases h with
  | unjail hjailed =>
    refine ⟨rfl, rfl, rfl, rfl, .inl ⟨rfl, ?_⟩⟩
    simp [ValidatorV7Entry.inEscrow, ValidatorV7Entry.inPool, hjailed]
  | revokeKey | expiry => exact ⟨rfl, rfl, rfl, rfl, .inl ⟨rfl, rfl, rfl⟩⟩
  | operator _ hnot | withdrawal _ hnot | exit _ hnot | withdraw _ hnot | rotate _ hnot
  | accept _ hnot => exact hrefused rfl hnot
  | recover => cases hrecovery
  | slash => exact ⟨rfl, rfl, rfl, rfl, .inr ⟨rfl, e, mem_cons_self .., _, hdecode⟩⟩
  | registerAgain hremoved => exact hrefused rfl (hthawed hremoved)

/-- No validator that was removed is frozen. -/
def Thawed (b : ValidatorBooks) : Prop :=
  ∀ v ∈ b.registry.validators, v.state = .removed → v.isFrozen b.quanto = false

/-- A bond is withdrawn only after the end of a freeze, and nobody freezes a validator that was
removed. -/
theorem Edit.thawed (h : b.Edit v instr v') (hremoved : v'.state = .removed)
    (hthawed : v.state = .removed → v.isFrozen b.quanto = false) :
    v.isFrozen b.quanto = false ∧
      (v'.frozenUntilQuanto = v.frozenUntilQuanto ∨ v'.frozenUntilQuanto = 0) := by
  cases h with
  | unjail | exit | slash => cases hremoved
  | withdraw _ hfrozen => exact ⟨hfrozen, .inl rfl⟩
  | @recover op _ hop =>
    cases op with
    | revoke => cases hremoved
    | freeze => exact absurd hremoved hop.1.2
    | unfreeze => exact ⟨hthawed hremoved, .inr rfl⟩
    | setExpiry => exact ⟨hthawed hremoved, .inl rfl⟩
  | registerAgain _ _ hregistration =>
    exact absurd (hremoved.symm.trans hregistration.state) (by decide)
  | _ => exact ⟨hthawed hremoved, .inl rfl⟩

theorem Step.thawed (h : b.Step label b') (hthawed : b.Thawed) : b'.Thawed := by
  intro v' hv' hremoved
  obtain ⟨slot, hslot⟩ := mem_iff_getElem?.1 hv'
  -- the entry before was not frozen, and the end of the freeze is the same or removed
  suffices hbefore : ∃ v : ValidatorV7Entry, v.isFrozen b.quanto = false ∧
      (v'.frozenUntilQuanto = v.frozenUntilQuanto ∨ v'.frozenUntilQuanto = 0) by
    obtain ⟨v, hnot, huntil⟩ := hbefore
    by_contra hfrozen
    rw [Bool.not_eq_false] at hfrozen
    have hbefore := ValidatorV7Entry.isFrozen_of_le hfrozen huntil h.quanto_le
    exact absurd (hnot.symm.trans hbefore) Bool.false_ne_true
  rcases h.entry hslot with ⟨v, hv, hturn⟩ | ⟨_, _, _, _, _, hregistration, _⟩
  · have hnot := hthawed v (mem_of_getElem? hv)
    refine ⟨v, ?_⟩
    cases hturn with
    | same => exact ⟨hnot hremoved, .inl rfl⟩
    | upkeep hupkeep =>
      obtain ⟨hentry, hstates⟩ := hupkeep
      refine ⟨hnot ?_, .inl (by rw [hentry])⟩
      rcases hstates with hsame | ⟨_, hnew⟩ | ⟨_, hnew⟩
      · exact hsame.trans hremoved
      · exact absurd (hremoved.symm.trans hnew) (by decide)
      · exact absurd (hremoved.symm.trans hnew) (by decide)
    | edit _ hedit => exact hedit.thawed hremoved hnot
  · exact absurd (hremoved.symm.trans hregistration.state) (by decide)

/-- What an execution makes of a validator whose committee does not act. -/
theorem Act.kept (h : b.Act e b' instr) (hthawed : b.Thawed)
    (hv : b.registry.validators[slot]? = some v)
    (hinstr : ∀ instr ∈ e.onSlot slot, instr.isRecovery = false) :
    ∃ v', b'.registry.validators[slot]? = some v' ∧
      (v.state = .slashed → v'.state = .slashed) ∧
      (v'.frozenUntilQuanto = v.frozenUntilQuanto ∨ v'.frozenUntilQuanto = 0) ∧
      ((instr.readsQuanto = true → v.isFrozen b.quanto = true) → Kept [e] v v') := by
  obtain ⟨v', hv', rfl | hupkeep | ⟨hedit, hmem⟩⟩ := h.turn hv
  · exact ⟨v', hv', id, .inl rfl, fun _ => .refl⟩
  · exact ⟨v', hv', hupkeep.slashed, .inl (by rw [hupkeep.1]), fun _ => .of_upkeep hupkeep⟩
  · have hrecovery : instr.isRecovery = false := by
      cases hreport : instr.isReport with
      | false => exact hinstr instr (hmem hreport)
      | true => cases instr <;> first | rfl | cases hreport
    refine ⟨v', hv', hedit.slashed, hedit.frozenUntilQuanto hrecovery, fun hfrozen => ?_⟩
    exact hedit.kept hrecovery (hthawed v (mem_of_getElem? hv)) hfrozen h.decode

/-- Along a history in which the committee of a validator does not act, what a freeze protects is
kept for as long as the validator is frozen. -/
theorem Runs.kept (h : b.Runs log b') (hthawed : b.Thawed)
    (hv : b.registry.validators[slot]? = some v)
    (hlog : ∀ e ∈ log, ∀ instr ∈ e.onSlot slot, instr.isRecovery = false) :
    ∃ v', b'.registry.validators[slot]? = some v' ∧
      (v'.isFrozen b'.quanto = true → Kept log v v') := by
  suffices hinv : b'.Thawed ∧ ∃ v', b'.registry.validators[slot]? = some v' ∧
      (v'.isFrozen b'.quanto = true → Kept log v v') from hinv.2
  refine h.invariant_along (I := fun log b' => b'.Thawed ∧ ∃ v',
    b'.registry.validators[slot]? = some v' ∧ (v'.isFrozen b'.quanto = true → Kept log v v'))
    (.of_forall hlog) ⟨hthawed, v, hv, fun _ => .refl⟩ ?_ ?_
  · rintro log b b' ⟨hthawed, v₁, hv₁, hkept⟩ hstep
    obtain ⟨v₂, hv₂, hturn⟩ := hstep.turn hv₁
    refine ⟨hstep.thawed hthawed, v₂, hv₂, fun hfrozen => ?_⟩
    cases hturn with
    | same => exact hkept (ValidatorV7Entry.isFrozen_of_le hfrozen (.inl rfl) hstep.quanto_le)
    | upkeep hupkeep =>
      have huntil : v₂.frozenUntilQuanto = v₁.frozenUntilQuanto := by rw [hupkeep.1]
      have hbefore := ValidatorV7Entry.isFrozen_of_le hfrozen (.inl huntil) hstep.quanto_le
      exact (hkept hbefore).trans (.of_upkeep hupkeep) hupkeep.slashed
    | edit hlabel => cases hlabel
  · rintro log e b b' he ⟨hthawed, v₁, hv₁, hkept⟩ ⟨instr, hact⟩
    obtain ⟨v₂, hv₂, hslashed, huntil, hkept'⟩ := hact.kept hthawed hv₁ he
    refine ⟨hact.step.thawed hthawed, v₂, hv₂, fun hfrozen => ?_⟩
    have hbefore := ValidatorV7Entry.isFrozen_of_le hfrozen huntil hact.step.quanto_le
    have hfront := (hkept hbefore).mono fun e' he' => mem_append_left [e] he'
    have hlast := (hkept' fun _ => hbefore).mono fun e' he' => mem_append_right log he'
    exact hfront.trans hlast hslashed

theorem Runs.thawed (h : b.Runs log b') (hthawed : b.Thawed) : b'.Thawed :=
  h.invariant (I := fun _ b => b.Thawed) hthawed (fun _ _ _ hthawed hstep => hstep.thawed hthawed)
    fun _ _ _ _ hthawed ⟨_, hact⟩ => hact.step.thawed hthawed

end ValidatorBooks

theorem NodeConfig.thawed_genesis [Crypto] [GenesisFormat] {config : NodeConfig}
    {entries : List ValidatorV7Entry} (h : founders 0 [] config.validators = some entries) :
    (ValidatorBooks.genesis config entries).Thawed := by
  intro v hv hremoved
  rw [((mem_founders h).2 v hv).1] at hremoved
  cases hremoved

namespace Chain

variable [Crypto] [WasmEngine] [GenesisFormat] {cfg : LedgerConfig} {config : NodeConfig}
  {accounts : Accounts} {events : List ChainEvent}

/-- A deadline binds: after a committee has set a deadline for the key of a validator, and while
the validator gets no new key and its committee does not act again, the validator is left out from
the deadline on, in every run of validator instructions in which the deadline is not put off. -/
theorem expiry_binds (hsha : ∀ bytes, ¬IsProtocolId (Crypto.sha3 bytes))
    (hseed : config.seedGenesis = some accounts) (hcfg : config.ledgerConfig = some cfg)
    (hv7 : config.economicsV7 = true) (hevents : ∀ event ∈ events, ValidatorsOnly event)
    {i slot : ℕ} {e : Execution} {addr : Pubkey} {q : U64} {approvals : List RecoveryApproval}
    (hi : (run cfg (ofAccounts accounts) events).log[i]? = some e)
    (he : .recoverOp addr (.setExpiry q) approvals ∈ e.onSlot slot) (hq : (q : ℕ) ≠ 0)
    (huntil : ∀ e' ∈ (run cfg (ofAccounts accounts) events).log.drop (i + 1),
      ∀ instr ∈ e'.onSlot slot, instr.isRotation = false ∧ instr.isRecovery = false)
    (hkeeps : ∀ e' ∈ (run cfg (ofAccounts accounts) events).log.drop (i + 1),
      ∀ instr ∈ e'.onSlot slot, instr.KeepsExpiry q) :
    ∃ reg v, storedRegistryV7 (run cfg (ofAccounts accounts) events).ledger.store = some reg ∧
      reg.validators[slot]? = some v ∧
      ∀ q' ≥ q, v.consensusKeyDisabled q' = true ∧ reg.LeavesOut slot q' := by
  obtain ⟨founders, b, _, hruns, hb⟩ := network_books hsha hseed hcfg hv7 hevents
  obtain ⟨b₁, b₂, instr, _, hact, hruns⟩ := hruns.act_at hi
  obtain ⟨rfl, hslot⟩ := hact.mem_onSlot.1 he
  obtain ⟨v, _, hv⟩ := hact.recoverOp_entry hslot
  obtain ⟨v', hv', hexpires⟩ := hruns.expiresBy hv ⟨hq, le_rfl⟩ fun e' he' instr hinstr =>
    ⟨huntil e' he' instr hinstr, hkeeps e' he' instr hinstr⟩
  refine ⟨b.registry, v', hb.storedRegistryV7_eq, hv', fun q' hq' => ?_⟩
  exact ⟨hexpires.disabled hq', ValidatorV7Registry.leavesOut_of_disabled hv'
    (hexpires.disabled hq')⟩

/-- A freeze holds: in every run of validator instructions, no execution touches what the freeze of
a validator protects, unless the committee of the validator acts; and what it protects is the same
at two times between which the committee does not act and at the second of which the validator is
frozen. -/
theorem freeze_holds (hsha : ∀ bytes, ¬IsProtocolId (Crypto.sha3 bytes))
    (hseed : config.seedGenesis = some accounts) (hcfg : config.ledgerConfig = some cfg)
    (hv7 : config.economicsV7 = true) (hevents : ∀ event ∈ events, ValidatorsOnly event)
    (slot : ℕ) :
    (∀ e ∈ (run cfg (ofAccounts accounts) events).log,
      (∀ instr ∈ e.onSlot slot, instr.isRecovery = false) →
      ∀ reg g v, storedRegistryV7 e.before = some reg → storedGlobal e.before = some g →
        reg.validators[slot]? = some v → v.isFrozen g.currentQuanto = true →
        ∃ reg' v', storedRegistryV7 e.after = some reg' ∧ reg'.validators[slot]? = some v' ∧
          Kept [e] v v') ∧
    ∀ events' log', (∀ event ∈ events', ValidatorsOnly event) →
      (run cfg (ofAccounts accounts) (events ++ events')).log.drop
        (run cfg (ofAccounts accounts) events).log.length = log' →
      (∀ e ∈ log', ∀ instr ∈ e.onSlot slot, instr.isRecovery = false) →
      ∀ reg v, storedRegistryV7 (run cfg (ofAccounts accounts) events).ledger.store = some reg →
        reg.validators[slot]? = some v →
        ∃ reg' g' v',
          storedRegistryV7 (run cfg (ofAccounts accounts) (events ++ events')).ledger.store =
            some reg' ∧
          storedGlobal (run cfg (ofAccounts accounts) (events ++ events')).ledger.store =
            some g' ∧
          reg'.validators[slot]? = some v' ∧
          (v'.isFrozen g'.currentQuanto = true → Kept log' v v') := by
  obtain ⟨founders, b, hfounders, hruns, hb⟩ := network_books hsha hseed hcfg hv7 hevents
  have hgenesis := NodeConfig.thawed_genesis hfounders
  constructor
  · intro e he hinstr reg g v hreg hg hv hfrozen
    obtain ⟨i, hi⟩ := mem_iff_getElem?.1 he
    obtain ⟨b₁, b₂, instr, hruns, hact, _⟩ := hruns.act_at hi
    obtain ⟨hbefore, hafter⟩ := hact.storedRegistryV7_eq
    obtain rfl := mem_unique hbefore hreg
    obtain ⟨v', hv', _, _, hkept⟩ := hact.kept (hruns.thawed hgenesis) hv hinstr
    refine ⟨b₂.registry, v', hafter, hv', hkept fun hreads => ?_⟩
    obtain ⟨store, hheld, _⟩ := hact.held
    obtain rfl := mem_unique (hheld.storedGlobal_eq (hact.quanto hreads)) hg
    exact hfrozen
  · rintro events' _ hevents' rfl hinstr reg v hreg hv
    have hrun : run cfg (ofAccounts accounts) (events ++ events') =
        run cfg (run cfg (ofAccounts accounts) events) events' := Run.run_append ..
    obtain ⟨log', b', hlog', hruns', hb'⟩ := run_books hsha
      ((NodeConfig.economicsV7_ledgerConfig hcfg).trans hv7) hevents' hb
    rw [hrun, hlog', drop_left] at hinstr ⊢
    obtain rfl := mem_unique hb.storedRegistryV7_eq hreg
    obtain ⟨v', hv', hkept⟩ := hruns'.kept (hruns.thawed hgenesis) hv hinstr
    exact ⟨b'.registry, b'.global, v', hb'.storedRegistryV7_eq, hb'.storedGlobal_eq, hv', hkept⟩

end Chain

/-! ### A deadline that is put off

A network of one founder, whose committee is one wallet. The committee sets a deadline that has
come, and the operator removes it. Where the operator leaves it, the founder is left out. A founder
that is frozen may still revoke its key. -/

section Founder

instance (q : U64) : DecidablePred (ValidatorV7Instruction.KeepsExpiry q) := fun instr => by
  unfold ValidatorV7Instruction.KeepsExpiry
  split <;> infer_instance

variable (op : RecoveryOp)

/-- The approval of the third wallet for an operation on the founder. -/
def imposeApproval : RecoveryApproval :=
  ⟨walletKeys 2, ⟨[⟨1, List.replicate 64 0⟩, ⟨2, recoveryAuthV1 ++ recoveryMessage
    (@NodeConfig.chainId capFormat memberCrypto (memberConfig [0])) (memberAddress 0) op 0⟩]⟩⟩

/-- The committee carries out an operation, given with its bytes. -/
def impose (bytes : List UInt8) : Instruction :=
  memberInstruction 0 recoveryNames (11 :: (memberAddress 0).toBytes ++ bytes ++
    (toVec [((imposeApproval op).bundle, (imposeApproval op).signature)]).getD [])

/-- The operator sets an expiry for its key. -/
def setExpiry (q : U64) : Instruction :=
  memberInstruction 0 [validatorRegistryAccountId]
    (9 :: (memberAddress 0).toBytes ++ toLeBytes 8 q)

/-- The operator revokes its key. -/
def revokeKey : Instruction :=
  memberInstruction 0 [validatorRegistryAccountId, stakingGlobalId]
    (8 :: (memberAddress 0).toBytes)

/-- The committee is set and carries out an operation, after which the operator acts. -/
def imposeEvents (bytes : List UInt8) (later : List Instruction) :
    List ChainEvent :=
  [memberEvent 0 0 0 [proposeCommittee ⟨[memberAddress 2], 1⟩],
   memberEvent 0 1 7 (setCommittee :: impose op bytes :: later)]

/-- A committee sets a deadline and the operator removes it. -/
def putOffEvents : List ChainEvent :=
  imposeEvents (.setExpiry 7) (3 :: toLeBytes 8 7) [setExpiry 0]

/-- A committee sets a deadline and the operator sets an earlier one. -/
def hastenEvents : List ChainEvent :=
  imposeEvents (.setExpiry 7) (3 :: toLeBytes 8 7) [setExpiry 6]

/-- A committee freezes a validator. -/
def freezeEvents : List ChainEvent :=
  imposeEvents (.freeze 100) (1 :: toLeBytes 8 100) []

/-- The operator revokes its key, while it is frozen. -/
def revokeEvents : List ChainEvent := [memberEvent 0 2 8 [revokeKey]]

/-- The founder is in the committee of validators and gets fees, though its deadline has come. -/
theorem Chain.expiry_put_off :
    (∀ bytes, ¬IsProtocolId (memberCrypto.sha3 bytes)) ∧
      @NodeConfig.seedGenesis capFormat memberCrypto (memberConfig [0]) =
        some (memberAccounts [0]) ∧
      (memberConfig [0]).ledgerConfig = some memberSettings ∧
      (memberConfig [0]).economicsV7 = true ∧
      (∀ event ∈ putOffEvents, ValidatorsOnly event) ∧
      (∃ e, (memberChain [0] putOffEvents).log[2]? = some e ∧
        .recoverOp (memberAddress 0) (.setExpiry 7) [imposeApproval (.setExpiry 7)] ∈
          @Execution.onSlot memberCrypto e 0) ∧
      (∀ e ∈ (memberChain [0] putOffEvents).log.drop 3,
        ∀ instr ∈ @Execution.onSlot memberCrypto e 0,
          instr.isRotation = false ∧ instr.isRecovery = false) ∧
      ∃ reg v, storedRegistryV7 (memberChain [0] putOffEvents).ledger.store = some reg ∧
        reg.validators[0]? = some v ∧ v.consensusKeyDisabled 7 = false ∧
        reg.activeCommittee 7 ≠ ValidatorV7Registry.activeCommittee ⟨reg.validators.eraseIdx 0⟩ 7 ∧
        eligibleAddresses reg 7 ≠ eligibleAddresses ⟨reg.validators.eraseIdx 0⟩ 7 := by
  refine ⟨memberCrypto_sha3, by decide +kernel, by decide +kernel, rfl,
    by decide +kernel, ?_⟩
  -- what is asked of each value stands right after where it is read, and can be decided
  simp only [exists_and_left]
  decide +kernel

/-- A deadline that has come, and that the operator has hastened. -/
theorem Chain.expiry_binds_hastened :
    (∀ e ∈ (memberChain [0] hastenEvents).log.drop 3,
        ∀ instr ∈ @Execution.onSlot memberCrypto e 0, instr.KeepsExpiry 7) ∧
      ∃ reg v, storedRegistryV7 (memberChain [0] hastenEvents).ledger.store = some reg ∧
        reg.validators[0]? = some v ∧
        ∀ q ≥ 7, v.consensusKeyDisabled q = true ∧ reg.LeavesOut 0 q := by
  have hrun : (∃ e, (memberChain [0] hastenEvents).log[2]? = some e ∧
        .recoverOp (memberAddress 0) (.setExpiry 7) [imposeApproval (.setExpiry 7)] ∈
          @onSlot memberCrypto e 0) ∧
      (∀ e ∈ (memberChain [0] hastenEvents).log.drop 3,
        ∀ instr ∈ @onSlot memberCrypto e 0,
          instr.isRotation = false ∧ instr.isRecovery = false) ∧
      ∀ e ∈ (memberChain [0] hastenEvents).log.drop 3,
        ∀ instr ∈ @onSlot memberCrypto e 0, instr.KeepsExpiry 7 := by
    decide +kernel
  obtain ⟨⟨e, he, hfacts⟩, huntil, hkeeps⟩ := hrun
  refine ⟨hkeeps, ?_⟩
  unfold memberChain at he huntil hkeeps ⊢
  exact @expiry_binds memberCrypto WasmEngine.none capFormat memberSettings (memberConfig [0])
    (memberAccounts [0]) hastenEvents memberCrypto_sha3 (by decide +kernel)
    (by decide +kernel) rfl (by decide +kernel) 2 0 e _ 7 _ he hfacts (by decide) huntil hkeeps

/-- A founder that is frozen revokes its key, and keeps its addresses and its bond. -/
theorem Chain.freeze_holds_revoked :
    ∃ reg reg' g v v', storedRegistryV7 (memberChain [0] freezeEvents).ledger.store = some reg ∧
      storedRegistryV7 (memberChain [0] (freezeEvents ++ revokeEvents)).ledger.store = some reg' ∧
      storedGlobal (memberChain [0] (freezeEvents ++ revokeEvents)).ledger.store = some g ∧
      reg.validators[0]? = some v ∧ reg'.validators[0]? = some v' ∧
      v'.consensusKeyRevoked = true ∧ v'.isFrozen g.currentQuanto = true ∧
      Kept ((memberChain [0] (freezeEvents ++ revokeEvents)).log.drop
        (memberChain [0] freezeEvents).log.length) v v' := by
  have hrun : (∃ reg, storedRegistryV7 (memberChain [0] freezeEvents).ledger.store = some reg ∧
        reg.validators[0]?.isSome = true) ∧
      (∃ reg, storedRegistryV7 (memberChain [0] (freezeEvents ++ revokeEvents)).ledger.store =
        some reg ∧ ∃ g,
          storedGlobal (memberChain [0] (freezeEvents ++ revokeEvents)).ledger.store = some g ∧
          ∃ v, reg.validators[0]? = some v ∧ v.consensusKeyRevoked = true ∧
            v.isFrozen g.currentQuanto = true) ∧
      ∀ e ∈ (memberChain [0] (freezeEvents ++ revokeEvents)).log.drop
          (memberChain [0] freezeEvents).log.length,
        ∀ instr ∈ @onSlot memberCrypto e 0, instr.isRecovery = false := by
    decide +kernel
  obtain ⟨⟨reg, hreg, hentry⟩, ⟨reg', hreg', g, hg, v', hv', hrevoked, hfrozen⟩, hinstr⟩ := hrun
  obtain ⟨v, hv⟩ := isSome_iff_exists.1 hentry
  refine ⟨reg, reg', g, v, v', hreg, hreg', hg, hv, hv', hrevoked, hfrozen, ?_⟩
  unfold memberChain at hreg hreg' hg hinstr ⊢
  obtain ⟨_, hholds⟩ := @freeze_holds memberCrypto WasmEngine.none capFormat memberSettings
    (memberConfig [0]) (memberAccounts [0]) freezeEvents memberCrypto_sha3
    (by decide +kernel) (by decide +kernel) rfl (by decide +kernel) 0
  obtain ⟨reg'', g'', v'', hreg'', hg'', hv'', hkept⟩ :=
    hholds revokeEvents _ (by decide +kernel) rfl hinstr reg v hreg hv
  obtain rfl := mem_unique hreg' hreg''
  obtain rfl := mem_unique hg hg''
  obtain rfl := mem_unique hv' hv''
  exact hkept hfrozen

end Founder

end QChain
