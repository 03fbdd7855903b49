import QChain.Execution.ValidatorHistory

/-!
# Validators are told apart

No two validators of the registry share a consensus key, an operator, a withdrawal address or a
moniker, apart from those that were removed. But the check of a registration passes over the entries
that already have the key: where a removed validator is registered again, and another one has taken
its key in the meantime, there are two with the same key.
-/

namespace QChain

open Borsh Exec List Transact

/-! ### Registries -/

/-- Two validators that share no address in the same role and no moniker. -/
structure Apart (v v' : ValidatorV7Entry) : Prop where
  address : v.address ≠ v'.address
  operatorAddress : v.operatorAddress ≠ v'.operatorAddress
  withdrawalAddress : v.withdrawalAddress ≠ v'.withdrawalAddress
  moniker : v.moniker.bytes ≠ v'.moniker.bytes

theorem Apart.symm {v v' : ValidatorV7Entry} (h : Apart v v') : Apart v' v :=
  ⟨h.address.symm, h.operatorAddress.symm, h.withdrawalAddress.symm, h.moniker.symm⟩

/-- What a validator is told apart by. -/
def ValidatorV7Entry.names (v : ValidatorV7Entry) : Pubkey × Pubkey × Pubkey × List UInt8 :=
  (v.address, v.operatorAddress, v.withdrawalAddress, v.moniker.bytes)

theorem Apart.of_names {v v' w : ValidatorV7Entry} (h : Apart v w) (hnames : v'.names = v.names) :
    Apart v' w := by
  simp only [ValidatorV7Entry.names, Prod.mk.injEq] at hnames
  obtain ⟨haddress, hoperator, hwithdrawal, hmoniker⟩ := hnames
  exact ⟨haddress ▸ h.address, hoperator ▸ h.operatorAddress, hwithdrawal ▸ h.withdrawalAddress,
    hmoniker ▸ h.moniker⟩

/-- Two validators, none of which was removed, share nothing. -/
def LiveApart (v v' : ValidatorV7Entry) : Prop :=
  v.state ≠ .removed → v'.state ≠ .removed → Apart v v'

theorem LiveApart.symm {v v' : ValidatorV7Entry} (h : LiveApart v v') : LiveApart v' v :=
  fun hlive' hlive => (h hlive hlive').symm

/-- The validators of a registry that were not removed are told apart by every address and by
their monikers. -/
def ValidatorV7Registry.Unique (reg : ValidatorV7Registry) : Prop :=
  reg.validators.Pairwise LiveApart

section Lists

variable {α : Type*} {R : α → α → Prop} {l : List α} {i j : ℕ} {x y : α}

theorem pairwise_getElem? (hR : ∀ {x y}, R x y → R y x) (h : l.Pairwise R) (hij : i ≠ j)
    (hx : l[i]? = some x) (hy : l[j]? = some y) : R x y := by
  obtain ⟨hi, rfl⟩ := List.getElem?_eq_some_iff.1 hx
  obtain ⟨hj, rfl⟩ := List.getElem?_eq_some_iff.1 hy
  rw [pairwise_iff_getElem] at h
  rcases Nat.lt_or_gt_of_ne hij with hlt | hlt
  · exact h i j hi hj hlt
  · exact hR (h j i hj hi hlt)

/-- An entry is replaced by one that is related to all others. -/
theorem pairwise_set (hR : ∀ {x y}, R x y → R y x) (h : l.Pairwise R)
    (hy : ∀ j x, j ≠ i → l[j]? = some x → R x y) : (l.set i y).Pairwise R := by
  rw [pairwise_iff_getElem] at h ⊢
  intro a b ha hb hab
  rw [length_set] at ha hb
  rw [getElem_set, getElem_set]
  split_ifs with hia hib hib
  · omega
  · exact hR (hy b _ (Ne.symm hib) (getElem?_eq_getElem hb))
  · exact hy a _ (Ne.symm hia) (getElem?_eq_getElem ha)
  · exact h a b ha hb hab

end Lists

namespace ValidatorV7Registry

variable {reg reg' : ValidatorV7Registry} {a k : Pubkey} {moniker : List UInt8}
  {v : ValidatorV7Entry}

/-- An address that is not in use is no address of another validator. -/
theorem ne_of_not_inUse (h : reg.addressInUse a k = false) (hv : v ∈ reg.validators)
    (hlive : v.state ≠ .removed) (hne : v.address ≠ a) :
    v.address ≠ k ∧ v.operatorAddress ≠ k ∧ v.withdrawalAddress ≠ k := by
  rw [addressInUse, any_eq_false] at h
  have hnot := h v hv
  rw [decide_eq_true_iff] at hnot
  refine ⟨?_, ?_, ?_⟩
  · rintro rfl
    exact hnot ⟨hlive, hne, .inl rfl⟩
  · rintro rfl
    exact hnot ⟨hlive, hne, .inr (.inl rfl)⟩
  · rintro rfl
    exact hnot ⟨hlive, hne, .inr (.inr rfl)⟩

theorem ne_of_not_taken (h : reg.monikerTaken moniker a = false) (hv : v ∈ reg.validators)
    (hlive : v.state ≠ .removed) (hne : v.address ≠ a) : v.moniker.bytes ≠ moniker := by
  rw [monikerTaken, any_eq_false] at h
  have hnot := h v hv
  rw [decide_eq_true_iff] at hnot
  exact fun heq => hnot ⟨heq, hlive, hne⟩

/-- Upkeep leaves validators told apart. -/
theorem Unique.upkeep (h : reg.Unique) (hupkeep : Upkeep reg reg') : reg'.Unique := by
  have hnames : List.Forall₂ (fun v v' : ValidatorV7Entry => v'.names = v.names) reg.validators
      reg'.validators := by
    refine hupkeep.imp ?_
    rintro v v' ⟨hentry, _⟩
    rw [hentry]
    rfl
  have hstates := forall₂_upkeep hupkeep
  have hlength := hupkeep.length_eq
  unfold Unique at h ⊢
  rw [pairwise_iff_getElem] at h ⊢
  intro i j hi hj hij hlive hlive'
  obtain ⟨_, _, _, hremoved⟩ := hstates.get (hlength ▸ hi) hi
  obtain ⟨_, _, _, hremoved'⟩ := hstates.get (hlength ▸ hj) hj
  have hapart := h i j (hlength ▸ hi) (hlength ▸ hj) hij (fun hstate => hlive (hremoved.2 hstate))
    fun hstate => hlive' (hremoved'.2 hstate)
  have hleft := hapart.of_names (hnames.get (hlength ▸ hi) hi)
  exact (hleft.symm.of_names (hnames.get (hlength ▸ hj) hj)).symm

end ValidatorV7Registry

/-! ### Steps -/

/-- The entry of a new validator shares nothing with the others. -/
theorem Registration.apart [Crypto] {reg : ValidatorV7Registry} {q : U64}
    {bundle : PublicKeyBundle} {v e : ValidatorV7Entry} (h : Registration reg q bundle e)
    (hv : v ∈ reg.validators) (hlive : v.state ≠ .removed) (hne : v.address ≠ e.address) :
    Apart v e := by
  have hfree := h.free
  simp only [forall_mem_cons] at hfree
  obtain ⟨_, hoperator, hwithdrawal, _⟩ := hfree
  exact ⟨hne, (ValidatorV7Registry.ne_of_not_inUse hoperator hv hlive hne).2.1,
    (ValidatorV7Registry.ne_of_not_inUse hwithdrawal hv hlive hne).2.2,
    ValidatorV7Registry.ne_of_not_taken h.moniker hv hlive hne⟩

namespace ValidatorBooks

variable [Crypto] {b b' : ValidatorBooks} {v e e' : ValidatorV7Entry}
  {instr : ValidatorV7Instruction} {label : Option ValidatorV7Instruction} {idx : ℕ}

/-- An instruction leaves the validator it edits apart from another one. -/
theorem Edit.apart (h : b.Edit e instr e') (hv : v ∈ b.registry.validators)
    (hapart : LiveApart v e)
    (hfresh : instr.isRegistration = true → v.state ≠ .removed → v.address ≠ e'.address) :
    LiveApart v e' := by
  intro hlive hlive'
  have hsame : e'.names = e.names → e.state ≠ .removed → Apart v e' := fun hnames hstate =>
    ((hapart hlive hstate).symm.of_names hnames).symm
  have hnew : ∀ {k}, e.state ≠ .removed → b.registry.addressInUse e.address k = false →
      v.address ≠ k ∧ v.operatorAddress ≠ k ∧ v.withdrawalAddress ≠ k := fun hstate hfree =>
    ValidatorV7Registry.ne_of_not_inUse hfree hv hlive (hapart hlive hstate).address
  cases h with
  | unjail hjailed => exact hsame rfl (hjailed ▸ by decide)
  | revokeKey hstate | expiry hstate | slash _ hstate => exact hsame rfl hstate
  | exit hstate => exact hsame rfl (by rcases hstate with h | h | h <;> rw [h] <;> decide)
  | withdraw => exact absurd rfl hlive'
  | @recover op _ hop =>
    cases op with
    | revoke => exact hsame rfl (by rcases hop with h | h | h <;> rw [h] <;> decide)
    | freeze | unfreeze | setExpiry => exact hsame rfl hlive'
  | operator hstate _ hfree =>
    obtain ⟨haddress, _, hwithdrawal, hmoniker⟩ := hapart hlive hstate
    exact ⟨haddress, (hnew hstate hfree).2.1, hwithdrawal, hmoniker⟩
  | withdrawal hstate _ hfree =>
    obtain ⟨haddress, hoperator, _, hmoniker⟩ := hapart hlive hstate
    exact ⟨haddress, hoperator, (hnew hstate hfree).2.2, hmoniker⟩
  | rotate hstate _ _ hfree | accept hstate _ _ hfree =>
    obtain ⟨_, hoperator, hwithdrawal, hmoniker⟩ := hapart hlive hstate
    exact ⟨(hnew hstate hfree).1, hoperator, hwithdrawal, hmoniker⟩
  | registerAgain _ _ hregistration => exact hregistration.apart hv hlive (hfresh rfl hlive)

/-- A step leaves validators told apart, unless it registers the key of one of them. -/
theorem Step.unique (h : b.Step label b') (hunique : b.registry.Unique)
    (hfresh : ∀ instr, label = some instr → instr.isRegistration = true →
      ∀ v ∈ b.registry.validators, instr.target = some v.address → v.state = .removed) :
    b'.registry.Unique := by
  have hset : ∀ {instr idx e e'}, label = some instr → b.registry.validators[idx]? = some e →
      b.Edit e instr e' → ValidatorV7Registry.Unique ⟨b.registry.validators.set idx e'⟩ := by
    intro instr idx e e' hlabel he hedit
    refine pairwise_set LiveApart.symm hunique fun j v hj hv => ?_
    refine hedit.apart (mem_of_getElem? hv)
      (pairwise_getElem? LiveApart.symm hunique hj hv he) fun hregistration hlive haddress => ?_
    apply hlive
    refine hfresh instr hlabel hregistration v (mem_of_getElem? hv) ?_
    rw [haddress, hedit.target (by cases instr <;> first | rfl | cases hregistration)]
    rw [hedit.address (by cases instr <;> first | rfl | cases hregistration)]
  cases h with
  | close | pending | rotation | committee => exact hunique
  | upkeep hupkeep => exact hunique.upkeep hupkeep
  | edit _ _ _ he hedit | slash he hedit | recover _ _ _ _ _ _ _ he hedit => exact hset rfl he hedit
  | register hfind hregistration =>
    rw [ValidatorV7Registry.find, findIdx?_eq_none_iff] at hfind
    refine pairwise_append.2 ⟨hunique, pairwise_singleton _ _, fun v hv e he => ?_⟩
    obtain rfl := mem_singleton.1 he
    exact fun hlive _ => hregistration.apart hv hlive (of_decide_eq_false (hfind v hv))

end ValidatorBooks

/-! ### Founders -/

namespace NodeConfig

variable [Crypto] {validators : List ValidatorConfig} {entries : List ValidatorV7Entry}

/-- The withdrawal address of a founder. -/
def founderWithdrawal (v : ValidatorConfig) : Pubkey :=
  v.withdrawalAddress.getD v.pubkeyBundle.toAddress

/-- The keys and withdrawal addresses of founders come from the settings, and no moniker is used
twice. -/
theorem founders_names {i : ℕ} {used : List (List UInt8)}
    (h : founders i used validators = some entries) :
    entries.map (·.address) = validators.map (·.pubkeyBundle.toAddress) ∧
      entries.map (·.operatorAddress) = validators.map (·.pubkeyBundle.toAddress) ∧
      entries.map (·.withdrawalAddress) = validators.map founderWithdrawal ∧
      (entries.map (·.moniker.bytes)).Nodup ∧ ∀ e ∈ entries, e.moniker.bytes ∉ used := by
  induction validators generalizing i used entries with
  | nil =>
    obtain rfl := Option.some.inj h
    exact ⟨rfl, rfl, rfl, nodup_nil, fun e he => nomatch he⟩
  | cons v rest ih =>
    simp only [founders, Option.bind_eq_bind, Option.bind_eq_some_iff] at h
    obtain ⟨moniker, hmoniker, text, htext, entries', hrest, h⟩ := h
    obtain rfl := Option.some.inj h
    obtain ⟨haddress, hoperator, hwithdrawal, hnodup, hunused⟩ := ih hrest
    have hbytes : text.bytes = moniker := ofUtf8_eq_some.1 htext
    have hfree : moniker ∉ used := by
      have hfound := find?_some hmoniker
      simpa using hfound
    refine ⟨congrArg _ haddress, congrArg _ hoperator, congrArg _ hwithdrawal, ?_, ?_⟩
    · rw [map_cons, nodup_cons, mem_map]
      refine ⟨?_, hnodup⟩
      rintro ⟨e, he, hsame⟩
      apply hunused e he
      rw [hsame, hbytes]
      exact mem_cons_self ..
    · intro e he
      rcases mem_cons.1 he with rfl | he
      · rw [hbytes]
        exact hfree
      · exact fun hmem => hunused e he (mem_cons_of_mem _ hmem)

/-- Founders with different keys and withdrawal addresses are told apart. -/
theorem unique_founders (h : founders 0 [] validators = some entries)
    (hkeys : (validators.map (·.pubkeyBundle.toAddress)).Nodup)
    (hwithdrawals : (validators.map founderWithdrawal).Nodup) :
    ValidatorV7Registry.Unique ⟨entries⟩ := by
  obtain ⟨haddress, hoperator, hwithdrawal, hmoniker, _⟩ := founders_names h
  have haddresses := pairwise_map.1 (haddress ▸ hkeys)
  have hoperators := pairwise_map.1 (hoperator ▸ hkeys)
  have hwithdrawals := pairwise_map.1 (hwithdrawal ▸ hwithdrawals)
  have hmonikers := pairwise_map.1 hmoniker
  refine (((haddresses.and hoperators).and hwithdrawals).and hmonikers).imp ?_
  rintro v v' ⟨⟨⟨haddress, hoperator⟩, hwithdrawal⟩, hmoniker⟩ _ _
  exact ⟨haddress, hoperator, hwithdrawal, hmoniker⟩

end NodeConfig

/-! ### Runs -/

/-- An execution that registers no key of a validator that was not removed. -/
def FreshKey [Crypto] (e : Execution) : Prop :=
  match ValidatorV7Instruction.decode.all e.ix.data with
  | some (.bondAndRegister _ pubkeyBundle _ _ _) => ∀ reg ∈ storedRegistryV7 e.before,
    ∀ v ∈ reg.validators, v.address = pubkeyBundle.toAddress → v.state = .removed
  | _ => True

theorem ValidatorBooks.Act.fresh [Crypto] {b b' : ValidatorBooks} {e : Execution}
    {instr : ValidatorV7Instruction} (h : b.Act e b' instr) (hfresh : FreshKey e)
    (hregistration : instr.isRegistration = true) :
    ∀ v ∈ b.registry.validators, instr.target = some v.address → v.state = .removed := by
  rw [FreshKey, h.decode] at hfresh
  cases instr with
  | bondAndRegister =>
    intro v hv htarget
    exact hfresh _ h.storedRegistryV7_eq.1 v hv (Option.some.inj htarget).symm
  | _ => cases hregistration

/-- Validators are told apart: in every run of validator instructions that starts with different
founders and registers only fresh keys, no two validators share an address or a moniker, apart from
those that were removed. -/
theorem Chain.registry_unique [Crypto] [WasmEngine] [GenesisFormat] {cfg : LedgerConfig}
    {config : NodeConfig} {accounts : Accounts} {events : List ChainEvent}
    (hsha : ∀ bytes, ¬IsProtocolId (Crypto.sha3 bytes))
    (hseed : config.seedGenesis = some accounts) (hcfg : config.ledgerConfig = some cfg)
    (hv7 : config.economicsV7 = true)
    (hkeys : (config.validators.map (·.pubkeyBundle.toAddress)).Nodup)
    (hwithdrawals : (config.validators.map NodeConfig.founderWithdrawal).Nodup)
    (hevents : ∀ event ∈ events, ValidatorsOnly event)
    (hfresh : ∀ e ∈ (run cfg (ofAccounts accounts) events).log, FreshKey e) :
    ∃ reg, storedRegistryV7 (run cfg (ofAccounts accounts) events).ledger.store = some reg ∧
      reg.Unique := by
  obtain ⟨founders, b, hfounders, hruns, hb⟩ := network_books hsha hseed hcfg hv7 hevents
  refine ⟨b.registry, hb.storedRegistryV7_eq, ?_⟩
  refine hruns.invariant_along (I := fun _ b => b.registry.Unique) (.of_forall hfresh)
    (NodeConfig.unique_founders hfounders hkeys hwithdrawals) ?_ ?_
  · intro _ b b' hunique hstep
    exact hstep.unique hunique fun instr hlabel => nomatch hlabel
  · rintro _ e b b' hfresh hunique ⟨instr, hact⟩
    refine hact.step.unique hunique fun instr' hlabel hregistration => ?_
    obtain rfl := Option.some.inj hlabel
    exact hact.fresh hfresh hregistration

/-! ### A key that is registered twice

A network of two founders. The first one leaves, the second one takes its key, and the key is then
registered again in the slot of the first one: there are two validators with this key. -/

section Twins

instance [Crypto] : DecidablePred FreshKey := fun e =>
  decidable_of_iff (∀ instr ∈ ValidatorV7Instruction.decode.all e.ix.data,
    instr.isRegistration = true → ∀ reg ∈ storedRegistryV7 e.before, ∀ v ∈ reg.validators,
      some v.address = instr.target → v.state = .removed) <| by
    unfold FreshKey
    cases ValidatorV7Instruction.decode.all e.ix.data with
    | none => simp
    | some instr =>
      cases instr <;>
        simp [ValidatorV7Instruction.isRegistration, ValidatorV7Instruction.target]

/-- The first founder leaves and the second takes its key, which is then registered again. -/
def twinEvents : List ChainEvent :=
  [memberEvent 0 0 0 [leave 0],
   memberEvent 0 1 1 [withdraw 0],
   memberEvent 2 0 1 [takeKey 2 0],
   memberEvent 3 0 1 [registerKey 3 0]]

/-- The second founder takes a fresh key, and another one is registered. -/
def freshEvents : List ChainEvent :=
  [memberEvent 2 0 1 [takeKey 2 4],
   memberEvent 3 0 1 [registerKey 3 5]]

/-- Two validators have the same key. -/
theorem Chain.registry_twins :
    (∀ bytes, ¬IsProtocolId (memberCrypto.sha3 bytes)) ∧
      @NodeConfig.seedGenesis capFormat memberCrypto (memberConfig [0, 2]) =
        some (memberAccounts [0, 2]) ∧
      (memberConfig [0, 2]).ledgerConfig = some memberSettings ∧
      (memberConfig [0, 2]).economicsV7 = true ∧
      ((memberConfig [0, 2]).validators.map fun v =>
        @PublicKeyBundle.toAddress memberCrypto v.pubkeyBundle).Nodup ∧
      ((memberConfig [0, 2]).validators.map (@NodeConfig.founderWithdrawal memberCrypto)).Nodup ∧
      (∀ event ∈ twinEvents, ValidatorsOnly event) ∧
      ∃ reg v v', storedRegistryV7 (memberChain [0, 2] twinEvents).ledger.store = some reg ∧
        reg.validators = [v, v'] ∧ v.state = .bondedPending ∧ v'.state = .active ∧
        v.address = v'.address := by
  refine ⟨memberCrypto_sha3, by decide +kernel, by decide +kernel, rfl,
    by decide +kernel, by decide +kernel, by decide +kernel, ?_⟩
  obtain ⟨reg, hreg, hentries⟩ :
      ∃ reg, storedRegistryV7 (memberChain [0, 2] twinEvents).ledger.store = some reg ∧
        reg.validators.map (fun v => (v.state, v.address)) =
          [(.bondedPending, memberAddress 0), (.active, memberAddress 0)] := by
    decide +kernel
  match hvalidators : reg.validators with
  | [] | [_] | _ :: _ :: _ :: _ => simp [hvalidators] at hentries
  | [v, v'] =>
    simp only [hvalidators, map_cons, map_nil, List.cons.injEq, Prod.mk.injEq] at hentries
    obtain ⟨⟨hstate, haddress⟩, ⟨hstate', haddress'⟩, _⟩ := hentries
    exact ⟨reg, v, v', hreg, hvalidators, hstate, hstate', haddress.trans haddress'.symm⟩

/-- Validators are told apart after one takes a key and another is registered. -/
theorem Chain.registry_unique_fresh :
    (∀ e ∈ (memberChain [0, 2] freshEvents).log, @FreshKey memberCrypto e) ∧
      (memberChain [0, 2] freshEvents).log.length = 2 ∧
      ∃ reg, storedRegistryV7 (memberChain [0, 2] freshEvents).ledger.store = some reg ∧
        reg.Unique := by
  have hrun : (∀ e ∈ (memberChain [0, 2] freshEvents).log, @FreshKey memberCrypto e) ∧
      (memberChain [0, 2] freshEvents).log.length = 2 := by decide +kernel
  refine ⟨hrun.1, hrun.2, ?_⟩
  have hfresh := hrun.1
  unfold memberChain at hfresh ⊢
  exact @registry_unique memberCrypto WasmEngine.none capFormat memberSettings
    (memberConfig [0, 2]) (memberAccounts [0, 2]) freshEvents memberCrypto_sha3
    (by decide +kernel) (by decide +kernel) rfl (by decide +kernel)
    (by decide +kernel) (by decide +kernel) hfresh

end Twins

end QChain
