import QChain.Execution.Evidence
import QChain.Execution.Uniqueness

/-!
# Validators answer for the keys they gave up

A validator that rotates its consensus key keeps the old one in a list, with the quanto until which
it can be held against the validator. A later rotation drops keys whose window ends at its quanto,
although a report is still good then, and the key whose window ends first if there are too many. And
a report is held against whoever has the key now, or the first who retired it.
-/

namespace QChain

open Borsh Exec List Option Transact ValidatorV7Entry

/-! ### Keys -/

/-- The keys a validator answers for: the current one, and those it has retired. -/
def ValidatorV7Entry.keys (v : ValidatorV7Entry) : List Pubkey :=
  v.address :: v.retiredConsensusKeys.map (·.address)

/-- The validator in a slot answers for a key. -/
def ValidatorV7Registry.HasKey (reg : ValidatorV7Registry) (slot : ℕ) (k : Pubkey) : Prop :=
  ∃ v, reg.validators[slot]? = some v ∧ k ∈ v.keys

/-- No two validators answer for the same key. -/
def ValidatorV7Registry.Separate (reg : ValidatorV7Registry) : Prop :=
  ∀ slot slot' k, reg.HasKey slot k → reg.HasKey slot' k → slot = slot'

/-- The key that an instruction gives a validator. -/
def ValidatorV7Instruction.newKey [Crypto] (w : Accounts) : ValidatorV7Instruction → Option Pubkey
  | bondAndRegister _ consensusBundle _ _ _ => some consensusBundle.toAddress
  | rotateConsensusKey _ newBundle _ _ => some newBundle.toAddress
  | acceptConsensusKeyRotation consensusAddress _ => do
    let cr : ConsensusRotationRegistry ← storedLazy w validatorConsensusRotationRegistryId
    let pending ← cr.pending[← cr.find consensusAddress]?
    some pending.newBundle.toAddress
  | _ => none

/-- Room for one more retired key at a quanto: no window ends then, and not too many are open. -/
@[mk_iff]
structure ValidatorV7Entry.HasRoom (v : ValidatorV7Entry) (q : U64) : Prop where
  none_ends : ∀ r ∈ v.retiredConsensusKeys, r.slashUntilQuanto ≠ q
  room : (v.retiredConsensusKeys.filter fun r => q < r.slashUntilQuanto).length <
    maxRetiredConsensusKeys

/-- An execution that lets validators answer for their keys: a key that it gives a validator is no
key of another one, and a rotation drops no key whose window is open. -/
def KeepsAccountable [Crypto] (e : Execution) : Prop :=
  ∀ instr ∈ ValidatorV7Instruction.decode.all e.ix.data, ∀ reg ∈ storedRegistryV7 e.before,
    ∀ v ∈ reg.validators,
      (∀ k ∈ instr.newKey e.before, k ∈ v.keys → instr.target = some v.address) ∧
      (instr.isRotation = true → instr.target = some v.address →
        ∀ g ∈ storedGlobal e.before, v.HasRoom g.currentQuanto)

namespace ValidatorV7Entry

variable {v : ValidatorV7Entry} {q : U64} {r : RetiredConsensusKey} {window : ℕ}

/-- With room for it, a key is retired and no open window is lost. -/
theorem HasRoom.retire (h : v.HasRoom q) (old : Pubkey) :
    (v.retireConsensusKey old q window).retiredConsensusKeys =
      (v.retiredConsensusKeys.filter fun r => q < r.slashUntilQuanto) ++
        [⟨old, Word.clamp (q + window)⟩] := by
  have hroom := h.room
  unfold retireConsensusKey
  dsimp only
  rw [if_neg]
  rw [length_append, length_singleton]
  omega

theorem HasRoom.mem_retire (h : v.HasRoom q) (old : Pubkey) :
    (⟨old, Word.clamp (q + window)⟩ : RetiredConsensusKey) ∈
      (v.retireConsensusKey old q window).retiredConsensusKeys := by
  rw [h.retire]
  exact mem_append_right _ (mem_singleton_self _)

theorem HasRoom.mem_retire_of_open (h : v.HasRoom q) (old : Pubkey)
    (hr : r ∈ v.retiredConsensusKeys) (hopen : q ≤ r.slashUntilQuanto) :
    r ∈ (v.retireConsensusKey old q window).retiredConsensusKeys := by
  rw [h.retire]
  refine mem_append_left _ (mem_filter.2 ⟨hr, decide_eq_true ?_⟩)
  exact lt_of_le_of_ne hopen (h.none_ends r hr).symm

/-- Only the key that is given up is added to the retired ones. -/
theorem mem_retire {old : Pubkey}
    (hr : r ∈ (v.retireConsensusKey old q window).retiredConsensusKeys) :
    r ∈ v.retiredConsensusKeys ∨ r.address = old := by
  have hkeys : r ∈ v.retiredConsensusKeys.filter (fun r => q < r.slashUntilQuanto) ++
      [⟨old, Word.clamp (q + window)⟩] := by
    unfold retireConsensusKey at hr
    dsimp only at hr
    split_ifs at hr
    · exact mem_of_mem_eraseIdx hr
    · exact hr
  rcases mem_append.1 hkeys with hold | hnew
  · exact .inl (mem_of_mem_filter hold)
  · exact .inr (by rw [mem_singleton.1 hnew])

/-- The keys of a validator after a rotation. -/
theorem mem_keys_rotated [Crypto] {newBundle : PublicKeyBundle} {newP2pAddress : Utf8} {k : Pubkey}
    (hk : k ∈ (v.rotated newBundle newP2pAddress q).keys) :
    k = newBundle.toAddress ∨ k ∈ v.keys := by
  rcases mem_cons.1 hk with rfl | hk
  · exact .inl rfl
  · obtain ⟨r, hr, rfl⟩ := List.mem_map.1 hk
    refine .inr ?_
    rcases mem_retire hr with hold | hnew
    · exact mem_cons_of_mem _ (List.mem_map.2 ⟨r, hold, rfl⟩)
    · rw [hnew]
      exact mem_cons_self ..

end ValidatorV7Entry

/-! ### Steps -/

namespace ValidatorV7Program

variable [Crypto] {ix : Instruction} {w : Accounts} {addr : Pubkey} {acceptPop : MultiSignature}

/-- An accepted rotation gives the validator the key that was proposed. -/
theorem acceptConsensusKeyRotation_newKey :
    Wp (acceptConsensusKeyRotation ix addr acceptPop) w fun _ w' => ∃ reg idx v',
      storedRegistryV7 w = some reg ∧ reg.find addr = some idx ∧
      storedRegistryV7 w' = some ⟨reg.validators.set idx v'⟩ ∧
      (ValidatorV7Instruction.acceptConsensusKeyRotation addr acceptPop).newKey w =
        some v'.address := by
  simp only [acceptConsensusKeyRotation, readConsensusRotationRegistry, wp_stepsV7]
  rintro _ _ _ _ _ _ ⟨rfl, rfl, rfl⟩ cr hcr ci hci p hp _ reg hreg idx hfind
    e he ⟨_, hremoved⟩ _ g hg hfrozen
  refine wp_applyConsensusRotation_rotated fun hne hfree => ?_
  refine wp_writeRegistryV7_stored.mono fun _ w₁ h₁ => ?_
  simp only [writeConsensusRotationRegistry, writeLazy, wp_steps, wp_put]
  intro bytes _
  refine ⟨reg, idx, e.rotated p.newBundle p.newP2pAddress g.currentQuanto, hreg, hfind, ?_, ?_⟩
  · rw [← h₁]
    exact storedRegistryV7_congr (Finmap.lookup_insert_of_ne _ (by decide))
  · simp only [ValidatorV7Instruction.newKey, hcr, hci, hp, bind_eq_bind, bind_some]
    rfl

end ValidatorV7Program

namespace ValidatorBooks

variable [Crypto] {b b' : ValidatorBooks} {e : Execution} {instr : ValidatorV7Instruction}
  {v v' : ValidatorV7Entry} {slot : ℕ} {k : Pubkey}

theorem Act.accepted {addr : Pubkey} {acceptPop : MultiSignature}
    (h : b.Act e b' (.acceptConsensusKeyRotation addr acceptPop))
    (hv' : b'.registry.validators[slot]? = some v') (hfind : b.registry.find addr = some slot) :
    (ValidatorV7Instruction.acceptConsensusKeyRotation addr acceptPop).newKey e.before =
      some v'.address := by
  have hprocess : ValidatorV7Program.process e.ix e.payer =
      ValidatorV7Program.acceptConsensusKeyRotation e.ix addr acceptPop := by
    unfold ValidatorV7Program.process
    rw [h.decode]
    rfl
  have hrun := h.run
  rw [hprocess] at hrun
  obtain ⟨hbefore, hafter⟩ := h.storedRegistryV7_eq
  obtain ⟨reg, idx, v₁, hreg, hfind', hreg', hkey⟩ :=
    ValidatorV7Program.acceptConsensusKeyRotation_newKey _ _ hrun
  obtain rfl := mem_unique hbefore hreg
  obtain rfl := mem_unique hfind hfind'
  obtain ⟨hlt, _⟩ := findIdx?_eq_some_iff_getElem.1 hfind
  rw [mem_unique hafter hreg', getElem?_set_self hlt] at hv'
  rw [hkey, Option.some.inj hv']

/-- A rotation gives the validator it names the new key of the instruction. -/
theorem Act.rotated (h : b.Act e b' instr) (hv : b.registry.validators[slot]? = some v)
    (hv' : b'.registry.validators[slot]? = some v') (hne : v'.address ≠ v.address) :
    instr.isRotation = true ∧ instr.target = some v.address ∧
      instr.newKey e.before = some v'.address ∧
      ∃ newBundle newP2pAddress, v' = v.rotated newBundle newP2pAddress b.quanto := by
  obtain ⟨v'', hv'', hturn⟩ := h.step.turn hv
  obtain rfl := mem_unique hv' hv''
  cases hturn with
  | same => exact absurd rfl hne
  | upkeep hupkeep => exact absurd (by rw [hupkeep.1]) hne
  | edit hlabel hedit hfind =>
    obtain rfl := Option.some.inj hlabel
    have hrotation : instr.isRotation = true := by
      by_contra hnot
      exact hne (hedit.address (Bool.eq_false_iff.2 hnot))
    cases hedit with
    | rotate => exact ⟨rfl, rfl, rfl, _, _, rfl⟩
    | accept =>
      refine ⟨rfl, rfl, ?_, _, _, rfl⟩
      exact h.accepted hv' (hfind rfl)
    | _ => cases hrotation

omit [Crypto] in
theorem UpkeepEntry.keys (h : UpkeepEntry v v') : v'.keys = v.keys := by
  rw [h.1]
  rfl

/-- Without a rotation no key is retired. -/
theorem Edit.retired (h : b.Edit v instr v') (hsame : v'.address = v.address) :
    v'.retiredConsensusKeys = v.retiredConsensusKeys ∨
      v.state = .removed ∧ v'.retiredConsensusKeys = [] := by
  cases h with
  | rotate _ _ hne | accept _ _ hne => exact absurd hsame hne
  | registerAgain hremoved _ hregistration => exact .inr ⟨hremoved, hregistration.retired⟩
  | @recover op => cases op <;> exact .inl rfl
  | _ => exact .inl rfl

/-- An instruction names the validator in a slot. -/
def Names (b : ValidatorBooks) (instr : ValidatorV7Instruction) (slot : ℕ) : Prop :=
  ∃ v, b.registry.validators[slot]? = some v ∧ instr.target = some v.address

/-- The keys that a validator answers for after an execution: it had them before, or was given one,
or is new. -/
theorem Act.hasKey (h : b.Act e b' instr) (hk : b'.registry.HasKey slot k) :
    b.registry.HasKey slot k ∨ instr.newKey e.before = some k ∧ b.Names instr slot ∨
      instr.newKey e.before = some k ∧ slot = b.registry.validators.length ∧
        b.registry.find k = none ∧ instr.target = some k := by
  obtain ⟨v', hv', hk⟩ := hk
  rcases h.step.entry hv' with ⟨v, hv, hturn⟩ | ⟨instr', bundle, hlabel, hregistration, hfind,
    hnew, hvalidators, htarget⟩
  · by_cases hne : v'.address = v.address
    · refine .inl ⟨v, hv, ?_⟩
      cases hturn with
      | same => exact hk
      | upkeep hupkeep => rwa [hupkeep.keys] at hk
      | edit _ hedit =>
        rcases hedit.retired hne with hretired | ⟨_, hretired⟩
        · rwa [ValidatorV7Entry.keys, hne, hretired] at hk
        · rw [ValidatorV7Entry.keys, hne, hretired] at hk
          rw [mem_singleton.1 hk]
          exact mem_cons_self ..
    · obtain ⟨_, htarget, hkey, newBundle, newP2pAddress, rfl⟩ := h.rotated hv hv' hne
      rcases ValidatorV7Entry.mem_keys_rotated hk with rfl | hold
      · exact .inr (.inl ⟨hkey, v, hv, htarget⟩)
      · exact .inl ⟨v, hv, hold⟩
  · obtain rfl := Option.some.inj hlabel
    rw [ValidatorV7Entry.keys, hnew.retired] at hk
    obtain rfl := mem_singleton.1 hk
    have hge : b.registry.validators.length ≤ slot := by
      by_contra hlt
      rw [hvalidators, getElem?_append_left (not_le.1 hlt)] at hv'
      rw [ValidatorV7Registry.find, findIdx?_eq_none_iff] at hfind
      exact absurd rfl (of_decide_eq_false (hfind v' (mem_of_getElem? hv')))
    refine .inr (.inr ⟨?_, ?_, hfind, htarget⟩)
    · cases instr with
      | bondAndRegister => exact htarget
      | _ => cases hregistration
    · obtain ⟨hlt, _⟩ := List.getElem?_eq_some_iff.1 hv'
      rw [hvalidators, length_append, length_singleton] at hlt
      omega

/-- An execution gives no validator a key of another one. -/
theorem Act.separate (h : b.Act e b' instr) (hkeeps : KeepsAccountable e)
    (hseparate : b.registry.Separate) : b'.registry.Separate := by
  -- who answers for the new key before the execution is the validator that the instruction names
  have hnamed : ∀ slot k, instr.newKey e.before = some k → b.registry.HasKey slot k →
      b.Names instr slot := by
    rintro slot k hkey ⟨v, hv, hk⟩
    exact ⟨v, hv, (hkeeps instr h.decode b.registry h.storedRegistryV7_eq.1 v
      (mem_of_getElem? hv)).1 k hkey hk⟩
  have hone : ∀ slot slot', b.Names instr slot → b.Names instr slot' → slot = slot' := by
    rintro slot slot' ⟨v, hv, htarget⟩ ⟨v', hv', htarget'⟩
    refine hseparate slot slot' v.address ⟨v, hv, mem_cons_self ..⟩ ⟨v', hv', ?_⟩
    rw [mem_unique htarget htarget']
    exact mem_cons_self ..
  have hnew : ∀ slot k, b.Names instr slot → instr.target = some k →
      b.registry.find k ≠ none := by
    rintro slot k ⟨v, hv, htarget⟩ htarget' hfind
    rw [ValidatorV7Registry.find, findIdx?_eq_none_iff] at hfind
    exact of_decide_eq_false (hfind v (mem_of_getElem? hv))
      (mem_unique htarget htarget')
  intro slot slot' k hk hk'
  rcases h.hasKey hk with hold | ⟨hkey, hnames⟩ | ⟨hkey, hlast, hfind, htarget⟩
  · rcases h.hasKey hk' with hold' | ⟨hkey', hnames'⟩ | ⟨hkey', hlast', hfind', htarget'⟩
    · exact hseparate slot slot' k hold hold'
    · exact hone slot slot' (hnamed slot k hkey' hold) hnames'
    · exact absurd hfind' (hnew slot k (hnamed slot k hkey' hold) htarget')
  · rcases h.hasKey hk' with hold' | ⟨_, hnames'⟩ | ⟨_, _, hfind', htarget'⟩
    · exact hone slot slot' hnames (hnamed slot' k hkey hold')
    · exact hone slot slot' hnames hnames'
    · exact absurd hfind' (hnew slot k hnames htarget')
  · rcases h.hasKey hk' with hold' | ⟨_, hnames'⟩ | ⟨_, hlast', _⟩
    · exact absurd hfind (hnew slot' k (hnamed slot' k hkey hold') htarget)
    · exact absurd hfind (hnew slot' k hnames' htarget)
    · rw [hlast, hlast']

theorem Step.separate (h : b.Step none b') (hseparate : b.registry.Separate) :
    b'.registry.Separate := by
  have hsame : ∀ slot k, b'.registry.HasKey slot k → b.registry.HasKey slot k := by
    rintro slot k ⟨v', hv', hk⟩
    rcases h.entry hv' with ⟨v, hv, hturn⟩ | ⟨_, _, hlabel, _⟩
    · cases hturn with
      | same => exact ⟨v', hv, hk⟩
      | upkeep hupkeep => exact ⟨v, hv, hupkeep.keys ▸ hk⟩
      | edit hlabel => cases hlabel
    · cases hlabel
  exact fun slot slot' k hk hk' => hseparate slot slot' k (hsame slot k hk) (hsame slot' k hk')

/-- The validator in a slot answers for a retired key, unless its window is over. -/
def Answers (slot : ℕ) (r : RetiredConsensusKey) (b : ValidatorBooks) : Prop :=
  ∃ v, b.registry.validators[slot]? = some v ∧
    (r ∈ v.retiredConsensusKeys ∨ r.slashUntilQuanto < b.quanto)

omit [Crypto] in
theorem place_of_removed (hv : b.registry.validators[slot]? = some v)
    (hremoved : v.state = .removed) : b.place slot = none := by
  rw [place, hv, bind_some]
  simp [bondPlace, inEscrow, ValidatorV7Entry.inPool, hremoved]

theorem Act.hasRoom (h : b.Act e b' instr) (hkeeps : KeepsAccountable e)
    (hv : b.registry.validators[slot]? = some v) (hrotation : instr.isRotation = true)
    (htarget : instr.target = some v.address) : v.HasRoom b.quanto := by
  have hreads : instr.readsQuanto = true := by
    cases instr <;> first | rfl | cases hrotation
  obtain ⟨g, hg, hquanto⟩ := h.atQuanto hreads
  rw [← hquanto]
  exact (hkeeps instr h.decode b.registry h.storedRegistryV7_eq.1 v
    (mem_of_getElem? hv)).2 hrotation htarget g hg

theorem Act.answers {r : RetiredConsensusKey} (h : b.Act e b' instr) (hkeeps : KeepsAccountable e)
    (hplace : b.place slot ≠ none) (hanswers : b.Answers slot r) : b'.Answers slot r := by
  obtain ⟨v, hv, hr⟩ := hanswers
  obtain ⟨v', hv', hturn⟩ := h.step.turn hv
  refine ⟨v', hv', ?_⟩
  rcases hr with hr | hover
  swap
  · exact .inr (lt_of_lt_of_le hover h.step.quanto_le)
  by_cases hne : v'.address = v.address
  · cases hturn with
    | same => exact .inl hr
    | upkeep hupkeep =>
      left
      rw [hupkeep.1]
      exact hr
    | edit _ hedit =>
      rcases hedit.retired hne with hretired | ⟨hremoved, _⟩
      · exact .inl (hretired ▸ hr)
      · exact absurd (place_of_removed hv hremoved) hplace
  · obtain ⟨hrotation, htarget, _, newBundle, newP2pAddress, rfl⟩ := h.rotated hv hv' hne
    have hroom := h.hasRoom hkeeps hv hrotation htarget
    by_cases hopen : b.quanto ≤ r.slashUntilQuanto
    · exact .inl (hroom.mem_retire_of_open _ hr hopen)
    · exact .inr (lt_of_lt_of_le (not_le.1 hopen) h.step.quanto_le)

theorem Step.answers {r : RetiredConsensusKey} (h : b.Step none b') (hanswers : b.Answers slot r) :
    b'.Answers slot r := by
  obtain ⟨v, hv, hr⟩ := hanswers
  obtain ⟨v', hv', hturn⟩ := h.turn hv
  refine ⟨v', hv', hr.imp ?_ fun hover => lt_of_lt_of_le hover h.quanto_le⟩
  intro hr
  cases hturn with
  | same => exact hr
  | upkeep hupkeep =>
    rw [hupkeep.1]
    exact hr
  | edit hlabel => cases hlabel

/-- A bond that is not released stays in the pools. -/
theorem Act.place_ne_none (h : b.Act e b' instr) (hplace : b.place slot ≠ none)
    (hheld : ¬Releases e slot) : b'.place slot ≠ none := by
  have hplaces : bondAt e.before slot = b.place slot ∧ bondAt e.after slot = b'.place slot :=
    h.place_eq
  obtain ⟨hbefore, hafter⟩ := hplaces
  rw [← hbefore] at hplace
  rw [← hafter]
  rcases h.bonds with hkeeps | ⟨slot', hbonds⟩
  · rwa [hkeeps.places]
  · by_cases hslot : slot = slot'
    · subst hslot
      rcases hbonds with hmoves | ⟨_, hmoves⟩ | hwithdraws | hburns
      · exact absurd hmoves.before hplace
      · rw [hmoves.after]
        exact some_ne_none _
      · exact absurd (.inl ⟨_, hwithdraws⟩) hheld
      · exact absurd (.inr hburns) hheld
    · obtain ⟨_, _, _, _, hmoves⟩ := hbonds.moves
      rwa [hmoves.others slot hslot]

end ValidatorBooks

/-- An execution replaces the key of the validator in a slot, at a quanto. -/
def RotatesAway (e : Execution) (slot : ℕ) (k : Pubkey) (q : U64) : Prop :=
  e.AtQuanto q ∧ ∃ reg v reg' v', storedRegistryV7 e.before = some reg ∧
    reg.validators[slot]? = some v ∧ v.address = k ∧ storedRegistryV7 e.after = some reg' ∧
    reg'.validators[slot]? = some v' ∧ v'.address ≠ k

namespace ValidatorBooks

variable [Crypto] {b b' : ValidatorBooks} {e : Execution} {instr : ValidatorV7Instruction}
  {slot : ℕ} {k : Pubkey} {q : U64} {log : List Execution}

/-- A validator answers for the key that it has just given up. -/
theorem Act.answers_rotated (h : b.Act e b' instr) (hkeeps : KeepsAccountable e)
    (hrotates : RotatesAway e slot k q) :
    b'.Answers slot ⟨k, Word.clamp (q + slashEvidenceWindowQuantos)⟩ := by
  obtain ⟨⟨g, hg, hquanto⟩, reg, v, reg', v', hreg, hv, rfl, hreg', hv', hne⟩ := hrotates
  obtain ⟨hbefore, hafter⟩ := h.storedRegistryV7_eq
  obtain rfl := mem_unique hbefore hreg
  obtain rfl := mem_unique hafter hreg'
  obtain ⟨hrotation, htarget, _, newBundle, newP2pAddress, hentry⟩ := h.rotated hv hv' hne
  have hreads : instr.readsQuanto = true := by
    cases instr <;> first | rfl | cases hrotation
  obtain ⟨g', hg', hquanto'⟩ := h.atQuanto hreads
  obtain rfl := mem_unique hg hg'
  obtain rfl : q = b.quanto := hquanto.symm.trans hquanto'
  refine ⟨v', hv', .inl ?_⟩
  rw [hentry]
  exact (h.hasRoom hkeeps hv hrotation htarget).mem_retire _

/-- Validators answer for the keys they gave up, as long as their bonds are in the pools. -/
theorem Runs.answers {i : ℕ} (h : b.Runs log b') (hkeeps : ∀ e ∈ log, KeepsAccountable e)
    (hi : log[i]? = some e) (hrotates : RotatesAway e slot k q)
    (hbond : bondAt e.before slot ≠ none)
    (hheld : ∀ j e', i ≤ j → log[j]? = some e' → ¬Releases e' slot) :
    b'.Answers slot ⟨k, Word.clamp (q + slashEvidenceWindowQuantos)⟩ ∧ b'.place slot ≠ none := by
  obtain ⟨b₁, b₂, instr, _, hact, hruns⟩ := h.act_at hi
  have hstart := hact.answers_rotated (hkeeps e (mem_of_getElem? hi)) hrotates
  have hplace : b₂.place slot ≠ none := by
    refine hact.place_ne_none ?_ (hheld i e le_rfl hi)
    rw [← hact.place_eq.1]
    exact hbond
  have halong : Along (fun _ e => KeepsAccountable e ∧ ¬Releases e slot) (log.drop (i + 1)) := by
    refine .of_forall fun e' he' => ?_
    obtain ⟨j, hj⟩ := mem_iff_getElem?.1 he'
    rw [getElem?_drop] at hj
    exact ⟨hkeeps e' (mem_of_getElem? hj), hheld _ e' (by omega) hj⟩
  generalize (⟨k, _⟩ : RetiredConsensusKey) = r at hstart ⊢
  refine hruns.invariant_along (I := fun _ b => b.Answers slot r ∧ b.place slot ≠ none) halong
    ⟨hstart, hplace⟩ ?_ ?_
  · rintro _ b b' ⟨hanswers, hplace⟩ hstep
    exact ⟨hstep.answers hanswers, hstep.place_eq ▸ hplace⟩
  · rintro _ e b b' ⟨hkeeps, hheld⟩ ⟨hanswers, hplace⟩ ⟨instr, hact⟩
    exact ⟨hact.answers hkeeps hplace hanswers, hact.place_ne_none hplace hheld⟩

theorem Runs.separate (h : b.Runs log b') (hkeeps : ∀ e ∈ log, KeepsAccountable e)
    (hstart : b.registry.Separate) : b'.registry.Separate := by
  refine h.invariant_along (I := fun _ b => b.registry.Separate) (.of_forall hkeeps) hstart ?_ ?_
  · exact fun _ b b' hseparate hstep => hstep.separate hseparate
  · rintro _ e b b' hkeeps hseparate ⟨instr, hact⟩
    exact hact.separate hkeeps hseparate

end ValidatorBooks

/-! ### Reports -/

theorem exists_of_findIdx? {α : Type*} {p : α → Bool} {l : List α} {i : ℕ}
    (h : l.findIdx? p = some i) : ∃ a, l[i]? = some a ∧ p a = true := by
  obtain ⟨hlt, hp, _⟩ := findIdx?_eq_some_iff_getElem.1 h
  exact ⟨_, getElem?_eq_getElem hlt, hp⟩

/-- A key whose window is open is held against the validator that answers for it. -/
theorem ValidatorV7Registry.Separate.findSlashable_eq {reg : ValidatorV7Registry} {slot : ℕ}
    {v : ValidatorV7Entry} {r : RetiredConsensusKey} {q : U64} (h : reg.Separate)
    (hv : reg.validators[slot]? = some v) (hr : r ∈ v.retiredConsensusKeys)
    (hopen : q ≤ r.slashUntilQuanto) : reg.findSlashable r.address q = some slot := by
  have hslot : reg.HasKey slot r.address :=
    ⟨v, hv, mem_cons_of_mem _ (List.mem_map.2 ⟨r, hr, rfl⟩)⟩
  unfold findSlashable
  cases hfind : reg.find r.address with
  | some idx =>
    obtain ⟨u, hu, haddress⟩ := exists_of_findIdx? hfind
    rw [decide_eq_true_iff] at haddress
    have hidx : reg.HasKey idx r.address := ⟨u, hu, haddress ▸ mem_cons_self ..⟩
    rw [some_or, h idx slot _ hidx hslot]
  | none =>
    rw [none_or]
    have hsome : (reg.validators.findIdx? fun v => v.retiredConsensusKeys.any fun r' =>
        r'.address = r.address ∧ q ≤ r'.slashUntilQuanto).isSome = true := by
      rw [findIdx?_isSome, List.any_eq_true]
      refine ⟨v, mem_of_getElem? hv, List.any_eq_true.2 ⟨r, hr, ?_⟩⟩
      exact decide_eq_true ⟨rfl, hopen⟩
    obtain ⟨idx, hidx⟩ := isSome_iff_exists.1 hsome
    rw [hidx]
    obtain ⟨u, hu, hretired⟩ := exists_of_findIdx? hidx
    obtain ⟨r', hr', hsame⟩ := List.any_eq_true.1 hretired
    rw [decide_eq_true_iff] at hsame
    have hkey : reg.HasKey idx r.address :=
      ⟨u, hu, mem_cons_of_mem _ (List.mem_map.2 ⟨r', hr', hsame.1⟩)⟩
    rw [h idx slot _ hkey hslot]

/-- A bond that is in the pools can be burned. -/
theorem Recorded.burnable [Crypto] {b : ValidatorBooks} {store : Accounts} {slot : ℕ}
    {v : ValidatorV7Entry} (h : Recorded b store) (hsound : b.Sound)
    (hv : b.registry.validators[slot]? = some v) (hplace : b.place slot ≠ none) :
    Burnable store v := by
  have hmem := mem_of_getElem? hv
  rw [ValidatorBooks.place, hv, bind_some, bondPlace] at hplace
  rw [Burnable, bondPlace]
  split_ifs at hplace ⊢ with hescrow hpool
  · refine ⟨_, rfl, le_trans ?_ (hsound.bonds.trans h.escrow.le_balanceOf)⟩
    exact Nat.le_mul_of_pos_right _ (countP_pos_iff.2 ⟨v, hmem, hescrow⟩)
  · refine ⟨_, rfl, le_trans ?_ (hsound.unbondings.trans h.pool.le_balanceOf)⟩
    exact Nat.le_mul_of_pos_right _ (countP_pos_iff.2 ⟨v, hmem, hpool⟩)
  · exact absurd rfl hplace

/-- Founders with different keys answer for different keys. -/
theorem NodeConfig.separate_founders [Crypto] {validators : List ValidatorConfig}
    {entries : List ValidatorV7Entry} (h : founders 0 [] validators = some entries)
    (hkeys : (validators.map (·.pubkeyBundle.toAddress)).Nodup) :
    ValidatorV7Registry.Separate ⟨entries⟩ := by
  have hnodup : (entries.map (·.address)).Nodup := (founders_names h).1 ▸ hkeys
  have haddress : ∀ slot k, ValidatorV7Registry.HasKey ⟨entries⟩ slot k →
      (entries.map (·.address))[slot]? = some k := by
    rintro slot k ⟨v, hv, hk⟩
    obtain ⟨_, _, _, hretired⟩ := (mem_founders h).2 v (mem_of_getElem? hv)
    rw [ValidatorV7Entry.keys, hretired, map_nil, mem_singleton] at hk
    rw [getElem?_map, hv, hk]
    rfl
  intro slot slot' k hslot hslot'
  have hlt : slot < (entries.map (·.address)).length :=
    (List.getElem?_eq_some_iff.1 (haddress slot k hslot)).1
  refine (getElem?_inj hlt hnodup).1 ?_
  rw [haddress slot k hslot, haddress slot' k hslot']

section

variable [Crypto] {store : Accounts} {ix : Instruction} {evidence : EquivocationEvidence}
  {ks : List Pubkey} {v : ValidatorV7Entry} {payer : Pubkey}

theorem Reports.copies (h : Reports ix evidence store) (hks : ix.accounts ⊆ ks) :
    Reports ix evidence (Ledger.copies store ks) := by
  obtain ⟨account, hlookup, hvalid⟩ := h.valid
  refine ⟨h.registry, h.escrow, h.pool, h.named, account, ?_, hvalid⟩
  rw [Ledger.lookup_copies, if_pos (hks h.named)]
  exact hlookup

theorem Burnable.copies (h : Burnable store v) (hreports : Reports ix evidence store)
    (hks : ix.accounts ⊆ ks) : Burnable (Ledger.copies store ks) v := by
  obtain ⟨place, hplace, hbalance⟩ := h
  have hnamed : place ∈ ks := by
    apply hks
    rw [bondPlace] at hplace
    split_ifs at hplace
    · exact Option.some.inj hplace ▸ mem_of_getElem? hreports.escrow
    · exact Option.some.inj hplace ▸ mem_of_getElem? hreports.pool
  have hsame : (Ledger.copies store ks).lookup place = store.lookup place := by
    rw [Ledger.lookup_copies, if_pos hnamed]
  refine ⟨place, hplace, ?_⟩
  rw [Accounts.balanceOf_congr hsame]
  exact hbalance

omit [Crypto] in
/-- A report counts on the quanto of the staking totals, or on that of genesis if it does not name
them. -/
theorem storedGlobal_copies {g : GlobalStakingState} (h : storedGlobal store = some g)
    (ks : List Pubkey) :
    ∃ g', storedGlobal (Ledger.copies store ks) = some g' ∧ g'.currentQuanto ≤ g.currentQuanto := by
  rw [storedGlobal, Ledger.lookup_copies]
  split_ifs
  · exact ⟨g, h, le_rfl⟩
  · exact ⟨.genesis, rfl, Word.le_iff.2 (Nat.zero_le _)⟩

end

namespace Chain

variable [Crypto] [WasmEngine] [GenesisFormat] {cfg : LedgerConfig} {config : NodeConfig}
  {accounts : Accounts} {events : List ChainEvent} {ix : Instruction} {ks : List Pubkey}
  {payer k : Pubkey} {evidence : EquivocationEvidence} {e : Execution} {i slot : ℕ} {q : U64}
  {g : GlobalStakingState}

/-- A report burns the bond of the validator in a slot. -/
def BurnsBondOf (slot : ℕ) (w w' : Accounts) : Prop :=
  ∃ reg v, storedRegistryV7 w = some reg ∧ reg.validators[slot]? = some v ∧
    storedRegistryV7 w' =
      some ⟨reg.validators.set slot { v with state := .slashed, bond := 0 }⟩ ∧
    ∃ place, v.bondPlace = some place ∧ Transfers validatorBondAtoms (some place) none w w'

/-- Validators answer for the keys they gave up. In every v7 network whose founders have different
keys, in which no validator takes a key of another one and no rotation drops a key whose window is
open: a validator has rotated a key away, and its bond is not released since. As long as the window
of the key is open, a report for the key succeeds and burns the bond of the validator. -/
theorem accountable (hsha : ∀ bytes, ¬IsProtocolId (Crypto.sha3 bytes))
    (hseed : config.seedGenesis = some accounts) (hcfg : config.ledgerConfig = some cfg)
    (hv7 : config.economicsV7 = true)
    (hkeys : (config.validators.map (·.pubkeyBundle.toAddress)).Nodup)
    (hbonds : validatorBondAtoms * config.validators.length < 2 ^ 64)
    (hevents : ∀ event ∈ events, ValidatorsOnly event)
    (hkeeps : ∀ e ∈ (run cfg (ofAccounts accounts) events).log, KeepsAccountable e)
    (hi : (run cfg (ofAccounts accounts) events).log[i]? = some e)
    (hrotates : RotatesAway e slot k q) (hbond : bondAt e.before slot ≠ none)
    (hheld : ∀ j e', i ≤ j → (run cfg (ofAccounts accounts) events).log[j]? = some e' →
      ¬Releases e' slot)
    (hglobal : storedGlobal (run cfg (ofAccounts accounts) events).ledger.store = some g)
    (hwindow : (g.currentQuanto : ℕ) ≤ q + slashEvidenceWindowQuantos)
    (hdecode : ValidatorV7Instruction.decode.all ix.data = some (.reportEquivocation evidence))
    (hauthor : evidence.vertexA.author = k)
    (hreports : Reports ix evidence (run cfg (ofAccounts accounts) events).ledger.store)
    (hks : ix.accounts ⊆ ks) :
    ∃ w', (ValidatorV7Program.process ix payer).run
        (Ledger.copies (run cfg (ofAccounts accounts) events).ledger.store ks) = .ok ((), w') ∧
      BurnsBondOf slot (Ledger.copies (run cfg (ofAccounts accounts) events).ledger.store ks)
        w' := by
  obtain ⟨founders, b, hfounders, hruns, hrecorded⟩ :=
    network_books hsha hseed hcfg hv7 hevents
  generalize (run cfg (ofAccounts accounts) events).ledger.store = store at *
  have hsound : b.Sound :=
    hruns.invariant (I := fun _ b => b.Sound) (NodeConfig.sound_genesis hfounders hbonds)
      (fun _ _ _ h hstep => hstep.sound h) (fun _ _ _ _ h hstep => hstep.choose_spec.step.sound h)
  have hseparate := hruns.separate hkeeps (NodeConfig.separate_founders hfounders hkeys)
  obtain ⟨⟨v, hv, hanswers⟩, hplace⟩ := hruns.answers hkeeps hi hrotates hbond hheld
  obtain rfl := mem_unique hrecorded.storedGlobal_eq hglobal
  have hopen : b.quanto ≤ Word.clamp (q + slashEvidenceWindowQuantos) := by
    have hlt := b.quanto.toNat_lt
    have hwindow : (b.quanto : ℕ) ≤ q + slashEvidenceWindowQuantos := hwindow
    rw [Word.le_iff, Word.toNat_clamp]
    omega
  have hretired := hanswers.resolve_right (not_lt.2 hopen)
  obtain ⟨g', hglobal', hle⟩ := storedGlobal_copies hglobal ks
  have hfind : b.registry.findSlashable evidence.vertexA.author g'.currentQuanto = some slot := by
    rw [hauthor]
    exact hseparate.findSlashable_eq hv hretired (hle.trans hopen)
  have hstored : storedRegistryV7 (Ledger.copies store ks) = some b.registry := by
    rw [← hrecorded.storedRegistryV7_eq]
    apply storedRegistryV7_congr
    rw [Ledger.lookup_copies, if_pos (hks (mem_of_getElem? hreports.registry))]
  have hburnable := (hrecorded.burnable hsound hv hplace).copies hreports hks
  obtain ⟨w', hrun, hreg', htransfers⟩ := ValidatorV7Program.reportEquivocation_burns
    (hreports.copies hks) hstored hglobal' hfind hv hburnable
  obtain ⟨place, hplace, _⟩ := hburnable
  refine ⟨w', ?_, b.registry, v, hstored, hv, hreg', place, hplace, hplace ▸ htransfers⟩
  rw [ValidatorV7Program.process_reportEquivocation hdecode]
  exact hrun

end Chain

/-! ### A key that is dropped too early

A founder takes a new key in the first quanto, so that the old one can be held against it for one
quanto more. In that quanto it takes a third key, the first one is dropped, and a report for it is
refused. If another founder takes a new key instead, the report burns the bond. -/

section DroppedKey

instance (e : Execution) (slot : ℕ) (k : Pubkey) (q : U64) : Decidable (RotatesAway e slot k q) :=
  decidable_of_iff ((∃ g ∈ storedGlobal e.before, g.currentQuanto = q) ∧
      ∃ reg ∈ storedRegistryV7 e.before, ∃ v ∈ reg.validators[slot]?, v.address = k ∧
        ∃ reg' ∈ storedRegistryV7 e.after, ∃ v' ∈ reg'.validators[slot]?, v'.address ≠ k)
    ⟨fun ⟨hquanto, reg, hreg, v, hv, hk, reg', hreg', v', hv', hne⟩ =>
        ⟨hquanto, reg, v, reg', v', hreg, hv, hk, hreg', hv', hne⟩,
      fun ⟨hquanto, reg, v, reg', v', hreg, hv, hk, hreg', hv', hne⟩ =>
        ⟨hquanto, reg, hreg, v, hv, hk, reg', hreg', v', hv', hne⟩⟩

instance (v : ValidatorV7Entry) (q : U64) : Decidable (v.HasRoom q) :=
  decidable_of_iff' _ (v.hasRoom_iff q)

instance [Crypto] (e : Execution) : Decidable (KeepsAccountable e) :=
  inferInstanceAs (Decidable (∀ instr ∈ ValidatorV7Instruction.decode.all e.ix.data,
    ∀ reg ∈ storedRegistryV7 e.before, ∀ v ∈ reg.validators,
      (∀ k ∈ instr.newKey e.before, k ∈ v.keys → instr.target = some v.address) ∧
      (instr.isRotation = true → instr.target = some v.address →
        ∀ g ∈ storedGlobal e.before, v.HasRoom g.currentQuanto)))

instance [Crypto] (chainId : Bytes32) (evidence : EquivocationEvidence) :
    Decidable (evidence.Valid chainId) :=
  decidable_of_iff' _ (EquivocationEvidence.valid_iff chainId evidence)

instance [Crypto] (ix : Instruction) (evidence : EquivocationEvidence) (w : Accounts) :
    Decidable (Reports ix evidence w) :=
  decidable_of_iff' _ (reports_iff ix evidence w)

theorem Releases.bondAt_after {e : Execution} {slot : ℕ} (h : Releases e slot) :
    bondAt e.after slot = none := by
  rcases h with ⟨_, _, _, _, _, _, _, hmoves⟩ | ⟨_, _, hmoves⟩
  · exact hmoves.after
  · exact hmoves.after

/-- A founder that has taken the key of the fourth wallet takes that of the fifth. -/
def thirdKey : Instruction :=
  memberInstruction 0 [validatorRegistryAccountId, stakingGlobalId]
    (7 :: (toVec (memberAddress 3, walletKeys 4, memberHost, hybridSignature)).getD [])

/-- The first founder gives its key up in the first quanto and keeps its bond, and there is good
evidence against the key while its window is open. -/
def GaveUpKey (c : Chain) : Prop :=
  (∃ e ∈ c.log[0]?, RotatesAway e 0 (memberAddress 0) 0 ∧ bondAt e.before 0 ≠ none) ∧
    (∀ e ∈ c.log, bondAt e.after 0 ≠ none) ∧
    (∃ g ∈ storedGlobal c.ledger.store, (g.currentQuanto : ℕ) ≤ 0 + slashEvidenceWindowQuantos) ∧
    @Reports oldCrypto (accuse [stakingGlobalId]) oldEvidence c.ledger.store

instance (c : Chain) : Decidable (GaveUpKey c) :=
  inferInstanceAs (Decidable (_ ∧ _ ∧ _ ∧ _))

/-- The report that is made then. -/
def lateReport (c : Chain) : Except Halt (Unit × Accounts) :=
  (@ValidatorV7Program.process oldCrypto (accuse [stakingGlobalId]) (memberAddress 2)).run
    (Ledger.copies c.ledger.store (accuse [stakingGlobalId]).accounts)

/-- The founder takes two new keys. -/
def droppedEvents : List ChainEvent :=
  [memberEvent 0 0 0 [takeKey 0 3], memberEvent 0 1 1 [thirdKey]]

/-- Both founders take a new key. -/
def keptEvents : List ChainEvent :=
  [memberEvent 0 0 0 [takeKey 0 3], memberEvent 2 0 1 [takeKey 2 4]]

theorem GaveUpKey.not_releases {c : Chain} (h : GaveUpKey c) {j : ℕ} {e : Execution}
    (he : c.log[j]? = some e) : ¬Releases e 0 :=
  fun hreleases => h.2.1 e (mem_of_getElem? he) hreleases.bondAt_after

/-- The report is refused, although the window of the key is open. -/
theorem Chain.dropped_key_unpunished :
    (∀ bytes, ¬IsProtocolId (oldCrypto.sha3 bytes)) ∧
      @NodeConfig.seedGenesis capFormat oldCrypto (memberConfig [0, 2]) = some oldAccounts ∧
      (memberConfig [0, 2]).ledgerConfig = some memberSettings ∧
      (∀ event ∈ droppedEvents, ValidatorsOnly event) ∧
      ValidatorV7Instruction.decode.all (accuse [stakingGlobalId]).data =
        some (.reportEquivocation oldEvidence) ∧
      oldEvidence.vertexA.author = memberAddress 0 ∧
      GaveUpKey (oldChain droppedEvents) ∧
      (∀ (j : ℕ) e, (oldChain droppedEvents).log[j]? = some e → ¬Releases e 0) ∧
      ∀ w', lateReport (oldChain droppedEvents) ≠ .ok ((), w') := by
  have hrun : GaveUpKey (oldChain droppedEvents) ∧
      (lateReport (oldChain droppedEvents)).isOk = false := by decide +kernel
  refine ⟨@not_isProtocolId_ofHashes oldHashes (by decide +kernel), by decide +kernel,
    by decide +kernel, by decide +kernel, decode_accuse _, rfl, hrun.1,
    fun _ _ he => hrun.1.not_releases he, fun w' hok => ?_⟩
  rw [hok] at hrun
  cases hrun.2

/-- The report burns the bond, if no key is dropped. -/
theorem Chain.accountable_kept :
    GaveUpKey (oldChain keptEvents) ∧ ∃ w', lateReport (oldChain keptEvents) = .ok ((), w') ∧
      BurnsBondOf 0 (Ledger.copies (oldChain keptEvents).ledger.store
        (accuse [stakingGlobalId]).accounts) w' := by
  have hrun : GaveUpKey (oldChain keptEvents) ∧
      ∀ e ∈ (oldChain keptEvents).log, @KeepsAccountable oldCrypto e := by decide +kernel
  obtain ⟨hgave, hkeeps⟩ := hrun
  refine ⟨hgave, ?_⟩
  have hheld : ∀ (j : ℕ) e, 0 ≤ j → (oldChain keptEvents).log[j]? = some e → ¬Releases e 0 :=
    fun _ _ _ he => hgave.not_releases he
  obtain ⟨⟨e, he, hrotates, hbond⟩, _, ⟨g, hg, hwindow⟩, hreports⟩ := hgave
  unfold lateReport
  unfold oldChain at hkeeps he hg hreports hheld ⊢
  exact @accountable oldCrypto WasmEngine.none capFormat memberSettings (memberConfig [0, 2])
    oldAccounts keptEvents (accuse [stakingGlobalId]) (accuse [stakingGlobalId]).accounts
    (memberAddress 2) (memberAddress 0) oldEvidence e 0 0 0 g
    (@not_isProtocolId_ofHashes oldHashes (by decide +kernel)) (by decide +kernel)
    (by decide +kernel) rfl (by decide +kernel) (by decide +kernel) (by decide +kernel) hkeeps he
    hrotates hbond hheld hg hwindow (decode_accuse _) rfl hreports (List.Subset.refl _)

end DroppedKey

end QChain
