import QChain.Execution.HardCap
import QChain.Node.GenesisWrites

/-!
# The address of a program

Where a payer's program with a given salt is deployed can be computed in advance. A deployment takes
over whatever account it finds there, unless it belongs to the loader, which is taken for a program.
Nobody else can deploy or claim the address. But the System program creates an account for any
owner, the loader included, and such an account keeps the address from being used.
-/

namespace QChain

open Exec Finmap List Option Transact

/-! ### Addresses that are free -/

/-- No account of the loader is at an address. -/
def Vacant (k : Pubkey) (v : Accounts) : Prop :=
  ∀ account, v.lookup k = some account → account.owner ≠ loaderProgramId

namespace Vacant

variable {k k' owner : Pubkey} {v w w' store : Accounts} {account : Account}

theorem insert (h : Vacant k v) (howner : k' = k → account.owner ≠ loaderProgramId) :
    Vacant k (v.insert k' account) := by
  intro found hlookup
  rw [Finmap.lookup_insert_eq] at hlookup
  split_ifs at hlookup with hk
  · obtain rfl := Option.some.inj hlookup
    exact howner hk.symm
  · exact h found hlookup

theorem insert_of_ne (h : Vacant k v) (hk : k' ≠ k) : Vacant k (v.insert k' account) :=
  h.insert fun heq => absurd heq hk

theorem owner_getOrNew (h : Vacant k v) (howner : owner ≠ loaderProgramId) :
    (v.getOrNew k owner).owner ≠ loaderProgramId := by
  rw [Accounts.getOrNew]
  cases hlookup : v.lookup k with
  | none => exact howner
  | some account => exact h account hlookup

/-- A write to the account found at an address, or to a new one of an owner that is not the
loader. -/
theorem insert_getOrNew (h : Vacant k v) (howner : owner ≠ loaderProgramId)
    (hsame : account.owner = (v.getOrNew k' owner).owner) : Vacant k (v.insert k' account) := by
  apply h.insert
  rintro rfl
  rw [hsame]
  exact h.owner_getOrNew howner

theorem insert_lookup {found : Account} (h : Vacant k v) (hlookup : v.lookup k' = some found)
    (hsame : account.owner = found.owner) : Vacant k (v.insert k' account) := by
  apply h.insert
  rintro rfl
  rw [hsame]
  exact h found hlookup

theorem of_union (h : Vacant k (w ∪ store)) : Vacant k w := by
  intro account hlookup
  apply h account
  rw [lookup_union_eq, hlookup, some_or]

/-- Copies that are changed, but not dropped, over the same store. -/
theorem union (h : Vacant k (w ∪ store)) (hmem : k ∈ w → k ∈ w') (hw' : Vacant k w') :
    Vacant k (w' ∪ store) := by
  intro account hlookup
  rw [lookup_union_eq] at hlookup
  cases hcopy : w'.lookup k with
  | some copy =>
    rw [hcopy] at hlookup
    exact hw' account (hcopy.trans hlookup)
  | none =>
    have hw : w.lookup k = none := by
      rw [lookup_eq_none]
      exact fun hk => lookup_eq_none.1 hcopy (hmem hk)
    apply h account
    rw [lookup_union_eq, hw]
    rwa [hcopy] at hlookup

end Vacant

/-! ### Programs -/

theorem system_ne_loader : systemProgramId ≠ loaderProgramId := by decide

theorem staking_ne_loader : stakingProgramId ≠ loaderProgramId := by decide

theorem governance_ne_loader : governanceProgramId ≠ loaderProgramId := by decide

example : nativeProgram true loaderProgramId = none := by decide +kernel

section

variable [Crypto] {cfg : LedgerConfig} {payer collector k k' : Pubkey} {names keys : List Pubkey}
  {w₀ w v store : Accounts} {account : Account} {paidIn takenOut amountIn amountOut : ℕ}

/-- No native program but the System program gives an account to the loader. -/
theorem Effects.vacant (h : Effects payer names keys w₀ paidIn takenOut w) (hkeys : keys ≠ [])
    (hk : k ∉ keys) (hv : Vacant k w₀) : Vacant k w := by
  induction h with
  | refl => exact hv
  | @write _ _ _ _ w k' account _ hwrite ih =>
    cases hwrite with
    | credit hk' =>
      rcases hk' with hk' | ⟨rfl, _⟩
      · exact ih.insert_of_ne (ne_of_mem_of_not_mem hk' hk)
      · exact ih.insert_getOrNew system_ne_loader rfl
    | debit _ hlookup | stake _ _ _ hlookup | closeStake _ _ hlookup | proposal _ hlookup
    | closeProposal _ hlookup => exact ih.insert_lookup hlookup rfl
    | data hk' => exact ih.insert_of_ne (ne_of_mem_of_not_mem hk' hk)
    | create _ _ hnil | deploy _ _ hnil => exact absurd hnil hkeys
    | openPosition | position | openStake => exact ih.insert fun _ => staking_ne_loader
    | openProposal => exact ih.insert fun _ => governance_ne_loader

/-- An instruction that creates an account of the loader at an address. -/
def Squats (k : Pubkey) (ix : Instruction) : Prop :=
  ix.programId = systemProgramId ∧ ix.accounts[0]? = some k ∧
    ∃ units, SystemInstruction.decode.all ix.data = some (.createAccount units loaderProgramId)

namespace SystemProgram

omit [Crypto] in
theorem transferInternal_vacant {sender recipient : Pubkey} {amount : U64} (h : Vacant k w) :
    Wp (transferInternal sender recipient amount) w fun _ w' => Vacant k w' := by
  simp only [transferInternal, wp_steps, Exec.wp_put, wp_credit]
  intro account hlookup _ balance _ balance' _
  have hsent : Vacant k (w.insert sender { account with balance := balance }) :=
    h.insert_lookup hlookup rfl
  exact hsent.insert_getOrNew system_ne_loader rfl

/-- The System program gives an address to the loader where the payer deploys, or where it
creates an account for the loader that is not there. -/
theorem process_vacant {ix : Instruction} (hpayer : ∀ salt, k ≠ deriveProgramAddress payer salt)
    (hcreate : ∀ units, SystemInstruction.decode.all ix.data =
      some (.createAccount units loaderProgramId) → ix.accounts[0]? = some k → k ∈ w)
    (h : Vacant k w) : Wp (process ix payer) w fun _ w' => Vacant k w' := by
  simp only [process, wp_rules]
  intro instr hinstr
  cases instr with
  | createAccount units owner =>
    simp only [createAccount, wp_steps, Exec.wp_put]
    intro k' hk'
    apply transferInternal_vacant
    by_cases howner : owner = loaderProgramId
    · apply h.insert
      rintro rfl
      -- the account is there, so it keeps its owner
      have hmem := hcreate units (howner ▸ hinstr) hk'
      obtain ⟨account, hlookup⟩ := Finmap.mem_iff.1 hmem
      rw [Accounts.getOrNew_of_lookup hlookup]
      exact h account hlookup
    · exact h.insert_getOrNew howner rfl
  | transfer amount =>
    simp only [transfer, wp_steps]
    intro sender _ recipient _ _
    exact transferInternal_vacant h
  | deployProgram moduleBytes entryPoint salt =>
    simp only [deployProgram, wp_steps, Exec.wp_put]
    intro _ k' _ haddr _ data _
    exact h.insert_of_ne fun heq => hpayer salt (heq ▸ haddr)

end SystemProgram

/-- An execution by another payer than the one an address belongs to. -/
theorem Runs.vacant {e : Execution} (h : Runs cfg e) (hprotocol : ¬IsProtocolId k)
    (hpayer : ∀ salt, k ≠ deriveProgramAddress e.payer salt)
    (hpda : ∀ programId seed, k ≠ derivePda programId seed) (hcreate : Squats k e.ix → k ∈ e.before)
    (hv : Vacant k (e.before ∪ store)) : Vacant k (e.after ∪ store) := by
  refine hv.union (fun hk => h.mem hk) ?_
  have hbefore := hv.of_union
  cases h with
  | @native program hprogram hrun =>
    by_cases hsystem : program = .system
    · subst hsystem
      have hid : e.ix.programId = systemProgramId := by
        unfold nativeProgram at hprogram
        split_ifs at hprogram with hid
        · exact hid
        all_goals simp at hprogram
      refine SystemProgram.process_vacant hpayer (fun units hdata hk => ?_) hbefore _ _ hrun
      exact hcreate ⟨hid, hk, units, hdata⟩
    · obtain ⟨paidIn, takenOut, heffects⟩ := NativeProgram.process_effects _ _ hrun
      have hkeys : program.keys ≠ [] ∧ ∀ k ∈ program.keys, IsProtocolId k := by
        cases program with
        | system => exact absurd rfl hsystem
        | _ => decide +kernel
      exact heffects.vacant hkeys.1 (fun hk => hprotocol (hkeys.2 k hk)) hbefore
  | contract _ heffect =>
    intro account hlookup
    by_cases hname : k ∈ e.ix.accounts
    · obtain ⟨after, hafter, hwrite⟩ := heffect.write k hname
      obtain rfl := mem_unique hafter hlookup
      have hsame : after.owner = (e.before.getOrNew k systemProgramId).owner := by
        by_contra hne
        obtain ⟨_, seed, hseed⟩ := hwrite.owner hne
        exact hpda _ seed hseed
      rw [hsame]
      exact hbefore.owner_getOrNew system_ne_loader
    · exact hbefore account ((heffect.frame k hname).symm.trans hlookup)

omit [Crypto] in
theorem LedgerWrite.vacant (h : LedgerWrite cfg payer collector v k' account amountIn amountOut)
    (hprotocol : ¬IsProtocolId k) (hv : Vacant k v) : Vacant k (v.insert k' account) := by
  have hne : ∀ n < 27, repeatedByte n ≠ k := by
    rintro n hn rfl
    exact hprotocol (isProtocolId_repeatedByte hn)
  cases h with
  | fee | reserve => exact hv.insert_getOrNew system_ne_loader rfl
  | charge hlookup => exact hv.insert_lookup hlookup rfl
  | feeState hk' =>
    rcases hk' with rfl | rfl
    · exact hv.insert_of_ne (hne 8 (by decide))
    · exact hv.insert_of_ne (hne 5 (by decide))
  | rewardPool => exact hv.insert_of_ne (hne 6 (by decide))

omit [Crypto] in
theorem ClosingWrite.vacant (h : ClosingWrite v k' account amountIn amountOut)
    (hprotocol : ¬IsProtocolId k) (hv : Vacant k v) : Vacant k (v.insert k' account) := by
  have hne : ∀ n < 27, repeatedByte n ≠ k := by
    rintro n hn rfl
    exact hprotocol (isProtocolId_repeatedByte hn)
  cases h with
  | emit => exact hv.insert_of_ne (hne 11 (by decide))
  | spend hk' =>
    rcases hk' with rfl | rfl
    · exact hv.insert_of_ne (hne 20 (by decide))
    · exact hv.insert_of_ne (hne 12 (by decide))
  | reward => exact hv.insert_getOrNew system_ne_loader rfl
  | registry hlookup => exact hv.insert_lookup hlookup rfl
  | global => exact hv.insert_of_ne (hne 15 (by decide))

/-- What the steps of a transaction keep that does not squat at an address unless there was an
account in the beginning. -/
theorem Vacant.keeps {s : Accounts} {round dust : U64} {ok : Execution → Prop}
    (hprotocol : ¬IsProtocolId k) (hpayer : ∀ salt, k ≠ deriveProgramAddress payer salt)
    (hpda : ∀ programId seed, k ≠ derivePda programId seed)
    (hok : ∀ e, ok e → k ∉ s → ¬Squats k e.ix) :
    Keeps cfg payer collector round dust ok fun _ v => Vacant k v ∧ (k ∈ s → k ∈ v) where
  write _ v k' account _ _ h hwrite :=
    ⟨hwrite.vacant hprotocol h.1, fun hk => mem_insert.2 (.inr (h.2 hk))⟩
  exec _ e store h he hcovers hpayer' _ hruns := by
    subst hpayer'
    constructor
    · refine hruns.vacant hprotocol hpayer hpda (fun hsquats => ?_) h.1
      have hs : k ∈ s := by
        by_contra hs
        exact hok e he hs hsquats
      -- the account was there, so it has been copied
      have hnamed : k ∈ e.payer :: e.ix.accounts :=
        mem_cons_of_mem _ (mem_of_getElem? hsquats.2.1)
      rcases mem_union.1 (h.2 hs) with hbefore | hstore
      · exact hbefore
      · exact (hcovers k hnamed).resolve_right fun hnot => hnot hstore
    · intro hs
      rcases mem_union.1 (h.2 hs) with hbefore | hstore
      · exact mem_union.2 (.inl (hruns.mem hbefore))
      · exact mem_union.2 (.inr hstore)
  sweep _ v v' h hsweep := by
    constructor
    · intro account hlookup
      rcases hsweep k with hsame | ⟨before, hbefore, _, _, hafter⟩
      · exact h.1 account (hsame.symm.trans hlookup)
      · obtain rfl := mem_unique hafter hlookup
        exact h.1 before hbefore
    · intro hs
      obtain ⟨account, hlookup⟩ := Finmap.mem_iff.1 (h.2 hs)
      rcases hsweep k with hsame | ⟨_, _, _, _, hafter⟩
      · exact Finmap.mem_iff.2 ⟨account, hsame.trans hlookup⟩
      · exact Finmap.mem_iff.2 ⟨_, hafter⟩

end

/-! ### The address belongs to its payer -/

section

variable [Crypto] {deployer : Pubkey} {salt : List UInt8}

/-- Nothing but the payer and the salt hashes to the address of the payer's program. -/
def CollisionFree (deployer : Pubkey) (salt : List UInt8) : Prop :=
  ∀ bytes, Crypto.sha3 bytes = deriveProgramAddress deployer salt →
    bytes = programAccountDomain ++ deployer.toBytes ++ salt

theorem CollisionFree.ne_deriveProgramAddress (h : CollisionFree deployer salt) {other : Pubkey}
    (hne : other ≠ deployer) (salt' : List UInt8) :
    deriveProgramAddress deployer salt ≠ deriveProgramAddress other salt' := by
  intro heq
  have hbytes := h _ heq.symm
  rw [append_assoc, append_assoc] at hbytes
  have hlength : other.toBytes.length = deployer.toBytes.length := by
    simp [Bytes32.toBytes]
  have hother := (append_inj (append_cancel_left hbytes) hlength).1
  exact hne (Bytes32.toBytes_injective hother)

/-- The two domains differ in their sixteenth byte. -/
theorem CollisionFree.ne_derivePda (h : CollisionFree deployer salt) (programId : Pubkey)
    (seed : List UInt8) : deriveProgramAddress deployer salt ≠ derivePda programId seed := by
  intro heq
  have hbytes := h _ heq.symm
  have hdomains : pdaDomain.take 16 ≠ programAccountDomain.take 16 := by decide +kernel
  apply hdomains
  have htake := congrArg (List.take 16) hbytes
  rw [append_assoc, append_assoc] at htake
  exact htake

end

/-! ### Runs -/

namespace Chain

variable [Crypto] [WasmEngine] {cfg : LedgerConfig} {c : Chain} {deployer : Pubkey}
  {salt : List UInt8} {events : List ChainEvent}

/-- An event that is no transaction of a payer. -/
def OtherPayer (deployer : Pubkey) : ChainEvent → Prop
  | .transaction tx _ _ => tx.message.payer ≠ deployer
  | .participation .. => True

/-- An event that creates no account of the loader at an address where there is none yet. -/
def Unsquatted (k : Pubkey) (c : Chain) : ChainEvent → Prop
  | .transaction tx _ _ => k ∉ c.ledger.store → ∀ ix ∈ tx.message.instructions, ¬Squats k ix
  | .participation .. => True

/-- A transaction of another payer keeps the address of a program vacant. -/
theorem vacant_step (hsha : ∀ bytes, ¬IsProtocolId (Crypto.sha3 bytes))
    (hfree : CollisionFree deployer salt) {event : ChainEvent} (hother : OtherPayer deployer event)
    (hevent : Unsquatted (deriveProgramAddress deployer salt) c event)
    (h : Vacant (deriveProgramAddress deployer salt) c.ledger.store) :
    Vacant (deriveProgramAddress deployer salt) (step cfg c event).ledger.store := by
  have hprotocol : ¬IsProtocolId (deriveProgramAddress deployer salt) := hsha _
  cases event with
  | participation quanto entries =>
    rw [store_step_participation]
    exact h
  | transaction tx feeCollector round =>
    have hpayer := hfree.ne_deriveProgramAddress hother
    have hpda := hfree.ne_derivePda
    generalize deriveProgramAddress deployer salt = k at hevent h hprotocol hpayer hpda ⊢
    have hstep : Vacant k (step cfg c (.transaction tx feeCollector round)).ledger.store ∧
        (k ∈ c.ledger.store →
          k ∈ (step cfg c (.transaction tx feeCollector round)).ledger.store) := by
      refine invariant_step (I := fun _ v => Vacant k v ∧ (k ∈ c.ledger.store → k ∈ v)) hsha
        ?_ (fun _ => ?_) ⟨h, id⟩
      · refine invariant_closed (I := fun _ v => Vacant k v ∧ (k ∈ c.ledger.store → k ∈ v))
          (fun _ v k' account _ _ hv hwrite => ?_) ⟨h, id⟩
        exact ⟨hwrite.vacant hprotocol hv.1, fun hk => mem_insert.2 (.inr (hv.2 hk))⟩
      · refine Vacant.keeps hprotocol hpayer hpda fun e he hnot => ?_
        exact hevent hnot e.ix (Ledger.ix_mem_of_mem_executions he)
    exact hstep.1

omit [WasmEngine] in
/-- No account of genesis belongs to the loader. -/
theorem vacant_seedGenesis [GenesisFormat] {config : NodeConfig} {accounts : Accounts}
    (hseed : config.seedGenesis = some accounts) (k : Pubkey) : Vacant k accounts := by
  refine NodeConfig.seedGenesis_induction (P := Vacant k) ?_ (fun _ h => nomatch h) hseed
  intro v k' account hv hwrite
  cases hwrite with
  | allocation => exact hv.insert_getOrNew system_ne_loader rfl
  | singleton _ howner =>
    have hne : ∀ owner ∈ [stakingProgramId, governanceProgramId, treasuryV7ProgramId],
        owner ≠ loaderProgramId := by decide +kernel
    exact hv.insert fun _ => hne _ howner
  | adminFeeWallet => exact hv.insert fun _ => system_ne_loader

end Chain

/-! ### Deployments -/

namespace SystemProgram

variable [Crypto] {payer : Pubkey} {w : Accounts} {ix : Instruction} {moduleBytes salt : List UInt8}
  {entryPoint : Utf8}

omit [Crypto] in
/-- The texts and bytes of an instruction that was decoded can be encoded again. -/
theorem exists_programData
    (h : SystemInstruction.decode.all ix.data = some (.deployProgram moduleBytes entryPoint salt))
    (deployer : Pubkey) : ∃ data, Borsh.toVec (WasmProgramData.mk entryPoint moduleBytes deployer) =
      some data := by
  have hdecode : SystemInstruction.decode ix.data =
      some (.deployProgram moduleBytes entryPoint salt, []) := by
    unfold Decoder.all at h
    split at h
    next ha =>
      obtain rfl := Option.some.inj h
      exact ha
    next => cases h
  cases hbytes : ix.data with
  | nil =>
    rw [hbytes] at hdecode
    cases hdecode
  | cons t rest =>
    rw [hbytes] at hdecode
    obtain ⟨variant, hvariant, hfields⟩ := bind_eq_some_iff.1 hdecode
    -- the tag is that of the third variant
    generalize t.toNat = tag at hvariant
    rcases tag with _ | _ | _ | tag
    · obtain rfl := Option.some.inj hvariant
      obtain ⟨⟨_, _⟩, _, heq⟩ := Decoder.map_eq_some.1 hfields
      cases heq
    · obtain rfl := Option.some.inj hvariant
      obtain ⟨_, _, heq⟩ := Decoder.map_eq_some.1 hfields
      cases heq
    · obtain rfl := Option.some.inj hvariant
      obtain ⟨⟨_, _, _⟩, hread, heq⟩ := Decoder.map_eq_some.1 hfields
      obtain ⟨rfl, rfl, rfl⟩ := SystemInstruction.deployProgram.inj heq
      obtain ⟨_, hencode, _⟩ := LawfulBorsh.encode_decode hread
      obtain ⟨moduleBytes', hmodule, hencode⟩ := bind_eq_some_iff.1 hencode
      obtain ⟨_, hrest, _⟩ := bind_eq_some_iff.1 hencode
      obtain ⟨entryPoint', hentry, _⟩ := bind_eq_some_iff.1 hrest
      refine ⟨entryPoint' ++ (moduleBytes' ++ deployer.toBytes), ?_⟩
      refine bind_eq_some_iff.2 ⟨_, hentry, bind_eq_some_iff.2 ⟨_, ?_, rfl⟩⟩
      exact bind_eq_some_iff.2 ⟨_, hmodule, rfl⟩
    · cases hvariant

/-- A deployment at a vacant address of the payer succeeds. -/
theorem run_deployProgram
    (hdata : SystemInstruction.decode.all ix.data =
      some (.deployProgram moduleBytes entryPoint salt))
    (hsize : moduleBytes.length ≤ maxProgramBytecodeBytes)
    (hname : ix.accounts[0]? = some (deriveProgramAddress payer salt))
    (h : Vacant (deriveProgramAddress payer salt) w) :
    ∃ w' account, (process ix payer).run w = .ok ((), w') ∧
      w'.lookup (deriveProgramAddress payer salt) = some account ∧
      (account.balance : ℕ) = w.balanceOf (deriveProgramAddress payer salt) ∧
      account.owner = loaderProgramId ∧
      Borsh.fromSlice account.data = some (WasmProgramData.mk entryPoint moduleBytes payer) := by
  obtain ⟨data, hencoded⟩ := exists_programData hdata payer
  have howner := h.owner_getOrNew system_ne_loader
  have hrun : Succeeds (process ix payer) w fun _ w' =>
      w' = w.insert (deriveProgramAddress payer salt)
        { Account.newWallet loaderProgramId with
          balance := (w.getOrNew (deriveProgramAddress payer salt) systemProgramId).balance
          codeHash := Crypto.sha3 moduleBytes
          data := data } := by
    simp [process, deployProgram, hdata, hname, hsize, howner, hencoded]
  obtain ⟨_, w', hok, rfl⟩ := hrun
  refine ⟨_, _, hok, lookup_insert w, Accounts.balance_getOrNew, rfl, ?_⟩
  exact Borsh.fromSlice_eq_some_iff.2 hencoded

end SystemProgram

/-- After every run of transactions of other payers that do not squat at its address, a payer can
deploy a program, and finds the balance there is at the address. -/
theorem Chain.deployProgram_succeeds [Crypto] [WasmEngine] [GenesisFormat] {cfg : LedgerConfig}
    (hsha : ∀ bytes, ¬IsProtocolId (Crypto.sha3 bytes)) {config : NodeConfig}
    {accounts : Accounts} (hseed : config.seedGenesis = some accounts) {deployer : Pubkey}
    {salt : List UInt8} (hfree : CollisionFree deployer salt) {events : List ChainEvent}
    (hothers : ∀ event ∈ events, OtherPayer deployer event)
    (hrun : Run.Meets (step cfg) (Unsquatted (deriveProgramAddress deployer salt))
      (ofAccounts accounts) events)
    {w : Accounts} (hw : w.lookup (deriveProgramAddress deployer salt) =
      (run cfg (ofAccounts accounts) events).ledger.store.lookup
        (deriveProgramAddress deployer salt))
    {ix : Instruction} {moduleBytes : List UInt8} {entryPoint : Utf8}
    (hdata : SystemInstruction.decode.all ix.data =
      some (.deployProgram moduleBytes entryPoint salt))
    (hsize : moduleBytes.length ≤ maxProgramBytecodeBytes)
    (hname : ix.accounts[0]? = some (deriveProgramAddress deployer salt)) :
    ∃ w' account, (SystemProgram.process ix deployer).run w = .ok ((), w') ∧
      w'.lookup (deriveProgramAddress deployer salt) = some account ∧
      (account.balance : ℕ) = w.balanceOf (deriveProgramAddress deployer salt) ∧
      account.owner = loaderProgramId ∧
      Borsh.fromSlice account.data = some (WasmProgramData.mk entryPoint moduleBytes deployer) := by
  have hvacant : Vacant (deriveProgramAddress deployer salt)
      (run cfg (ofAccounts accounts) events).ledger.store := by
    refine hrun.induction (P := fun c => Vacant (deriveProgramAddress deployer salt)
      c.ledger.store) (vacant_seedGenesis hseed _) fun c event hevent hunsquatted h => ?_
    exact vacant_step hsha hfree (hothers event hevent) hunsquatted h
  apply SystemProgram.run_deployProgram hdata hsize hname
  intro account hlookup
  exact hvacant account (hw.symm.trans hlookup)

/-! ### An address that is taken in advance

The first wallet creates an account of the loader where the second wallet would deploy its first
program. -/

section Squatting

/-- A module without contents. -/
def deployModule : List UInt8 := [0, 97, 115, 109, 1, 0, 0, 0]

/-- SHA3-256 on the keys of the wallets, and for the program of the second wallet. -/
def deployHashes : List (List UInt8 × Bytes32) :=
  [(programAccountDomain ++
      (0x07e9e9fc337bb55467fe5ab4788e15eb7f94afe35630136067d5b404a8ad361a : Bytes32).toBytes ++ [5],
    0x7e41c75a835fc22551349f570088196c0b6c832e180279e8ad6202dd6e3bc7b1),
   (deployModule, 0x76fcc948d12ff9ec24dcedd5e76c8fac29cfa916ecc2e1fd73e9d99cadb633ab)] ++
  walletHashes

@[reducible] def deployCrypto : Crypto := .ofHashes deployHashes

/-- The second wallet. -/
def deployer : Pubkey := deployCrypto.sha3 (componentBytes (walletKeys 1).components)

/-- The address of its program. -/
def programAddress : Pubkey := @deriveProgramAddress deployCrypto deployer [5]

def deployAccounts : Accounts :=
  (@NodeConfig.seedGenesis capFormat deployCrypto (capConfig 1000000000)).getD ∅

/-- The name of an exported function. -/
def deployEntry : Utf8 := ⟨[105, 110, 105, 116], by decide⟩

def deployInstruction : Instruction :=
  ⟨systemProgramId, [programAddress],
    2 :: (Borsh.toVec (deployModule, deployEntry, ([5] : List UInt8))).getD []⟩

/-- A transaction of the first wallet. -/
def deployEvent (instructions : List Instruction) : ChainEvent :=
  .transaction
    { message :=
        { version := 1
          payer := deployCrypto.sha3 (componentBytes (walletKeys 0).components)
          payerKeys := walletKeys 0
          nonce := 0
          chainId := 0
          feeLimit := 1000000000
          priorityFee := 0
          validUntilRound := 0
          instructions := instructions }
      signature := hybridSignature }
    deployer 0

/-- Creates an account at the address of the program. -/
def createInstruction (units : U64) (owner : Pubkey) : Instruction :=
  ⟨systemProgramId, [programAddress], 0 :: (Borsh.toVec (units, owner)).getD []⟩

theorem collisionFree_deployer : @CollisionFree deployCrypto deployer [5] := by
  intro bytes hbytes
  have htable : ∀ entry ∈ deployHashes, entry.2 = programAddress →
      entry.1 = programAccountDomain ++ deployer.toBytes ++ [5] := by decide
  exact htable _ (Crypto.mem_of_sha3_ofHashes hbytes (by decide)) rfl

theorem otherPayer_deployEvent (instructions : List Instruction) :
    Chain.OtherPayer deployer (deployEvent instructions) := by
  show deployCrypto.sha3 (componentBytes (walletKeys 0).components) ≠ deployer
  decide +kernel

/-- After the first wallet has created an account of the loader, the second cannot deploy. -/
theorem Chain.deployProgram_squatted :
    (∀ bytes, ¬IsProtocolId (deployCrypto.sha3 bytes)) ∧
      @NodeConfig.seedGenesis capFormat deployCrypto (capConfig 1000000000) =
        some deployAccounts ∧
      @CollisionFree deployCrypto deployer [5] ∧
      OtherPayer deployer (deployEvent [createInstruction 0 loaderProgramId]) ∧
      SystemInstruction.decode.all deployInstruction.data =
        some (.deployProgram deployModule deployEntry [5]) ∧
      deployInstruction.accounts[0]? = some (@deriveProgramAddress deployCrypto deployer [5]) ∧
      ((@SystemProgram.process deployCrypto deployInstruction deployer).run
        (@Chain.run deployCrypto WasmEngine.none capSettings (.ofAccounts deployAccounts)
          [deployEvent [createInstruction 0 loaderProgramId]]).ledger.store).isOk = false := by
  exact ⟨not_isProtocolId_ofHashes (by decide +kernel), by decide +kernel,
    collisionFree_deployer, otherPayer_deployEvent _, by decide +kernel, by decide +kernel,
    by decide +kernel⟩

/-- After it has created another account there, with units, the second can, and keeps the units. -/
theorem Chain.deployProgram_succeeds_wallet :
    let events := [deployEvent [createInstruction 100000000 systemProgramId]]
    Run.Meets (@Chain.step deployCrypto WasmEngine.none capSettings) (Unsquatted programAddress)
        (.ofAccounts deployAccounts) events ∧
      ∃ w' account, (@SystemProgram.process deployCrypto deployInstruction deployer).run
          (@Chain.run deployCrypto WasmEngine.none capSettings (.ofAccounts deployAccounts)
            events).ledger.store = .ok ((), w') ∧
        w'.lookup programAddress = some account ∧ (account.balance : ℕ) = 100000000 ∧
        account.owner = loaderProgramId ∧
        Borsh.fromSlice account.data =
          some (WasmProgramData.mk deployEntry deployModule deployer) := by
  intro events
  have hmeets : Run.Meets (@Chain.step deployCrypto WasmEngine.none capSettings)
      (Unsquatted programAddress) (.ofAccounts deployAccounts) events := by
    refine ⟨fun _ ix hix => ?_, trivial⟩
    rintro ⟨_, _, units, hdecode⟩
    rw [mem_singleton.1 hix] at hdecode
    have hother : SystemInstruction.decode.all (createInstruction 100000000 systemProgramId).data =
        some (.createAccount 100000000 systemProgramId) := by decide +kernel
    rw [hother] at hdecode
    have howner := (SystemInstruction.createAccount.inj (Option.some.inj hdecode)).2
    exact absurd howner (by decide +kernel)
  refine ⟨hmeets, ?_⟩
  obtain ⟨w', account, hrun, hlookup, hbalance, howner, hprogram⟩ := @deployProgram_succeeds
    deployCrypto WasmEngine.none capFormat capSettings
    (not_isProtocolId_ofHashes (by decide +kernel)) (capConfig 1000000000) deployAccounts
    (by decide +kernel) _ _ collisionFree_deployer events (by
      intro event hevent
      rw [List.mem_singleton.1 hevent]
      exact otherPayer_deployEvent _) hmeets _ rfl deployInstruction deployModule deployEntry
    (by decide +kernel) (by decide +kernel) (by decide +kernel)
  refine ⟨w', account, hrun, hlookup, hbalance.trans ?_, howner, hprogram⟩
  decide +kernel

end Squatting

end QChain
