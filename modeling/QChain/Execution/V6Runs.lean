import QChain.Execution.Evidence
import QChain.Execution.V6Steps

/-!
# Runs of the v6 economy

The staking and the governance program as one system. A call is an instruction of either program, or
a share of the fees for those who stake; it works on copies of the accounts it names, which are
written back if it succeeds. The stats account holds the sum of all stakes, except that a report of
equivocation that does not name it burns a stake and leaves the total.
-/

namespace QChain

open Borsh Exec Finmap Ledger Transact

namespace V6

/-! ### Calls -/

/-- A call of the v6 economy: an instruction signed by the keys of its payer, or a share of the
fees. -/
inductive Call
  | staking (ix : Instruction) (signer : PublicKeyBundle) (round : U64)
  | governance (ix : Instruction) (signer : PublicKeyBundle) (round : U64)
  | accrue (share : U64)

namespace Call

/-- The addresses that the instruction of a call names. -/
def named : Call → List Pubkey
  | staking ix _ _ | governance ix _ _ => ix.accounts
  | accrue _ => []

/-- A report of equivocation that does not name the stats account. -/
def Unaccounted : Call → Prop
  | staking ix _ _ => ix.Unaccounted
  | _ => False

variable [Crypto]

/-- The accounts a call works on. -/
def copied : Call → List Pubkey
  | staking ix signer _ | governance ix signer _ => signer.toAddress :: ix.accounts
  | accrue _ => [stakingStatsId, stakingRewardsPoolId]

/-- The program of a call. -/
def program : Call → Exec Unit
  | staking ix signer round => StakingProgram.process ix signer.toAddress round
  | governance ix signer round => GovernanceProgram.process ix signer.toAddress round
  | accrue share => do
    let _ ← accrueRewardPool stakingRewardsPoolId stakingStatsId share
    pure ()

end Call

section Runs

variable [Crypto]

/-- The accounts after a call that succeeds. -/
def execute (accounts : Accounts) (call : Call) : Option Accounts :=
  match call.program.run (Ledger.copies accounts call.copied) with
  | .ok (_, w) => some (w ∪ accounts)
  | .error _ => none

/-- A call that fails changes nothing. -/
def step (accounts : Accounts) (call : Call) : Accounts := (execute accounts call).getD accounts

omit [Crypto] in
/-- Nobody has staked anything. -/
structure Initial (accounts : Accounts) : Prop where
  seeded : accounts.Seeded
  unstaked : ∀ k, storedStake accounts k = none
  total_eq : (storedStats accounts : ℕ) = 0

/-- What is asked of a call that succeeds: none of the accounts it names reads as a stake without
being one, and a condition on the books and the call. -/
def Asks (C : StakeBooks → Call → Prop) (accounts : Accounts) (call : Call) : Prop :=
  (execute accounts call).isSome → (∀ k ∈ call.named, accounts.Genuine k) ∧ C accounts.books call

omit [Crypto] in
instance {crypto : Crypto} (C : StakeBooks → Call → Prop) [∀ b, DecidablePred (C b)]
    (accounts : Accounts) : DecidablePred (@Asks crypto C accounts) :=
  fun _ => inferInstanceAs (Decidable (_ → _))

omit [Crypto] in
/-- Whether nobody has staked anything. -/
theorem initial_of_check {accounts : Accounts}
    (h : (∃ account, accounts.lookup stakingStatsId = some account ∧
          account.owner = stakingProgramId ∧ (fromSlice account.data : Option U64) = some 0) ∧
        (∃ account, accounts.lookup stakingRewardsPoolId = some account ∧
          account.owner = stakingProgramId ∧
            (fromSlice account.data : Option RewardPoolData).isSome) ∧
        validatorRegistryAccountId ∈ accounts ∧
        (∀ k ∈ GovernanceProgram.keys, ∃ account, accounts.lookup k = some account ∧
          account.owner = governanceProgramId) ∧
        ∀ k ∈ accounts.keys, storedStake accounts k = none) : Initial accounts := by
  obtain ⟨⟨stats, hlookup, howner, htotal⟩, ⟨pool, hlookup', howner', hread⟩, hregistry, hgoverned,
    hkeys⟩ := h
  refine ⟨⟨⟨stats, hlookup, howner, 0, htotal⟩,
    ⟨pool, hlookup', howner', Option.isSome_iff_exists.1 hread⟩, hregistry, hgoverned⟩,
    fun k => ?_, ?_⟩
  · by_cases hmem : k ∈ accounts.keys
    · exact hkeys k hmem
    · rw [storedStake, lookup_eq_none.2 fun hk => hmem (mem_keys.2 hk)]
      rfl
  · rw [storedStats_of_lookup hlookup htotal]
    rfl

/-! ### Steps -/

section

variable {accounts accounts' : Accounts} {call : Call} {calls : List Call}

omit [Crypto] in
/-- Copies of some accounts. -/
theorem working_copies (names : List Pubkey) (hseeded : accounts.Seeded) :
    Working names accounts (Ledger.copies accounts names) accounts.books := by
  refine ⟨⟨?_, ?_⟩, covers_copies⟩
  · rwa [copies_union]
  · rw [copies_union]

theorem wp_program (hseeded : accounts.Seeded) (hgenuine : ∀ k ∈ call.named, accounts.Genuine k) :
    Wp call.program (Ledger.copies accounts call.copied) fun _ w => ∃ b,
      StakeStep call.Unaccounted accounts.books b ∧ Working call.copied accounts w b := by
  have hworking := working_copies call.copied hseeded
  cases call with
  | staking ix signer round =>
    refine StakingProgram.wp_process hworking ?_
    rwa [copies_union]
  | governance ix signer round =>
    refine GovernanceProgram.wp_process hworking ?_
    rwa [copies_union]
  | accrue share =>
    show Wp (do
      let _ ← accrueRewardPool stakingRewardsPoolId stakingStatsId share
      pure ()) _ _
    rw [wp_bind]
    refine (wp_accrueRewardPool_books hworking (by simp [Call.copied])).mono fun _ w hw => ?_
    exact (wp_pure _).2 ⟨_, .keeps, hw⟩

/-- A call that succeeds is a step of the books. -/
theorem execute_step (hseeded : accounts.Seeded) (hgenuine : ∀ k ∈ call.named, accounts.Genuine k)
    (h : execute accounts call = some accounts') :
    accounts'.Seeded ∧ StakeStep call.Unaccounted accounts.books accounts'.books := by
  unfold execute at h
  split at h
  · case h_1 w hrun =>
      obtain rfl := Option.some.inj h
      obtain ⟨b, hstep, hw⟩ := wp_program hseeded hgenuine () w hrun
      rw [hw.books_eq]
      exact ⟨hw.seeded, hstep⟩
  · cases h

/-- What the calls of a run keep, if they are as asked. -/
theorem run_keeps (hseeded : accounts.Seeded) {C : StakeBooks → Call → Prop} {I : StakeBooks → Prop}
    (h : I accounts.books) (hrun : Run.Meets step (Asks C) accounts calls)
    (hstep : ∀ {b b' call}, I b → C b call → StakeStep call.Unaccounted b b' → I b') :
    (Run.run step accounts calls).Seeded ∧ I (Run.run step accounts calls).books := by
  refine hrun.induction (P := fun accounts => accounts.Seeded ∧ I accounts.books) ⟨hseeded, h⟩ ?_
  rintro accounts call _ hasks ⟨hseeded, h⟩
  unfold step
  cases hexec : execute accounts call with
  | none => exact ⟨hseeded, h⟩
  | some accounts' =>
    obtain ⟨hgenuine, hC⟩ := hasks (by rw [hexec]; rfl)
    obtain ⟨hseeded', hbooks⟩ := execute_step hseeded hgenuine hexec
    exact ⟨hseeded', hstep h hC hbooks⟩

omit [Crypto] in
theorem Initial.stakes_eq (h : Initial accounts) : accounts.books.stakes = ∅ := by
  apply ext_lookup
  intro k
  rw [lookup_empty]
  cases hstake : accounts.books.stakes.lookup k with
  | none => rfl
  | some stake =>
    obtain ⟨account, hlookup, _, _, hread⟩ := exists_of_lookup_stakes hstake
    have hnone := h.unstaked k
    rw [storedStake_of_lookup hlookup hread] at hnone
    cases hnone

end

/-! ### The total -/

/-- The total is the sum of the stakes. -/
def Exact (b : StakeBooks) : Prop := (b.total : ℕ) = b.stakes.total fun stake => stake.amount

/-- A report of equivocation names the stats account. -/
def Accounted (_ : StakeBooks) : Call → Prop
  | .staking ix _ _ => match StakingInstruction.decode.all ix.data with
    | some (.reportEquivocation _) => stakingStatsId ∈ ix.accounts
    | _ => True
  | _ => True

instance (b : StakeBooks) : DecidablePred (Accounted b) := fun call => by
  unfold Accounted
  split
  · split <;> infer_instance
  · infer_instance

omit [Crypto] in
theorem Exact.step {b b' : StakeBooks} {call : Call} (h : Exact b) (hcall : Accounted b call)
    (hstep : StakeStep call.Unaccounted b b') : Exact b' := by
  cases hstep with
  | opens hk htotal =>
    unfold Exact at h ⊢
    rw [total_insert_of_notMem hk, htotal, h]
  | @replaces k stake stake' total hstake htotal =>
    have hsum : (b.stakes.insert k stake').total (fun stake => stake.amount) + stake.amount =
        b.stakes.total (fun stake => stake.amount) + stake'.amount :=
      total_insert_of_lookup hstake
    unfold Exact at h ⊢
    dsimp only
    omega
  | burns hunaccounted =>
    cases call with
    | staking ix signer round =>
      obtain ⟨evidence, hix, hnot⟩ := hunaccounted
      simp only [Accounted, hix] at hcall
      exact absurd hcall hnot
    | governance | accrue => cases hunaccounted
  | keeps => exact h

/-- In every run whose reports name the stats account, the total is the sum of all stakes. -/
theorem total_exact {accounts : Accounts} (hinit : Initial accounts) {calls : List Call}
    (hrun : Run.Meets step (Asks Accounted) accounts calls) :
    (storedStats (Run.run step accounts calls) : ℕ) =
      (Run.run step accounts calls).books.stakes.total fun stake => stake.amount := by
  have hexact : Exact accounts.books := by
    rw [Exact, hinit.stakes_eq]
    exact hinit.total_eq
  exact (run_keeps hinit.seeded hexact hrun fun h hcall => h.step hcall).2

end Runs

/-! ### A report without the stats account -/

section Report

/-- A v6 network with five wallets. -/
def v6Accounts : Accounts :=
  (@NodeConfig.seedGenesis capFormat oldCrypto
    { memberConfig [] with economicsV7 := false }).getD ∅

/-- A call of the staking program by the `i`-th wallet. -/
def stakingCall (i : UInt8) (names : List Pubkey) (data : List UInt8) (round : U64) : Call :=
  .staking ⟨stakingProgramId, names, data⟩ (walletKeys i) round

/-- The `i`-th wallet stakes for a validator. -/
def delegateCall (i : UInt8) (k validator : Pubkey) (amount round : U64) : Call :=
  stakingCall i [memberAddress i, k, stakingStatsId, stakingRewardsPoolId]
    (0 :: (toVec (validator, amount)).getD []) round

/-- The third wallet reports the first one, whose own stake is at the given address. -/
def reportCall (names : List Pubkey) : Call :=
  stakingCall 2 names (3 :: (toVec (oldFields [], hybridSignature, oldFields [0], hybridSignature,
    walletKeys 0)).getD []) 1

/-- The first wallet stakes for itself and is reported. -/
def reportRun (names : List Pubkey) : List Call :=
  [delegateCall 0 7777 (memberAddress 0) 5 0, reportCall (7777 :: chainIdAccountId :: names)]

theorem initial_v6Accounts : Initial v6Accounts := initial_of_check (by decide +kernel)

theorem oldCrypto_sha3 : ∀ bytes, ¬IsProtocolId (oldCrypto.sha3 bytes) :=
  @not_isProtocolId_ofHashes oldHashes (by decide +kernel)

/-- After a report that does not name the stats account, the total counts a stake that is no
longer there. -/
theorem total_inflated :
    (∀ bytes, ¬IsProtocolId (oldCrypto.sha3 bytes)) ∧ Initial v6Accounts ∧
      Run.Meets (@step oldCrypto) (@Asks oldCrypto fun _ _ => True) v6Accounts (reportRun []) ∧
      (storedStats (Run.run (@step oldCrypto) v6Accounts (reportRun [])) : ℕ) = 5 ∧
      ((Run.run (@step oldCrypto) v6Accounts (reportRun [])).books.stakes.total
        fun stake => stake.amount) = 0 :=
  ⟨oldCrypto_sha3, initial_v6Accounts, by decide +kernel, by decide +kernel, by decide +kernel⟩

/-- The same report with the stats account. -/
theorem total_exact_reportRun :
    (storedStats (Run.run (@step oldCrypto) v6Accounts (reportRun [stakingStatsId])) : ℕ) =
      (Run.run (@step oldCrypto) v6Accounts (reportRun [stakingStatsId])).books.stakes.total
        fun stake => stake.amount :=
  @total_exact oldCrypto v6Accounts initial_v6Accounts (reportRun [stakingStatsId])
    (by decide +kernel)

end Report

end V6

end QChain
