import QChain.Execution.Charge

/-!
# The base fee over a gap of rounds

Nothing is written in a round without transactions. The next transaction closes the round that was
accumulating and every empty one since. A gap that is closed in several steps, by transactions of
no bytes, leaves the same base fee as one that is closed at once.
-/

namespace QChain

open Function Ledger List Option Transact

/-- The fees between the floor and the ceiling. -/
abbrev feeRange : Set U64 := Set.Icc feeMinBaseFeePerByte maxBaseFeePerByte

/-- The fee after a round without transactions. -/
abbrev afterEmptyRound (fee : U64) : U64 := nextBaseFee fee 0 feeTargetBytesPerRound

theorem nextBaseFee_mem (current bytes : U64) :
    nextBaseFee current bytes feeTargetBytesPerRound ∈ feeRange := by
  have hclamp : ∀ next : U64, (if next < feeMinBaseFeePerByte then feeMinBaseFeePerByte
      else if maxBaseFeePerByte < next then maxBaseFeePerByte else next) ∈ feeRange := by
    intro next
    split_ifs with hlow hhigh
    · exact ⟨le_rfl, by decide⟩
    · exact ⟨by decide, le_rfl⟩
    · exact ⟨not_lt.1 hlow, not_lt.1 hhigh⟩
  rw [nextBaseFee, if_neg (by decide)]
  exact hclamp _

/-- The floor is a fixed point, so that leaving the loop there changes nothing. -/
theorem decayBaseFee_eq_iterate (n : ℕ) {fee : U64} (h : feeMinBaseFeePerByte ≤ fee) :
    decayBaseFee feeTargetBytesPerRound n fee = afterEmptyRound^[n] fee := by
  induction n generalizing fee with
  | zero => rfl
  | succ n ih =>
    rw [decayBaseFee, iterate_succ_apply]
    split_ifs with hlt
    · exact ih (nextBaseFee_mem fee 0).1
    · have hfixed : afterEmptyRound feeMinBaseFeePerByte = feeMinBaseFeePerByte := by decide +kernel
      obtain rfl := le_antisymm (not_lt.1 hlt) h
      rw [hfixed, iterate_fixed hfixed]

/-- What the fees of later rounds are computed from. -/
structure FeeEpoch where
  base : U64
  round : U64
  bytes : U64
  deriving DecidableEq

namespace FeeEpoch

/-- The fee of a round. -/
def feeAt (x : FeeEpoch) (r : U64) : U64 :=
  rolledBaseFee x.base x.round x.bytes r feeTargetBytesPerRound

/-- A transaction of the given round and size. -/
def advance (x : FeeEpoch) (t : U64 × U64) : FeeEpoch :=
  if x.round < t.1 then ⟨x.feeAt t.1, t.1, t.2⟩
  else { x with bytes := Word.clamp (x.bytes + t.2) }

variable {x y : FeeEpoch} {r m bytes : U64}

theorem feeAt_of_le (h : r ≤ x.round) : x.feeAt r = x.base := if_pos h

theorem feeAt_of_lt (h : x.round < r) : x.feeAt r =
    afterEmptyRound^[r - x.round - 1] (nextBaseFee x.base x.bytes feeTargetBytesPerRound) := by
  rw [feeAt, rolledBaseFee, if_neg (not_le.2 h)]
  exact decayBaseFee_eq_iterate _ (nextBaseFee_mem _ _).1

theorem feeAt_mem (h : x.base ∈ feeRange) : x.feeAt r ∈ feeRange := by
  rcases le_or_gt r x.round with hle | hlt
  · rwa [feeAt_of_le hle]
  · rw [feeAt_of_lt hlt]
    exact Function.Iterate.rec (· ∈ feeRange) (nextBaseFee_mem _ _)
      (fun fee _ => nextBaseFee_mem fee 0) _

theorem base_advance : (x.advance (r, bytes)).base = x.feeAt r := by
  unfold advance
  split_ifs with h
  · rfl
  · exact (feeAt_of_le (not_lt.1 h)).symm

theorem clamp_zero_add : Word.clamp ((0 : U64) + bytes) = bytes := by
  have hlt := bytes.toNat_lt
  rw [← Word.toNat_inj, Word.toNat_clamp, Word.toNat_zero]
  omega

/-- A transaction of no bytes before another leaves no trace after it. -/
theorem advance_advance (h : m ≤ r) :
    (x.advance (m, 0)).advance (r, bytes) = x.advance (r, bytes) := by
  by_cases hm : x.round < m
  · have hfirst : x.advance (m, 0) = ⟨x.feeAt m, m, 0⟩ := if_pos hm
    have hsecond : x.advance (r, bytes) = ⟨x.feeAt r, r, bytes⟩ := if_pos (hm.trans_le h)
    rw [hfirst, hsecond]
    rcases h.eq_or_lt with rfl | hr
    · rw [advance, if_neg (lt_irrefl _), clamp_zero_add]
    · -- the empty rounds up to the first and from there to the second are those up to the second
      have hsum : (r : ℕ) - x.round - 1 = (r - m - 1 + 1) + (m - x.round - 1) := by
        rw [Word.lt_iff] at hm hr
        omega
      rw [advance, if_pos hr, feeAt_of_lt hr, feeAt_of_lt hm, feeAt_of_lt (hm.trans hr), hsum,
        iterate_add_apply, iterate_succ_apply]
  · have hsame : x.advance (m, 0) = x := by
      rw [advance, if_neg hm, Nat.add_comm, clamp_zero_add]
    rw [hsame]

variable {ts : List (U64 × U64)}

theorem base_foldl_mem (h : x.base ∈ feeRange) : (ts.foldl advance x).base ∈ feeRange := by
  induction ts generalizing x with
  | nil => exact h
  | cons t ts ih =>
    apply ih
    rw [base_advance]
    exact feeAt_mem h

/-- Two states that later transactions cannot tell apart stay so if those of no bytes are left out
after one of them. -/
theorem advance_foldl_filter (hsorted : ts.Pairwise fun s t => s.1 ≤ t.1)
    (hlater : ∀ t ∈ ts, m ≤ t.1)
    (hxy : ∀ r bytes, m ≤ r → x.advance (r, bytes) = y.advance (r, bytes)) (hm : m ≤ r)
    (hr : ∀ t ∈ ts, t.1 ≤ r) :
    (ts.foldl advance x).advance (r, bytes) =
      ((ts.filter (·.2 ≠ 0)).foldl advance y).advance (r, bytes) := by
  induction ts generalizing x y m with
  | nil => exact hxy r bytes hm
  | cons t ts ih =>
    obtain ⟨m', size⟩ := t
    obtain ⟨hround, hsorted⟩ := pairwise_cons.1 hsorted
    obtain ⟨hm', hr⟩ := forall_mem_cons.1 hr
    have hmm' : m ≤ m' := (forall_mem_cons.1 hlater).1
    by_cases hzero : size = 0
    · rw [filter_cons_of_neg (by simp [hzero]), hzero]
      refine ih hsorted hround (fun r bytes hle => ?_) hm' hr
      exact (advance_advance hle).trans (hxy r bytes (hmm'.trans hle))
    · rw [filter_cons_of_pos (by simp [hzero]), foldl_cons, foldl_cons,
        hxy m' size hmm']
      exact ih hsorted hround (fun _ _ _ => rfl) hm' hr

end FeeEpoch

/-! ### The ledger -/

/-- The state of the dynamic fee in the accounts, if there is one and it decodes. -/
def storedEpoch (accounts : Accounts) : Option FeeEpoch :=
  (storedParams accounts).bind fun params => (accounts.lookup feeStateAccountId).bind fun account =>
    (FeeState.readOrLegacy account.data).map fun fs =>
      ⟨params.baseFeePerByte, fs.epochRound, fs.epochBytes⟩

/-- Transactions of the given rounds and sizes, one after the other. -/
def advanceAll (ts : List (U64 × U64)) : LedgerM Unit :=
  ts.forM fun t => advanceDynamicFee t.1 t.2

variable {l l' : Ledger} {x : FeeEpoch} {r bytes : U64} {ts us : List (U64 × U64)}

theorem storedEpoch_eq_some {accounts : Accounts} : storedEpoch accounts = some x ↔
    ∃ params, storedParams accounts = some params ∧
      ∃ account, accounts.lookup feeStateAccountId = some account ∧
        ∃ fs, FeeState.readOrLegacy account.data = some fs ∧
          ⟨params.baseFeePerByte, fs.epochRound, fs.epochBytes⟩ = x := by
  simp only [storedEpoch, bind_eq_some_iff, map_eq_some_iff]

/-- The fee a reader sees. -/
theorem run_effectiveBaseFeeAt (h : storedEpoch l.store = some x) :
    (effectiveBaseFeeAt r).run l = .ok (x.feeAt r, l) := by
  obtain ⟨params, hparams, account, hlookup, fs, hread, rfl⟩ := storedEpoch_eq_some.1 h
  have hcurrent : currentParams.run l = pure (params, l) := by
    unfold storedParams at hparams
    unfold currentParams
    cases hfound : l.store.lookup paramsAccountId with
    | none | some account => simp_all [orThrow]
  simp only [effectiveBaseFeeAt, StateT.run_bind, hcurrent, pure_bind, StateT.run_get, hlookup,
    hread, orThrow]
  rfl

/-- The base fee of a later round is written into the parameters, and nothing else. -/
theorem wp_rollBaseFee {fs : FeeState} :
    Wp (rollBaseFee fs r) l fun _ l' => ∃ params, storedParams l.store = some params ∧
      storedParams l'.store = some { params with
        baseFeePerByte := rolledBaseFee params.baseFeePerByte fs.epochRound fs.epochBytes r
          feeTargetBytesPerRound } := by
  simp only [rollBaseFee, wp_rules, wp_currentParams, wp_ite, wp_writeAccount]
  intro params hparams
  refine ⟨fun _ bytes hbytes => ⟨params, hparams, ?_⟩, fun hsame => ⟨params, hparams, ?_⟩⟩
  · rw [storedParams, Finmap.lookup_insert]
    show EconomicParams.readOrLegacy bytes = _
    rw [EconomicParams.readOrLegacy, Borsh.fromSlice_eq_some_iff.2 hbytes, some_or,
      some_or]
  · rw [not_not.1 hsame]
    exact hparams

/-- The v6 emission changes no account but that of the reward pool. -/
theorem lookup_emitForRounds {fs : FeeState} {params : EconomicParams} :
    Wp (emitForRounds fs params r) l fun _ l' =>
      ∀ k ≠ stakingRewardsPoolId, l'.store.lookup k = l.store.lookup k := by
  simp only [emitForRounds, wp_rules, wp_ite, wp_runOn, implies_true, and_true]
  intro _ _ paid accounts' _
  cases paid with
  | false => exact (wp_pure _).2 fun _ _ => rfl
  | true =>
    simp only [wp_rules, writeBack, wp_modify]
    intro k hk
    rw [lookup_foldl_copyAt, if_neg (by simpa using hk), none_or]

/-- A transaction advances the state of the dynamic fee. -/
theorem wp_advanceDynamicFee (h : storedEpoch l.store = some x) :
    Wp (advanceDynamicFee r bytes) l fun _ l' =>
      storedEpoch l'.store = some (x.advance (r, bytes)) := by
  obtain ⟨params, hparams, account, hlookup, fs, hread, rfl⟩ := storedEpoch_eq_some.1 h
  have hroll : Wp (rollFeeState fs r) l fun fs' l' => ∃ params',
      storedParams l'.store = some params' ∧
      ⟨params'.baseFeePerByte, fs'.epochRound, Word.clamp (fs'.epochBytes + bytes)⟩ =
        FeeEpoch.advance ⟨params.baseFeePerByte, fs.epochRound, fs.epochBytes⟩ (r, bytes) := by
    simp only [rollFeeState, wp_ite, wp_rules]
    refine ⟨fun hlater => wp_rollBaseFee.mono ?_, fun hsame => ⟨params, hparams, ?_⟩⟩
    · rintro _ l₁ ⟨params₁, hparams₁, hrolled⟩
      obtain rfl := mem_unique hparams hparams₁
      refine lookup_emitForRounds.mono fun _ l₂ h₂ => ?_
      rw [storedParams, ← h₂ _ (by decide +kernel)] at hrolled
      refine ⟨_, hrolled, ?_⟩
      rw [FeeEpoch.advance, if_pos hlater, FeeEpoch.clamp_zero_add]
      rfl
    · rw [FeeEpoch.advance, if_neg hsame]
  simp only [advanceDynamicFee, wp_rules, feeStateOf, hlookup, hread]
  rintro _ ⟨⟩
  refine hroll.mono ?_
  rintro fs' l₁ ⟨params', hparams', hadvance⟩
  simp only [wp_writeAccount]
  intro data hdata
  refine storedEpoch_eq_some.2 ⟨params', ?_, _, Finmap.lookup_insert _,
    { fs' with epochBytes := Word.clamp (fs'.epochBytes + bytes) }, ?_, hadvance⟩
  · rw [storedParams, Finmap.lookup_insert_of_ne _ (by decide +kernel)]
    exact hparams'
  · rw [FeeState.readOrLegacy, Borsh.fromSlice_eq_some_iff.2 hdata, some_or]

theorem wp_advanceAll (h : storedEpoch l.store = some x) :
    Wp (advanceAll ts) l fun _ l' =>
      storedEpoch l'.store = some (ts.foldl FeeEpoch.advance x) := by
  induction ts generalizing l x with
  | nil => exact (wp_pure _).2 h
  | cons t ts ih => exact (wp_advanceDynamicFee h).bind fun _ _ h₁ => ih h₁

/-- The fee of a round in a ledger: what a reader sees and what the next transaction stores. -/
def Prices (l : Ledger) (r fee : U64) : Prop :=
  (effectiveBaseFeeAt r).run l = .ok (fee, l) ∧
    ∀ bytes l', (advanceDynamicFee r bytes).run l = .ok ((), l') →
      (storedEpoch l'.store).map FeeEpoch.base = some fee

theorem prices_of_storedEpoch (h : storedEpoch l.store = some x) : Prices l r (x.feeAt r) := by
  refine ⟨run_effectiveBaseFeeAt h, fun bytes l' hadvance => ?_⟩
  rw [wp_advanceDynamicFee h _ _ hadvance, map_some, FeeEpoch.base_advance]

/-- The dynamic fee does not depend on the path. After any transactions with rounds that do not
fall, every round has one fee within the bounds, the one that is read and that is stored. From
their last round on it is the same after two such runs that differ in transactions of no bytes. -/
theorem dynamicFee_pathIndependent {lt lu : Ledger} (hepoch : storedEpoch l.store = some x)
    (hbase : x.base ∈ feeRange) (hts : ts.Pairwise fun s t => s.1 ≤ t.1)
    (hus : us.Pairwise fun s t => s.1 ≤ t.1) (hsame : ts.filter (·.2 ≠ 0) = us.filter (·.2 ≠ 0))
    (ht : (advanceAll ts).run l = .ok ((), lt)) (hu : (advanceAll us).run l = .ok ((), lu))
    (r : U64) :
    ∃ feeT ∈ feeRange, ∃ feeU ∈ feeRange, Prices lt r feeT ∧ Prices lu r feeU ∧
      ((∀ t ∈ ts, t.1 ≤ r) → (∀ u ∈ us, u.1 ≤ r) → feeT = feeU) := by
  refine ⟨_, FeeEpoch.feeAt_mem (FeeEpoch.base_foldl_mem hbase), _,
    FeeEpoch.feeAt_mem (FeeEpoch.base_foldl_mem hbase),
    prices_of_storedEpoch (wp_advanceAll hepoch _ _ ht),
    prices_of_storedEpoch (wp_advanceAll hepoch _ _ hu), fun hr hr' => ?_⟩
  have hzero : ∀ r : U64, 0 ≤ r := fun _ => Nat.zero_le _
  rw [← @FeeEpoch.base_advance _ r 0, ← @FeeEpoch.base_advance _ r 0,
    FeeEpoch.advance_foldl_filter hts (fun t _ => hzero t.1) (fun _ _ _ => rfl) (hzero r) hr, hsame,
    FeeEpoch.advance_foldl_filter hus (fun t _ => hzero t.1) (fun _ _ _ => rfl) (hzero r) hr']

/-- The first round, full at the floor. -/
def fullRound : Ledger :=
  .ofAccounts (.singleton feeStateAccountId { Account.newWallet feeStateAccountId with
    data := (Borsh.toVec (⟨1, 900000, 0⟩ : FeeState)).getD [] })

/-- The gap after a full round, closed by one transaction or by two. -/
theorem dynamicFee_pathIndependent_gap :
    ∃ lt lu fee, (advanceAll [(5, 100)]).run fullRound = .ok ((), lt) ∧
      (advanceAll [(3, 0), (5, 100)]).run fullRound = .ok ((), lu) ∧
      Prices lt 5 fee ∧ Prices lu 5 fee := by
  obtain ⟨_, lt, ht⟩ := @exists_run_of_isOk _ (advanceAll [(5, 100)]) fullRound (by decide +kernel)
  obtain ⟨_, lu, hu⟩ := @exists_run_of_isOk _ (advanceAll [(3, 0), (5, 100)]) fullRound
    (by decide +kernel)
  have hepoch : storedEpoch fullRound.store = some ⟨180, 1, 900000⟩ := by decide +kernel
  obtain ⟨feeT, _, feeU, _, hT, hU, hsame⟩ := dynamicFee_pathIndependent hepoch (by decide)
    (by decide) (by decide) (by decide) ht hu 5
  rw [← hsame (by decide) (by decide)] at hU
  exact ⟨lt, lu, feeT, ht, hu, hT, hU⟩

end QChain
