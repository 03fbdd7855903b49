import QChain.Execution.Trace

/-!
# The books of the v6 economy

The stakes and their total, as the accounts hold them. The staking program finds a stake by reading
whatever data is in the account it is given. An account that reads as a stake without being one is
*disguised*: it belongs to another program, or it is the validator registry. The results ask that
none is named.
-/

namespace QChain

open Accounts Borsh Exec Finmap Option Transact

/-! ### Books -/

/-- The stakes of the v6 economy with their total. -/
@[ext] structure StakeBooks where
  stakes : Finmap fun _ : Pubkey => StakeAccountData
  total : U64

/-- The record of a stake account: an account of the staking program that is not the validator
registry. -/
def stakeAt (k : Pubkey) (account : Account) : Option StakeAccountData :=
  if account.owner = stakingProgramId ∧ k ≠ validatorRegistryAccountId then
    StakeAccountData.readOrLegacy account.data
  else none

namespace Accounts

variable (accounts : Accounts)

/-- The books of a set of accounts. -/
def books : StakeBooks where
  stakes := accounts.filterMapValues stakeAt
  total := storedStats accounts

/-- An account that reads as a stake is one. -/
def Genuine (k : Pubkey) : Prop :=
  ∀ account, accounts.lookup k = some account →
    StakeAccountData.readOrLegacy account.data = stakeAt k account

instance (accounts : Accounts) (k : Pubkey) : Decidable (accounts.Genuine k) :=
  decidable_of_iff ((accounts.lookup k).all fun account =>
    StakeAccountData.readOrLegacy account.data = stakeAt k account)
    (by simp only [Genuine, all_eq_true, decide_eq_true_iff])

/-- The accounts that genesis puts there for both programs. -/
structure Seeded (accounts : Accounts) : Prop where
  stats : ∃ account, accounts.lookup stakingStatsId = some account ∧
    account.owner = stakingProgramId ∧ ∃ total : U64, fromSlice account.data = some total
  pool : ∃ account, accounts.lookup stakingRewardsPoolId = some account ∧
    account.owner = stakingProgramId ∧ ∃ pool : RewardPoolData, fromSlice account.data = some pool
  registry : validatorRegistryAccountId ∈ accounts
  governed : ∀ k ∈ GovernanceProgram.keys,
    ∃ account, accounts.lookup k = some account ∧ account.owner = governanceProgramId

end Accounts

/-- An address that can be a stake's. -/
structure IsStakeKey (k : Pubkey) : Prop where
  ne_stats : k ≠ stakingStatsId
  ne_pool : k ≠ stakingRewardsPoolId
  ne_registry : k ≠ validatorRegistryAccountId

section Contents

variable {k : Pubkey} {account : Account} {accounts : Accounts}

/-- Short data are no stake. -/
theorem stakeAt_eq_none (h : account.data.length < 105) : stakeAt k account = none := by
  unfold stakeAt
  split_ifs
  · exact readOrLegacy_eq_none h
  · rfl

theorem stakeAt_of_owner_ne (h : account.owner ≠ stakingProgramId) : stakeAt k account = none :=
  if_neg fun h' => h h'.1

theorem length_stats {data : List UInt8} {total : U64} (h : fromSlice data = some total) :
    data.length < 105 := by
  rw [length_toVec (fromSlice_eq_some_iff.1 h)]
  decide

theorem length_pool {data : List UInt8} {pool : RewardPoolData} (h : fromSlice data = some pool) :
    data.length < 105 := by
  rw [length_toVec (fromSlice_eq_some_iff.1 h)]
  decide

theorem storedStats_of_lookup {total : U64}
    (hlookup : accounts.lookup stakingStatsId = some account)
    (htotal : fromSlice account.data = some total) : storedStats accounts = total := by
  rw [storedStats, hlookup, bind_some, htotal]
  rfl

/-- A genuine account that reads as a stake is in the books. -/
theorem Accounts.Genuine.lookup_stakes (h : accounts.Genuine k)
    (hlookup : accounts.lookup k = some account) :
    accounts.books.stakes.lookup k = StakeAccountData.readOrLegacy account.data := by
  rw [Accounts.books, lookup_filterMapValues, hlookup, bind_some, h account hlookup]

/-- A stake in the books is that of an account. -/
theorem exists_of_lookup_stakes {stake : StakeAccountData}
    (h : accounts.books.stakes.lookup k = some stake) : ∃ account,
      accounts.lookup k = some account ∧ account.owner = stakingProgramId ∧
        k ≠ validatorRegistryAccountId ∧
        StakeAccountData.readOrLegacy account.data = some stake := by
  rw [Accounts.books, lookup_filterMapValues, bind_eq_some_iff] at h
  obtain ⟨account, hlookup, hstake⟩ := h
  unfold stakeAt at hstake
  split_ifs at hstake with howner
  exact ⟨account, hlookup, howner.1, howner.2, hstake⟩

end Contents

/-! ### Writes -/

/-- The accounts of genesis are there, and these are the books. -/
structure Records (accounts : Accounts) (books : StakeBooks) : Prop where
  seeded : accounts.Seeded
  books_eq : accounts.books = books

section Writes

variable {accounts : Accounts} {k : Pubkey} {account a : Account} {stake : StakeAccountData}

/-- A write that keeps the owner, and the contents of the total and of the pool readable. -/
theorem Accounts.Seeded.insert (h : accounts.Seeded)
    (howner : ∀ account, accounts.lookup k = some account → a.owner = account.owner)
    (hstats : k = stakingStatsId → ∃ total : U64, fromSlice a.data = some total)
    (hpool : k = stakingRewardsPoolId → ∃ pool : RewardPoolData, fromSlice a.data = some pool) :
    Accounts.Seeded (accounts.insert k a) where
  stats := by
    obtain ⟨account, hlookup, hprogram, htotal⟩ := h.stats
    rw [Finmap.lookup_insert_eq]
    split_ifs with hk
    · subst hk
      exact ⟨a, rfl, (howner account hlookup).trans hprogram, hstats rfl⟩
    · exact ⟨account, hlookup, hprogram, htotal⟩
  pool := by
    obtain ⟨account, hlookup, hprogram, hread⟩ := h.pool
    rw [Finmap.lookup_insert_eq]
    split_ifs with hk
    · subst hk
      exact ⟨a, rfl, (howner account hlookup).trans hprogram, hpool rfl⟩
    · exact ⟨account, hlookup, hprogram, hread⟩
  registry := mem_insert.2 (.inr h.registry)
  governed := by
    intro k' hk'
    obtain ⟨account, hlookup, hprogram⟩ := h.governed k' hk'
    rw [Finmap.lookup_insert_eq]
    split_ifs with hk
    · subst hk
      exact ⟨a, rfl, (howner account hlookup).trans hprogram⟩
    · exact ⟨account, hlookup, hprogram⟩

theorem storedStats_insert (hk : k ≠ stakingStatsId) :
    storedStats (accounts.insert k a) = storedStats accounts := by
  rw [storedStats, lookup_insert_of_ne _ (Ne.symm hk)]
  rfl

variable (h : accounts.Seeded)

include h

/-- A write that keeps the owner and touches neither a stake nor the total. -/
theorem records_same
    (howner : ∀ account, accounts.lookup k = some account → a.owner = account.owner)
    (hstats : k = stakingStatsId → ∀ account, accounts.lookup k = some account →
      a.data = account.data)
    (hpool : k = stakingRewardsPoolId → ∃ pool : RewardPoolData, fromSlice a.data = some pool)
    (hstake : stakeAt k a = (accounts.lookup k).bind (stakeAt k)) :
    Records (accounts.insert k a) accounts.books := by
  have htotal : k = stakingStatsId → ∃ total : U64, fromSlice a.data = some total ∧
      storedStats accounts = total := by
    rintro rfl
    obtain ⟨account, hlookup, _, total, htotal⟩ := h.stats
    rw [hstats rfl account hlookup]
    exact ⟨total, htotal, storedStats_of_lookup hlookup htotal⟩
  refine ⟨h.insert howner (fun hk => ?_) hpool, ?_⟩
  · obtain ⟨total, hread, _⟩ := htotal hk
    exact ⟨total, hread⟩
  · ext1
    · exact filterMapValues_insert_of_eq hstake
    · show storedStats (accounts.insert k a) = storedStats accounts
      by_cases hk : k = stakingStatsId
      · obtain ⟨total, hread, hsame⟩ := htotal hk
        subst hk
        rw [hsame, storedStats_of_lookup (lookup_insert _) hread]
      · exact storedStats_insert hk

/-- The balance of an account changes. -/
theorem records_balance (howner : a.owner = (accounts.getOrNew k systemProgramId).owner)
    (hdata : a.data = (accounts.getOrNew k systemProgramId).data) :
    Records (accounts.insert k a) accounts.books := by
  have hsame : ∀ account, accounts.lookup k = some account →
      a.owner = account.owner ∧ a.data = account.data := by
    intro account hlookup
    rw [howner, hdata, getOrNew_of_lookup hlookup]
    exact ⟨rfl, rfl⟩
  refine records_same h (fun account hlookup => (hsame account hlookup).1)
    (fun _ account hlookup => (hsame account hlookup).2) ?_ ?_
  · rintro rfl
    obtain ⟨account, hlookup, _, hpool⟩ := h.pool
    rwa [(hsame account hlookup).2]
  · cases hlookup : accounts.lookup k with
    | none =>
      rw [Accounts.getOrNew, hlookup] at howner
      exact stakeAt_of_owner_ne (howner.trans_ne (by decide))
    | some account =>
      rw [bind_some, stakeAt, stakeAt, (hsame account hlookup).1, (hsame account hlookup).2]

/-- A stake is written to an account of the staking program, or to a new one. -/
theorem records_stake (hk : IsStakeKey k)
    (hold : ∀ account, accounts.lookup k = some account → account.owner = stakingProgramId)
    (howner : a.owner = stakingProgramId) (hdata : toVec stake = some a.data) :
    Records (accounts.insert k a)
      { accounts.books with stakes := accounts.books.stakes.insert k stake } := by
  have hstake : stakeAt k a = some stake := by
    rw [stakeAt, if_pos ⟨howner, hk.ne_registry⟩, StakeAccountData.readOrLegacy,
      fromSlice_eq_some_iff.2 hdata]
    rfl
  refine ⟨h.insert (fun account hlookup => howner.trans (hold account hlookup).symm)
    (fun hstats => absurd hstats hk.ne_stats) fun hpool => absurd hpool hk.ne_pool, ?_⟩
  ext1
  · exact filterMapValues_insert_of_some hstake
  · exact storedStats_insert hk.ne_stats

/-- The total is written. -/
theorem records_total (hlookup : accounts.lookup stakingStatsId = some account) {total : U64}
    {bytes : List UInt8} (hbytes : toVec total = some bytes) :
    Records (accounts.insert stakingStatsId { account with data := bytes })
      { accounts.books with total := total } := by
  obtain ⟨account', hlookup', _, total', htotal'⟩ := h.stats
  obtain rfl := mem_unique hlookup hlookup'
  have htotal := fromSlice_eq_some_iff.2 hbytes
  have hne : stakingStatsId ≠ stakingRewardsPoolId := by decide
  refine ⟨h.insert ?_ (fun _ => ⟨total, htotal⟩) (fun hk => absurd hk hne), ?_⟩
  · intro account' hlookup'
    rw [mem_unique hlookup hlookup']
  · ext1
    · apply filterMapValues_insert_of_eq
      rw [hlookup, bind_some, stakeAt_eq_none (length_stats htotal'),
        stakeAt_eq_none (length_stats htotal)]
    · exact storedStats_of_lookup (lookup_insert _) htotal

/-- The reward pool is written. -/
theorem records_pool (hlookup : accounts.lookup stakingRewardsPoolId = some account)
    {pool : RewardPoolData} {bytes : List UInt8} (hbytes : toVec pool = some bytes)
    (balance : U64) :
    Records (accounts.insert stakingRewardsPoolId
      { account with data := bytes, balance := balance }) accounts.books := by
  obtain ⟨account', hlookup', _, pool', hpool'⟩ := h.pool
  obtain rfl := mem_unique hlookup hlookup'
  have hpool := fromSlice_eq_some_iff.2 hbytes
  refine records_same h ?_ (fun hk => absurd hk (by decide)) (fun _ => ⟨pool, hpool⟩) ?_
  · intro account' hlookup'
    rw [mem_unique hlookup hlookup']
  · rw [hlookup, bind_some, stakeAt_eq_none (length_pool hpool'),
      stakeAt_eq_none (length_pool hpool)]

/-- The validator registry is written: it is no stake, whatever it holds. -/
theorem records_registry (hlookup : accounts.lookup validatorRegistryAccountId = some account)
    (bytes : List UInt8) :
    Records (accounts.insert validatorRegistryAccountId { account with data := bytes })
      accounts.books := by
  have hnone : ∀ account, stakeAt validatorRegistryAccountId account = none :=
    fun account => if_neg fun h => h.2 rfl
  refine records_same h ?_ (fun hk => absurd hk (by decide)) (fun hk => absurd hk (by decide)) ?_
  · intro account' hlookup'
    rw [mem_unique hlookup hlookup']
  · rw [hlookup, bind_some, hnone, hnone]

/-- An account of the governance program is written, or a new one. -/
theorem records_governed
    (hold : ∀ account, accounts.lookup k = some account → account.owner = governanceProgramId)
    (howner : a.owner = governanceProgramId) : Records (accounts.insert k a) accounts.books := by
  have hne : governanceProgramId ≠ stakingProgramId := by decide
  refine records_same h (fun account hlookup => howner.trans (hold account hlookup).symm) ?_ ?_ ?_
  · rintro rfl
    obtain ⟨account, hlookup, hprogram, _⟩ := h.stats
    exact absurd ((hold account hlookup).symm.trans hprogram) hne
  · rintro rfl
    obtain ⟨account, hlookup, hprogram, _⟩ := h.pool
    exact absurd ((hold account hlookup).symm.trans hprogram) hne
  · rw [stakeAt_of_owner_ne (howner.trans_ne hne)]
    cases hlookup : accounts.lookup k with
    | none => rfl
    | some account => exact (stakeAt_of_owner_ne ((hold account hlookup).trans_ne hne)).symm

end Writes

/-! ### Working copies -/

/-- Working copies `w` of the named accounts over a store, with the books of both together. -/
structure Working (names : List Pubkey) (store w : Accounts) (b : StakeBooks) : Prop
    extends Records (w ∪ store) b where
  covers : Covers w store names

namespace Working

variable {names : List Pubkey} {w store : Accounts} {b b' : StakeBooks} {k : Pubkey}
  {account a : Account} {stake : StakeAccountData} {amount : U64}

theorem lookup_union (hlookup : w.lookup k = some account) :
    (w ∪ store).lookup k = some account := by
  rw [lookup_union_eq, hlookup, some_or]

section

variable (h : Working names store w b)

include h

theorem lookup_eq (hk : k ∈ names) : (w ∪ store).lookup k = w.lookup k :=
  lookup_union_of_covers (h.covers k hk)

/-- A write that leaves the given books. -/
theorem put (hrecords : Records ((w ∪ store).insert k a) b') :
    Working names store (w.insert k a) b' := by
  rw [insert_union] at hrecords
  exact ⟨hrecords, fun k' hk' => (h.covers k' hk').imp_left fun hmem => mem_insert.2 (.inr hmem)⟩

/-- A write that leaves the books as they are. -/
theorem put_same (hrecords : Records ((w ∪ store).insert k a) (Accounts.books (w ∪ store))) :
    Working names store (w.insert k a) b := by
  rw [h.books_eq] at hrecords
  exact h.put hrecords

theorem put_balance (hlookup : w.lookup k = some account) (balance : U64) :
    Working names store (w.insert k { account with balance := balance }) b := by
  have hnew : Accounts.getOrNew (w ∪ store) k systemProgramId = account :=
    getOrNew_of_lookup (lookup_union hlookup)
  exact h.put_same (records_balance h.seeded (by rw [hnew]) (by rw [hnew]))

theorem wp_credit (hname : k ∈ names) :
    Wp (credit k systemProgramId amount) w fun _ w' => Working names store w' b := by
  rw [Exec.wp_credit]
  intro balance _
  have hnew : w.getOrNew k systemProgramId = Accounts.getOrNew (w ∪ store) k systemProgramId :=
    getOrNew_congr (h.lookup_eq hname).symm
  exact h.put_same (records_balance h.seeded (by rw [hnew]) (by rw [hnew]))

/-- What the stats account holds. -/
theorem exists_stats (hk : stakingStatsId ∈ names) :
    ∃ account, w.lookup stakingStatsId = some account ∧ fromSlice account.data = some b.total := by
  obtain ⟨account, hlookup, _, total, htotal⟩ := h.seeded.stats
  refine ⟨account, (h.lookup_eq hk).symm.trans hlookup, ?_⟩
  rw [← h.books_eq, Accounts.books, storedStats_of_lookup hlookup htotal]
  exact htotal

/-- The total is updated. -/
theorem wp_updateStats (hlookup : w.lookup stakingStatsId = some account) {update : Exec U64}
    {P : U64 → Prop} (hupdate : Wp update w fun total w' => w' = w ∧ P total) :
    Wp (StakingProgram.updateStats stakingStatsId account update) w fun _ w' =>
      ∃ total, P total ∧ Working names store w' { b with total := total } := by
  unfold StakingProgram.updateStats
  rw [wp_bind]
  refine hupdate.mono fun total w' hw' => ?_
  obtain ⟨rfl, htotal⟩ := hw'
  simp only [wp_steps, wp_put]
  intro bytes hbytes
  have hrecords := records_total h.seeded (lookup_union hlookup) hbytes
  rw [h.books_eq] at hrecords
  exact ⟨total, htotal, h.put hrecords⟩

/-- A stake is written. -/
theorem put_stake (hname : k ∈ names) (hfree : IsStakeKey k)
    (hold : ∀ account, w.lookup k = some account → account.owner = stakingProgramId)
    (howner : a.owner = stakingProgramId) (hdata : toVec stake = some a.data) :
    Working names store (w.insert k a) { b with stakes := b.stakes.insert k stake } := by
  have hrecords := records_stake h.seeded hfree
    (fun account hlookup => hold account ((h.lookup_eq hname).symm.trans hlookup)) howner hdata
  rw [h.books_eq] at hrecords
  exact h.put hrecords

/-- An account of the governance program is written, or a new one. -/
theorem put_governed (hname : k ∈ names)
    (hold : ∀ account, w.lookup k = some account → account.owner = governanceProgramId)
    (howner : a.owner = governanceProgramId) : Working names store (w.insert k a) b :=
  h.put_same (records_governed h.seeded
    (fun account hlookup => hold account ((h.lookup_eq hname).symm.trans hlookup)) howner)

/-- A named address without account is none of a stake, nor one of the program's. -/
theorem absent (hname : k ∈ names) (hnone : w.lookup k = none) :
    k ∉ b.stakes ∧ IsStakeKey k := by
  have hunion : (w ∪ store).lookup k = none := (h.lookup_eq hname).trans hnone
  constructor
  · rw [← h.books_eq, ← lookup_eq_none, Accounts.books, lookup_filterMapValues,
      hunion]
    rfl
  · obtain ⟨_, hstats, _⟩ := h.seeded.stats
    obtain ⟨_, hpool, _⟩ := h.seeded.pool
    obtain ⟨_, hregistry⟩ := Finmap.mem_iff.1 h.seeded.registry
    refine ⟨?_, ?_, ?_⟩ <;> rintro rfl <;> simp_all

/-- A genuine account that reads as a stake is one. -/
theorem read (hgenuine : Accounts.Genuine (w ∪ store) k)
    (hlookup : w.lookup k = some account)
    (hread : StakeAccountData.readOrLegacy account.data = some stake) :
    b.stakes.lookup k = some stake ∧ IsStakeKey k ∧ account.owner = stakingProgramId := by
  have hunion : (w ∪ store).lookup k = some account := lookup_union hlookup
  have hstake : (Accounts.books (w ∪ store)).stakes.lookup k = some stake :=
    (hgenuine.lookup_stakes hunion).trans hread
  obtain ⟨account', hlookup', howner, hregistry, _⟩ := exists_of_lookup_stakes hstake
  obtain rfl := mem_unique hunion hlookup'
  rw [h.books_eq] at hstake
  refine ⟨hstake, ⟨?_, ?_, hregistry⟩, howner⟩
  · rintro rfl
    obtain ⟨account', hlookup', _, total, htotal⟩ := h.seeded.stats
    obtain rfl := mem_unique hunion hlookup'
    rw [readOrLegacy_eq_none (length_stats htotal)] at hread
    cases hread
  · rintro rfl
    obtain ⟨account', hlookup', _, pool, hpool⟩ := h.seeded.pool
    obtain rfl := mem_unique hunion hlookup'
    rw [readOrLegacy_eq_none (length_pool hpool)] at hread
    cases hread

end

end Working

end QChain
