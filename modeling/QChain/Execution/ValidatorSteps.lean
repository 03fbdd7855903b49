import QChain.Execution.StakingSteps
import QChain.Execution.ValidatorBooks

/-!
# Entries in the books of the validators

Books are recorded in accounts if the data of the accounts are what the books have, and the pools
hold what the books set aside. Every instruction of the validator program makes a step of the books
it starts from, on whatever copies of accounts it runs. Thus the program refines the steps of the
books.
-/

namespace QChain

open Accounts Borsh Exec List Option Transact ValidatorV7Entry

/-! ### Data of accounts -/

/-- The data at an address, empty where there is no account. -/
def Accounts.dataAt (v : Accounts) (k : Pubkey) : List UInt8 :=
  ((v.lookup k).map (·.data)).getD []

namespace Accounts

variable {v v' : Accounts} {k k' owner : Pubkey} {account : Account}

theorem dataAt_of_lookup (h : v.lookup k = some account) : v.dataAt k = account.data := by
  rw [dataAt, h]
  rfl

theorem dataAt_congr (h : v.lookup k = v'.lookup k) : v.dataAt k = v'.dataAt k := by
  rw [dataAt, dataAt, h]

theorem dataAt_insert :
    dataAt (v.insert k account) k' = if k' = k then account.data else v.dataAt k' := by
  rw [dataAt, Finmap.lookup_insert_eq]
  split_ifs
  · rfl
  · rfl

@[simp] theorem data_getOrNew : (v.getOrNew k owner).data = v.dataAt k := by
  rw [getOrNew, dataAt]
  cases v.lookup k <;> rfl

/-- A write that keeps the data at its address. -/
theorem dataAt_insert_of_eq (h : account.data = v.dataAt k) :
    dataAt (v.insert k account) k' = v.dataAt k' := by
  rw [dataAt_insert]
  split_ifs with hk
  · rw [h, hk]
  · rfl

theorem dataAt_insert_of_ne (h : k' ≠ k) : dataAt (v.insert k account) k' = v.dataAt k' := by
  rw [dataAt_insert, if_neg h]

end Accounts

/-- The value in data that are made by their first write. -/
def lazyData {α : Type} [Inhabited α] [Borsh α] (data : List UInt8) : Option α :=
  if data = [] then some default else fromSlice data

theorem storedLazy_eq {α : Type} [Inhabited α] [Borsh α] {v : Accounts} {k : Pubkey} :
    (storedLazy v k : Option α) = lazyData (v.dataAt k) := by
  unfold storedLazy lazyData Accounts.dataAt
  cases v.lookup k <;> rfl

/-- What was written is read back, as no value is encoded as nothing. -/
theorem lazyData_of_toVec {α : Type} {n : ℕ} [Inhabited α] [Borsh α] [LawfulBorsh α]
    [MinSize α (n + 1)] {a : α} {bytes : List UInt8} (h : toVec a = some bytes) :
    lazyData bytes = some a := by
  have hle : n + 1 ≤ bytes.length := MinSize.le_length h
  have hne : bytes ≠ [] := by
    rintro rfl
    exact absurd hle (by simp)
  rw [lazyData, if_neg hne]
  exact fromSlice_eq_some_iff.2 h

instance : MinSize RecoveryRegistry 4 := minSize_iso (β := List RecoveryEntry) _ _

instance : MinSize KeyTimelockRegistry 4 := minSize_iso (β := List PendingKeyChangeEntry) _ _

instance : MinSize ConsensusRotationRegistry 4 :=
  minSize_iso (β := List PendingConsensusRotation) _ _

instance : MinSize KmAuditLog 44 := minSize_iso (β := Bytes32 × U64 × List KmAuditEntry) _ _

/-- An account of the staking program holds an amount. -/
def Reserves (v : Accounts) (k : Pubkey) (amount : ℕ) : Prop :=
  ∃ account, v.lookup k = some account ∧ account.owner = stakingProgramId ∧
    amount ≤ account.balance

/-- Books that are recorded in accounts. -/
structure Recorded (b : ValidatorBooks) (v : Accounts) : Prop where
  chainId : v.dataAt chainIdAccountId = b.chainId.toBytes
  global : fromSlice (v.dataAt stakingGlobalId) = some b.global
  registry : fromSlice (v.dataAt validatorRegistryAccountId) = some b.registry
  recovery : lazyData (v.dataAt validatorRecoveryRegistryId) = some b.recovery
  timelock : lazyData (v.dataAt validatorKeyTimelockRegistryId) = some b.timelock
  rotation : lazyData (v.dataAt validatorConsensusRotationRegistryId) = some b.rotation
  log : lazyData (v.dataAt validatorKmAuditLogId) = some b.log
  escrow : Reserves v validatorBondEscrowId b.escrow
  pool : Reserves v validatorUnbondingPoolId b.pool

/-- The accounts whose data are the books. -/
def bookKeys : List Pubkey :=
  [chainIdAccountId, stakingGlobalId, validatorRegistryAccountId, validatorRecoveryRegistryId,
    validatorKeyTimelockRegistryId, validatorConsensusRotationRegistryId, validatorKmAuditLogId]

/-- The accounts that hold the bonds. -/
def bondPools : List Pubkey := [validatorBondEscrowId, validatorUnbondingPoolId]

/-- What the data at the accounts of the books read as, in the order of the accounts. -/
def ValidatorBooks.readers (b : ValidatorBooks) : List (Pubkey × (List UInt8 → Prop)) :=
  [(chainIdAccountId, fun data => data = b.chainId.toBytes),
    (stakingGlobalId, fun data => fromSlice data = some b.global),
    (validatorRegistryAccountId, fun data => fromSlice data = some b.registry),
    (validatorRecoveryRegistryId, fun data => lazyData data = some b.recovery),
    (validatorKeyTimelockRegistryId, fun data => lazyData data = some b.timelock),
    (validatorConsensusRotationRegistryId, fun data => lazyData data = some b.rotation),
    (validatorKmAuditLogId, fun data => lazyData data = some b.log)]

theorem recorded_iff {b : ValidatorBooks} {v : Accounts} :
    Recorded b v ↔ (∀ p ∈ b.readers, p.2 (v.dataAt p.1)) ∧
      Reserves v validatorBondEscrowId b.escrow ∧ Reserves v validatorUnbondingPoolId b.pool := by
  simp only [ValidatorBooks.readers, forall_mem_cons]
  constructor
  · rintro ⟨h₁, h₂, h₃, h₄, h₅, h₆, h₇, hescrow, hpool⟩
    exact ⟨⟨h₁, h₂, h₃, h₄, h₅, h₆, h₇, nofun⟩, hescrow, hpool⟩
  · rintro ⟨⟨h₁, h₂, h₃, h₄, h₅, h₆, h₇, _⟩, hescrow, hpool⟩
    exact ⟨h₁, h₂, h₃, h₄, h₅, h₆, h₇, hescrow, hpool⟩

section

variable {v v' : Accounts} {k k' owner : Pubkey} {amount : ℕ}

theorem Reserves.of_received (h : Reserves v k amount) (hreceived : Received k v v') :
    Reserves v' k amount := by
  obtain ⟨account, hlookup, howner, hle⟩ := h
  obtain ⟨balance, hle', hlookup'⟩ := hreceived account hlookup
  exact ⟨_, hlookup', howner, hle.trans hle'⟩

theorem Reserves.le_balanceOf (h : Reserves v k amount) : amount ≤ v.balanceOf k := by
  obtain ⟨account, hlookup, _, hle⟩ := h
  rw [balanceOf_of_lookup hlookup]
  exact hle

/-- Another balance at an account of the staking program. -/
theorem Reserves.insert_balance {balance : U64} {amount' : ℕ} (h : Reserves v k amount)
    (hle : amount' ≤ balance) :
    Reserves (v.insert k { v.getOrNew k owner with balance := balance }) k amount' := by
  obtain ⟨account, hlookup, howner, _⟩ := h
  refine ⟨_, Finmap.lookup_insert v, ?_, hle⟩
  rw [getOrNew_of_lookup hlookup]
  exact howner

end

namespace Recorded

variable {b : ValidatorBooks} {v v' : Accounts} {k owner : Pubkey} {account : Account}

theorem storedGlobal_eq (h : Recorded b v) : storedGlobal v = some b.global := by
  have hglobal := h.global
  cases hlookup : v.lookup stakingGlobalId with
  | none =>
    rw [Accounts.dataAt, hlookup] at hglobal
    exact absurd hglobal (by rw [fromSlice_eq_none (by decide)]; simp)
  | some account =>
    rw [Accounts.dataAt_of_lookup hlookup] at hglobal
    rw [storedGlobal, hlookup]
    exact hglobal

theorem storedRegistryV7_eq (h : Recorded b v) : storedRegistryV7 v = some b.registry := by
  have hregistry := h.registry
  cases hlookup : v.lookup validatorRegistryAccountId with
  | none =>
    have hempty : (fromSlice [] : Option ValidatorV7Registry) = none := by decide
    rw [Accounts.dataAt, hlookup] at hregistry
    exact absurd (hempty.symm.trans hregistry) (by simp)
  | some account =>
    rw [Accounts.dataAt_of_lookup hlookup] at hregistry
    rw [storedRegistryV7, hlookup]
    simp only [ValidatorV7Registry.decodeRegistry, hregistry, some_or]

/-- The books stay where no data are written and the pools only receive. -/
theorem congr (h : Recorded b v) (hdata : ∀ k ∈ bookKeys, v'.dataAt k = v.dataAt k)
    (hpools : ∀ k ∈ bondPools, Received k v v') : Recorded b v' := by
  rw [recorded_iff] at h ⊢
  refine ⟨fun p hp => ?_, h.2.1.of_received (hpools _ (by simp [bondPools])),
    h.2.2.of_received (hpools _ (by simp [bondPools]))⟩
  rw [hdata p.1 (List.mem_map_of_mem hp)]
  exact h.1 p hp

variable {balance : U64}

/-- Funds are moved, but not out of the pools. -/
theorem insert_balance (h : Recorded b v) (hpools : k ∈ bondPools → v.balanceOf k ≤ balance) :
    Recorded b (v.insert k { v.getOrNew k owner with balance := balance }) := by
  refine h.congr (fun k' _ => Accounts.dataAt_insert_of_eq Accounts.data_getOrNew) ?_
  intro k' hk'
  by_cases hk : k' = k
  · obtain ⟨amount, hamount⟩ := Nat.exists_eq_add_of_le (hpools (hk ▸ hk'))
    exact .credit hamount
  · exact .insert_of_ne hk

/-- Funds are moved into the escrow or out of it. -/
theorem insert_escrow {escrow : ℕ} (h : Recorded b v) (hle : escrow ≤ balance) :
    Recorded { b with escrow := escrow } (v.insert validatorBondEscrowId
      { v.getOrNew validatorBondEscrowId owner with balance := balance }) := by
  rw [recorded_iff] at h ⊢
  refine ⟨fun p hp => ?_, h.2.1.insert_balance hle,
    h.2.2.of_received (.insert_of_ne (by decide))⟩
  rw [Accounts.dataAt_insert_of_eq]
  · exact h.1 p hp
  · exact Accounts.data_getOrNew

/-- Funds are moved into the unbonding pool or out of it. -/
theorem insert_pool {pool : ℕ} (h : Recorded b v) (hle : pool ≤ balance) :
    Recorded { b with pool := pool } (v.insert validatorUnbondingPoolId
      { v.getOrNew validatorUnbondingPoolId owner with balance := balance }) := by
  rw [recorded_iff] at h ⊢
  refine ⟨fun p hp => ?_, h.2.1.of_received (.insert_of_ne (by decide)),
    h.2.2.insert_balance hle⟩
  rw [Accounts.dataAt_insert_of_eq]
  · exact h.1 p hp
  · exact Accounts.data_getOrNew

section Data

variable {bytes : List UInt8}

/-- Data are written at one of the accounts, and read as what they are in the new books. -/
theorem write {b' : ValidatorBooks} {P : List UInt8 → Prop} (i : ℕ) (h : Recorded b v)
    (hk : bookKeys[i]? = some k)
    (hbooks : b'.readers = b.readers.set i (k, P) ∧ b'.escrow = b.escrow ∧ b'.pool = b.pool)
    (hread : P bytes) : Recorded b' (v.insert k { v.getOrNew k owner with data := bytes }) := by
  obtain ⟨hreaders, hescrow, hpool⟩ := hbooks
  have hpools : ∀ k ∈ bookKeys, validatorBondEscrowId ≠ k ∧ validatorUnbondingPoolId ≠ k := by
    decide
  obtain ⟨hne, hne'⟩ := hpools k (mem_of_getElem? hk)
  rw [recorded_iff] at h ⊢
  rw [hreaders, hescrow, hpool]
  refine ⟨fun p hp => ?_, h.2.1.of_received (.insert_of_ne hne),
    h.2.2.of_received (.insert_of_ne hne')⟩
  obtain ⟨j, hj⟩ := mem_iff_getElem?.1 hp
  by_cases hij : i = j
  · -- the account that is written
    rw [getElem?_set] at hj
    split_ifs at hj
    obtain rfl := Option.some.inj hj
    rw [Accounts.dataAt_insert, if_pos rfl]
    exact hread
  · rw [getElem?_set_ne hij] at hj
    have hother : bookKeys[j]? = some p.1 := by
      have hmap : b.readers.map Prod.fst = bookKeys := rfl
      rw [← hmap, getElem?_map, hj, map_some]
    have hpk : p.1 ≠ k := by
      rintro rfl
      have hnodup : bookKeys.Nodup := by decide
      exact hij ((getElem?_inj (List.getElem?_eq_some_iff.1 hk).1 hnodup).1
        (hk.trans hother.symm))
    rw [Accounts.dataAt_insert_of_ne hpk]
    exact h.1 p (mem_of_getElem? hj)

theorem writeGlobal {g : GlobalStakingState} (h : Recorded b v) (hbytes : toVec g = some bytes) :
    Recorded { b with global := g } (v.insert stakingGlobalId
      { v.getOrNew stakingGlobalId owner with data := bytes }) :=
  h.write 1 rfl ⟨rfl, rfl, rfl⟩ (fromSlice_eq_some_iff.2 hbytes)

theorem writeRegistry {reg : ValidatorV7Registry} (h : Recorded b v)
    (hbytes : toVec reg = some bytes) :
    Recorded { b with registry := reg } (v.insert validatorRegistryAccountId
      { v.getOrNew validatorRegistryAccountId owner with data := bytes }) :=
  h.write 2 rfl ⟨rfl, rfl, rfl⟩ (fromSlice_eq_some_iff.2 hbytes)

end Data

end Recorded

/-! ### Books behind working copies -/

/-- Working copies over a store record the books. -/
def Held (names : List Pubkey) (store : Accounts) (b : ValidatorBooks) (w : Accounts) : Prop :=
  ∃ v, Shows names store w v ∧ Recorded b v

namespace Held

variable {names : List Pubkey} {store w : Accounts} {b : ValidatorBooks} {k owner : Pubkey}
  {amount : U64}

theorem cons (h : Held names store b w) (hk : k ∈ w) : Held (k :: names) store b w := by
  obtain ⟨v, ⟨hview, hcovers⟩, hrecorded⟩ := h
  refine ⟨v, ⟨hview, fun k' hk' => ?_⟩, hrecorded⟩
  rcases mem_cons.1 hk' with rfl | hk'
  · exact .inl hk
  · exact hcovers k' hk'

theorem of_cons (h : Held (k :: names) store b w) : Held names store b w := by
  obtain ⟨v, ⟨hview, hcovers⟩, hrecorded⟩ := h
  exact ⟨v, ⟨hview, fun k' hk' => hcovers k' (mem_cons_of_mem k hk')⟩, hrecorded⟩

theorem storedRegistryV7_eq (h : Held names store b w) (hk : validatorRegistryAccountId ∈ names) :
    storedRegistryV7 w = some b.registry := by
  obtain ⟨v, hshows, hrecorded⟩ := h
  rw [storedRegistryV7, hshows.lookup hk]
  exact hrecorded.storedRegistryV7_eq

theorem storedGlobal_eq (h : Held names store b w) (hk : stakingGlobalId ∈ names) :
    storedGlobal w = some b.global := by
  obtain ⟨v, hshows, hrecorded⟩ := h
  rw [hshows.storedGlobal hk]
  exact hrecorded.storedGlobal_eq

/-- An instruction that names the registry at some place reads the one of the books. -/
theorem read_registry {reg : ValidatorV7Registry} {i : ℕ} (h : Held names store b w)
    (hi : names[i]? = some validatorRegistryAccountId) (hreg : storedRegistryV7 w = some reg) :
    validatorRegistryAccountId ∈ names ∧ b.registry = reg :=
  ⟨mem_of_getElem? hi,
    mem_unique (h.storedRegistryV7_eq (mem_of_getElem? hi)) hreg⟩

theorem read_global {g : GlobalStakingState} {i : ℕ} (h : Held names store b w)
    (hi : names[i]? = some stakingGlobalId) (hg : storedGlobal w = some g) :
    stakingGlobalId ∈ names ∧ b.global = g :=
  ⟨mem_of_getElem? hi,
    mem_unique (h.storedGlobal_eq (mem_of_getElem? hi)) hg⟩

theorem dataAt_eq (hshows : Shows names store w v) (hk : k ∈ names) : w.dataAt k = v.dataAt k :=
  Accounts.dataAt_congr (hshows.lookup hk)

theorem chainId_eq {account : Account} (h : Held names store b w) (hk : chainIdAccountId ∈ names)
    (haccount : w.lookup chainIdAccountId = some account) :
    Bytes32.ofBytes account.data = b.chainId := by
  obtain ⟨v, hshows, hrecorded⟩ := h
  rw [← Accounts.dataAt_of_lookup haccount, dataAt_eq hshows hk, hrecorded.chainId,
    Bytes32.ofBytes_toBytes]

theorem storedLazy_recovery (h : Held names store b w)
    (hk : validatorRecoveryRegistryId ∈ names) :
    storedLazy w validatorRecoveryRegistryId = some b.recovery := by
  obtain ⟨v, hshows, hrecorded⟩ := h
  rw [storedLazy_eq, dataAt_eq hshows hk, hrecorded.recovery]

theorem storedLazy_timelock (h : Held names store b w)
    (hk : validatorKeyTimelockRegistryId ∈ names) :
    storedLazy w validatorKeyTimelockRegistryId = some b.timelock := by
  obtain ⟨v, hshows, hrecorded⟩ := h
  rw [storedLazy_eq, dataAt_eq hshows hk, hrecorded.timelock]

variable {b' : ValidatorBooks} (h : Held names store b w)

include h

/-- A write of data at an address that has been copied. -/
theorem wp_writeLazy {α : Type} [Borsh α] {a : α} (hk : k ∈ names)
    (hwrite : ∀ {v bytes}, Recorded b v → toVec a = some bytes → Recorded b'
      (v.insert k { v.getOrNew k stakingProgramId with data := bytes })) :
    Wp (writeLazy k a) w fun _ w' => Held names store b' w' := by
  obtain ⟨v, hshows, hrecorded⟩ := h
  simp only [writeLazy, wp_steps, Exec.wp_put]
  intro bytes hbytes
  rw [hshows.getOrNew hk]
  exact ⟨_, hshows.insert, hwrite hrecorded hbytes⟩

theorem wp_writeRegistryV7 {reg : ValidatorV7Registry} (hk : validatorRegistryAccountId ∈ names) :
    Wp (writeRegistryV7 reg) w fun _ w' => Held names store { b with registry := reg } w' :=
  h.wp_writeLazy hk fun hrecorded hbytes => hrecorded.writeRegistry hbytes

theorem wp_writeRecoveryRegistry {r : RecoveryRegistry} (hk : validatorRecoveryRegistryId ∈ names) :
    Wp (writeRecoveryRegistry r) w fun _ w' => Held names store { b with recovery := r } w' :=
  h.wp_writeLazy hk fun hrecorded hbytes =>
    hrecorded.write 3 rfl ⟨rfl, rfl, rfl⟩ (lazyData_of_toVec hbytes)

theorem wp_writeKeyTimelockRegistry {tl : KeyTimelockRegistry}
    (hk : validatorKeyTimelockRegistryId ∈ names) :
    Wp (writeKeyTimelockRegistry tl) w fun _ w' => Held names store { b with timelock := tl } w' :=
  h.wp_writeLazy hk fun hrecorded hbytes =>
    hrecorded.write 4 rfl ⟨rfl, rfl, rfl⟩ (lazyData_of_toVec hbytes)

theorem wp_writeConsensusRotationRegistry {cr : ConsensusRotationRegistry}
    (hk : validatorConsensusRotationRegistryId ∈ names) :
    Wp (writeConsensusRotationRegistry cr) w fun _ w' =>
      Held names store { b with rotation := cr } w' :=
  h.wp_writeLazy hk fun hrecorded hbytes =>
    hrecorded.write 5 rfl ⟨rfl, rfl, rfl⟩ (lazyData_of_toVec hbytes)

theorem wp_writeLog {log : KmAuditLog} (hk : validatorKmAuditLogId ∈ names) :
    Wp (writeLazy validatorKmAuditLogId log) w fun _ w' =>
      Held names store { b with log := log } w' :=
  h.wp_writeLazy hk fun hrecorded hbytes =>
    hrecorded.write 6 rfl ⟨rfl, rfl, rfl⟩ (lazyData_of_toVec hbytes)

/-- A credit raises the balance by the amount. -/
theorem wp_credit_of (hk : k ∈ names)
    (hinsert : ∀ {v balance}, Recorded b v → ((balance : U64) : ℕ) = v.balanceOf k + amount →
      Recorded b' (v.insert k { v.getOrNew k owner with balance := balance })) :
    Wp (credit k owner amount) w fun _ w' => Held names store b' w' := by
  obtain ⟨v, hshows, hrecorded⟩ := h
  rw [Exec.wp_credit]
  intro balance hbalance
  rw [hshows.getOrNew hk]
  rw [balanceOf_congr (hshows.lookup hk)] at hbalance
  exact ⟨_, hshows.insert, hinsert hrecorded hbalance⟩

theorem wp_credit (hk : k ∈ names) :
    Wp (credit k owner amount) w fun _ w' => Held names store b w' :=
  h.wp_credit_of hk fun hrecorded hbalance =>
    hrecorded.insert_balance fun _ => hbalance ▸ Nat.le_add_right _ _

theorem wp_credit_escrow (hk : validatorBondEscrowId ∈ names) :
    Wp (credit validatorBondEscrowId owner amount) w fun _ w' =>
      Held names store { b with escrow := b.escrow + amount } w' :=
  h.wp_credit_of hk fun hrecorded hbalance =>
    hrecorded.insert_escrow (hbalance ▸ Nat.add_le_add_right hrecorded.escrow.le_balanceOf _)

theorem wp_credit_pool (hk : validatorUnbondingPoolId ∈ names) :
    Wp (credit validatorUnbondingPoolId owner amount) w fun _ w' =>
      Held names store { b with pool := b.pool + amount } w' :=
  h.wp_credit_of hk fun hrecorded hbalance =>
    hrecorded.insert_pool (hbalance ▸ Nat.add_le_add_right hrecorded.pool.le_balanceOf _)

theorem wp_debitExisting (hk : k ∈ names) (hne : k ∉ bondPools) :
    Wp (debitExisting k amount) w fun _ w' => Held names store b w' := by
  obtain ⟨v, hshows, hrecorded⟩ := h
  rw [QChain.wp_debitExisting]
  intro account hlookup balance _
  rw [hshows.lookup hk] at hlookup
  obtain rfl : v.getOrNew k systemProgramId = account := getOrNew_of_lookup hlookup
  exact ⟨_, hshows.insert, hrecorded.insert_balance fun hmem => absurd hmem hne⟩

/-- A debit leaves what is above the amount. -/
theorem wp_debit_pool {held : ℕ} (hk : k ∈ names)
    (hreserves : ∀ {v}, Recorded b v → Reserves v k held)
    (hinsert : ∀ {v balance}, Recorded b v → held - amount ≤ (balance : U64) →
      Recorded b' (v.insert k { v.getOrNew k systemProgramId with balance := balance })) :
    Wp (debitExisting k amount) w fun _ w' => Held names store b' w' := by
  obtain ⟨v, hshows, hrecorded⟩ := h
  rw [QChain.wp_debitExisting]
  intro account hlookup balance hbalance
  rw [hshows.lookup hk] at hlookup
  have hle := (hreserves hrecorded).le_balanceOf
  rw [balanceOf_of_lookup hlookup] at hle
  obtain rfl : v.getOrNew k systemProgramId = account := getOrNew_of_lookup hlookup
  exact ⟨_, hshows.insert, hinsert hrecorded (by omega)⟩

theorem wp_debitExisting_escrow (hk : validatorBondEscrowId ∈ names) :
    Wp (debitExisting validatorBondEscrowId amount) w fun _ w' =>
      Held names store { b with escrow := b.escrow - amount } w' :=
  h.wp_debit_pool hk (fun hrecorded => hrecorded.escrow) fun hrecorded => hrecorded.insert_escrow

theorem wp_debitExisting_pool (hk : validatorUnbondingPoolId ∈ names) :
    Wp (debitExisting validatorUnbondingPoolId amount) w fun _ w' =>
      Held names store { b with pool := b.pool - amount } w' :=
  h.wp_debit_pool hk (fun hrecorded => hrecorded.pool) fun hrecorded => hrecorded.insert_pool

end Held

/-! ### Instructions -/

namespace ValidatorBooks

variable {b : ValidatorBooks} {e e' : ValidatorV7Entry}

/-- A bond that stays where it is. -/
theorem settle_of_eq (hescrow : e'.inEscrow = e.inEscrow) (hpool : e'.inPool = e.inPool) :
    b.settle e e' = b := by
  rw [settle, hescrow, hpool, Nat.add_sub_cancel, Nat.add_sub_cancel]

/-- A bond that goes from the escrow to the unbonding pool. -/
theorem settle_exit (hold : e.inEscrow = true ∧ e.inPool = false)
    (hnew : e'.inEscrow = false ∧ e'.inPool = true) :
    b.settle e e' = { b with
      escrow := b.escrow - validatorBondAtoms, pool := b.pool + validatorBondAtoms } := by
  simp [settle, hold, hnew]

/-- A bond that leaves the unbonding pool. -/
theorem settle_withdraw (hold : e.inEscrow = false ∧ e.inPool = true)
    (hnew : e'.inEscrow = false ∧ e'.inPool = false) :
    b.settle e e' = { b with pool := b.pool - validatorBondAtoms } := by
  simp [settle, hold, hnew]

/-- A bond that leaves the escrow. -/
theorem settle_slash (hold : e.inEscrow = true ∧ e.inPool = false)
    (hnew : e'.inEscrow = false ∧ e'.inPool = false) :
    b.settle e e' = { b with escrow := b.escrow - validatorBondAtoms } := by
  simp [settle, hold, hnew]

/-- A bond that is paid in. -/
theorem settle_register (hold : e.inEscrow = false ∧ e.inPool = false)
    (hnew : e'.inEscrow = true ∧ e'.inPool = false) :
    b.settle e e' = { b with escrow := b.escrow + validatorBondAtoms } := by
  simp [settle, hold, hnew]

end ValidatorBooks

/-- An instruction has made a step of the books, which working copies then record. It names the
registry, and the quanto if its guards look at it. -/
structure Entered [Crypto] (instr : ValidatorV7Instruction) (names : List Pubkey)
    (store : Accounts) (b : ValidatorBooks) (w : Accounts) : Prop where
  registry : validatorRegistryAccountId ∈ names
  quanto : instr.readsQuanto = true → stakingGlobalId ∈ names
  step : ∃ b', b.Step (some instr) b' ∧ Held names store b' w

namespace Held

variable [Crypto] {names : List Pubkey} {store w : Accounts} {b : ValidatorBooks}
  {instr : ValidatorV7Instruction} {idx : ℕ} {e e' : ValidatorV7Entry}

/-- The entry of a validator was replaced, and its bond went where it has to. -/
theorem edited
    (h : Held names store { b.settle e e' with
      registry := ⟨b.registry.validators.set idx e'⟩ } w)
    (hk : validatorRegistryAccountId ∈ names)
    (hquanto : instr.readsQuanto = true → stakingGlobalId ∈ names)
    (hfind : b.registry.find e.address = some idx) (he : b.registry.validators[idx]? = some e)
    (hrecovery : instr.isRecovery = false) (hedit : b.Edit e instr e') :
    Entered instr names store b w :=
  ⟨hk, hquanto, _, .edit b.rotation hrecovery hfind he hedit fun _ hp => hp, h⟩

/-- The entry of a validator is replaced, and its bond stays where it is. -/
theorem wp_writeEntry (h : Held names store b w) (hk : validatorRegistryAccountId ∈ names)
    (hquanto : instr.readsQuanto = false) (hfind : b.registry.find e.address = some idx)
    (he : b.registry.validators[idx]? = some e)
    (hrecovery : instr.isRecovery = false) (hedit : b.Edit e instr e')
    (hescrow : e'.inEscrow = e.inEscrow) (hpool : e'.inPool = e.inPool) :
    Wp (ValidatorV7Program.writeEntry b.registry idx e') w fun _ w' =>
      Entered instr names store b w' := by
  have hnone : instr.readsQuanto = true → stakingGlobalId ∈ names := fun htrue =>
    absurd (hquanto.symm.trans htrue) Bool.false_ne_true
  refine (h.wp_writeRegistryV7 hk).mono fun _ w' h' =>
    edited ?_ hk hnone hfind he hrecovery hedit
  rw [ValidatorBooks.settle_of_eq hescrow hpool]
  exact h'

/-- A validator that was removed is registered again in its slot. -/
theorem registeredAgain {moniker p2pAddress : Utf8} {bundle : PublicKeyBundle}
    {withdrawalAddress : Option Pubkey} {consensusPop : MultiSignature}
    (h : Held names store { b with
      registry := ⟨b.registry.validators.set idx e'⟩
      escrow := b.escrow + validatorBondAtoms } w)
    (hk : validatorRegistryAccountId ∈ names) (hglobal : stakingGlobalId ∈ names)
    (hfind : b.registry.find e'.address = some idx) (he : b.registry.validators[idx]? = some e)
    (hremoved : e.state = .removed)
    (hregistration : Registration b.registry b.quanto bundle e') :
    Entered (.bondAndRegister moniker bundle p2pAddress withdrawalAddress consensusPop) names store
      b w := by
  have haddress := ValidatorV7Registry.address_of_find hfind he
  rw [← haddress] at hfind
  refine edited ?_ hk (fun _ => hglobal) hfind he rfl
    (.registerAgain hremoved haddress.symm hregistration)
  rw [ValidatorBooks.settle_register]
  · exact h
  · simp [inEscrow, ValidatorV7Entry.inPool, hremoved]
  · exact inEscrow_of_exitable (.inl hregistration.state)

end Held

namespace ValidatorV7Program

open ValidatorBooks

variable [Crypto] {ix : Instruction} {payer addr : Pubkey} {store w : Accounts} {b : ValidatorBooks}

/-! ### Pending changes -/

variable {newBundle : PublicKeyBundle} {change : PendingKeyChange} {newP2pAddress : Utf8}
  {e : ValidatorV7Entry}

omit [Crypto] in
/-- A proper change is entered among the pending ones, in the place of another or at the end. -/
theorem proper_set {entry : PendingKeyChangeEntry} {i : ℕ} {pending : List PendingKeyChangeEntry}
    (hproper : change.Proper) (hentry : entry.change = change) :
    ∀ p ∈ pending.set i entry, p ∈ pending ∨ p.change.Proper := by
  intro p hp
  rcases mem_or_eq_of_mem_set hp with hold | rfl
  · exact .inl hold
  · rw [hentry]
    exact .inr hproper

omit [Crypto] in
theorem proper_append {entry : PendingKeyChangeEntry} {pending : List PendingKeyChangeEntry}
    (hproper : change.Proper) (hentry : entry.change = change) :
    ∀ p ∈ pending ++ [entry], p ∈ pending ∨ p.change.Proper := by
  intro p hp
  rcases mem_append.1 hp with hold | hnew
  · exact .inl hold
  · rw [mem_singleton.1 hnew, hentry]
    exact .inr hproper

theorem proposeKeyChange_steps {instr : ValidatorV7Instruction} (hinstr : instr.isPending = true)
    (h : Held ix.accounts store b w) (hregistry : validatorRegistryAccountId ∈ ix.accounts)
    (hproper : change.Proper) :
    Wp (proposeKeyChange ix addr change) w fun _ w' => Entered instr ix.accounts store b w' := by
  simp only [proposeKeyChange, readKeyTimelockRegistry, wp_stepsV7]
  rintro _ htimelockPk _ hglobalPk ⟨rfl, rfl⟩ g _ reg _
  have htimelock : validatorKeyTimelockRegistryId ∈ ix.accounts := mem_of_getElem? htimelockPk
  have hwrite : ∀ {pending}, (∀ p ∈ pending, p ∈ b.timelock.pending ∨ p.change.Proper) →
      Wp (writeKeyTimelockRegistry ⟨pending⟩) w fun _ w' =>
        Entered instr ix.accounts store b w' := fun hpending =>
    (h.wp_writeKeyTimelockRegistry htimelock).mono fun _ w' h' =>
      ⟨hregistry, fun _ => mem_of_getElem? hglobalPk, _, .pending hinstr hpending, h'⟩
  have hread : ∀ {tl}, storedLazy w validatorKeyTimelockRegistryId = some tl → b.timelock = tl :=
    fun htl => mem_unique (h.storedLazy_timelock htimelock) htl
  -- whether the validator is known, and whether a change of this kind is pending
  split
  · simp only [wp_stepsV7]
    intro _ _ _ tl htl
    obtain rfl := hread htl
    split
    · exact hwrite (proper_set hproper rfl)
    · simp only [wp_rules]
      exact fun _ => hwrite (proper_append hproper rfl)
  · simp only [wp_stepsV7]
    intro tl htl
    obtain rfl := hread htl
    split
    · exact hwrite (proper_set hproper rfl)
    · simp only [wp_rules]
      exact fun _ => hwrite (proper_append hproper rfl)

section

variable (h : Held ix.accounts store b w)

include h

theorem setRecoveryCommittee_steps {config : RecoveryConfig} :
    Wp (setRecoveryCommittee ix payer addr config) w fun _ w' =>
      Entered (.setRecoveryCommittee addr config) ix.accounts store b w' := by
  simp only [setRecoveryCommittee, RecoveryConfig.validate, wp_stepsV7, wp_ite]
  intro hregistryPk reg _ idx _ e _ _ _ _
  have hregistry : validatorRegistryAccountId ∈ ix.accounts := mem_of_getElem? hregistryPk
  constructor
  · rintro _ ⟨_, hlength⟩ ⟨hthreshold, hle⟩ hnodup
    exact proposeKeyChange_steps rfl h hregistry (.inr ⟨hthreshold, hle, hlength, hnodup⟩)
  · intro hclearing
    exact proposeKeyChange_steps rfl h hregistry (.inl (Bool.not_eq_false _ ▸ hclearing))

theorem rotateOperator_steps {newOperator : Pubkey} :
    Wp (rotateOperator ix payer addr newOperator) w fun _ w' =>
      Entered (.rotateOperator addr newOperator) ix.accounts store b w' := by
  simp only [rotateOperator, wp_stepsV7]
  intro hregistryPk
  intros
  exact proposeKeyChange_steps rfl h (mem_of_getElem? hregistryPk) trivial

theorem rotateWithdrawal_steps {newWithdrawal : Pubkey} :
    Wp (rotateWithdrawal ix payer addr newWithdrawal) w fun _ w' =>
      Entered (.rotateWithdrawal addr newWithdrawal) ix.accounts store b w' := by
  simp only [rotateWithdrawal, wp_stepsV7]
  intro hregistryPk
  intros
  exact proposeKeyChange_steps rfl h (mem_of_getElem? hregistryPk) trivial

theorem cancelPendingKeyChange_steps {kind : KeyChangeKind} :
    Wp (cancelPendingKeyChange ix payer addr kind) w fun _ w' =>
      Entered (.cancelPendingKeyChange addr kind) ix.accounts store b w' := by
  simp only [cancelPendingKeyChange, readKeyTimelockRegistry, wp_stepsV7]
  rintro hregistryPk reg _ idx _ e _ _ _ _ htimelockPk rfl tl htl ti _
  have htimelock : validatorKeyTimelockRegistryId ∈ ix.accounts := mem_of_getElem? htimelockPk
  obtain rfl := mem_unique (h.storedLazy_timelock htimelock) htl
  refine (h.wp_writeKeyTimelockRegistry htimelock).mono fun _ w' h' =>
    ⟨mem_of_getElem? hregistryPk, by rintro ⟨⟩, _, .pending rfl ?_, h'⟩
  exact fun p hp => .inl (mem_of_mem_eraseIdx hp)

theorem cancelConsensusKeyRotation_steps :
    Wp (cancelConsensusKeyRotation ix payer addr) w fun _ w' =>
      Entered (.cancelConsensusKeyRotation addr) ix.accounts store b w' := by
  simp only [cancelConsensusKeyRotation, readConsensusRotationRegistry, wp_stepsV7]
  rintro hregistryPk reg _ idx _ e _ _ _ _ hrotationPk rfl cr _ ci _
  refine (h.wp_writeConsensusRotationRegistry (mem_of_getElem? hrotationPk)).mono ?_
  exact fun _ w' h' => ⟨mem_of_getElem? hregistryPk, by rintro ⟨⟩, _, .rotation rfl _, h'⟩

theorem proposeConsensusKeyRotation_steps :
    Wp (proposeConsensusKeyRotation ix payer addr newBundle newP2pAddress) w fun _ w' =>
      Entered (.proposeConsensusKeyRotation addr newBundle newP2pAddress) ix.accounts store b
        w' := by
  simp only [proposeConsensusKeyRotation, checkP2pAddress, readConsensusRotationRegistry,
    wp_stepsV7]
  rintro _ hrotationPk _ hglobalPk ⟨rfl, rfl⟩ _ hregistryPk
  intros
  have hwrite : ∀ {cr}, Wp (writeConsensusRotationRegistry cr) w fun _ w' =>
      Entered (.proposeConsensusKeyRotation addr newBundle newP2pAddress) ix.accounts store b w' :=
    (h.wp_writeConsensusRotationRegistry (mem_of_getElem? hrotationPk)).mono
      fun _ w' h' => ⟨mem_of_getElem? hregistryPk, fun _ => mem_of_getElem? hglobalPk,
        _, .rotation rfl _, h'⟩
  split
  · exact hwrite
  · simp only [wp_rules]
    exact fun _ => hwrite

/-! ### Entries -/

theorem unjail_steps :
    Wp (unjail ix payer addr) w fun _ w' => Entered (.unjail addr) ix.accounts store b w' := by
  simp only [unjail, wp_stepsV7]
  rintro _ hregistryPk rfl reg hreg idx hfind e he _ hjailed
  obtain ⟨hregistry, rfl⟩ := h.read_registry hregistryPk hreg
  obtain rfl := ValidatorV7Registry.address_of_find hfind he
  refine h.wp_writeEntry hregistry rfl hfind he rfl (.unjail hjailed) ?_ ?_
  · simp [inEscrow, hjailed]
  · simp [ValidatorV7Entry.inPool, hjailed]

theorem revokeConsensusKey_steps : Wp (revokeConsensusKey ix payer addr) w fun _ w' =>
      Entered (.revokeConsensusKey addr) ix.accounts store b w' := by
  simp only [revokeConsensusKey, wp_stepsV7]
  rintro _ _ _ hregistryPk reg hreg idx hfind e he hremoved _
  obtain ⟨hregistry, rfl⟩ := h.read_registry hregistryPk hreg
  obtain rfl := ValidatorV7Registry.address_of_find hfind he
  exact h.wp_writeEntry hregistry rfl hfind he rfl (.revokeKey hremoved) rfl rfl

theorem setConsensusKeyExpiry_steps {expiryQuanto : U64} :
    Wp (setConsensusKeyExpiry ix payer addr expiryQuanto) w fun _ w' =>
      Entered (.setConsensusKeyExpiry addr expiryQuanto) ix.accounts store b w' := by
  simp only [setConsensusKeyExpiry, wp_stepsV7]
  intro hregistryPk reg hreg idx hfind e he hremoved _
  obtain ⟨hregistry, rfl⟩ := h.read_registry hregistryPk hreg
  obtain rfl := ValidatorV7Registry.address_of_find hfind he
  exact h.wp_writeEntry hregistry rfl hfind he rfl (.expiry hremoved) rfl rfl

/-! ### Bonds -/

end

omit [Crypto] in
theorem moveBond_escrow {underfunded : String} (h : Held ix.accounts store b w)
    (hescrow : validatorBondEscrowId ∈ ix.accounts)
    (hpool : validatorUnbondingPoolId ∈ ix.accounts) :
    Wp (moveBond validatorBondEscrowId validatorUnbondingPoolId stakingProgramId underfunded) w
      fun _ w' => Held ix.accounts store { b with
        escrow := b.escrow - validatorBondAtoms, pool := b.pool + validatorBondAtoms } w' := by
  simp only [moveBond, wp_rules, wp_balanceOrZero]
  intro _
  exact (h.wp_debitExisting_escrow hescrow).mono fun _ _ h' => h'.wp_credit_pool hpool

section

variable (h : Held ix.accounts store b w)

include h

omit [Crypto] in
theorem moveBond_pool {target owner : Pubkey} {underfunded : String}
    (hpool : validatorUnbondingPoolId ∈ ix.accounts) (htarget : target ∈ ix.accounts) :
    Wp (moveBond validatorUnbondingPoolId target owner underfunded) w fun _ w' =>
      Held ix.accounts store { b with pool := b.pool - validatorBondAtoms } w' := by
  simp only [moveBond, wp_rules, wp_balanceOrZero]
  intro _
  exact (h.wp_debitExisting_pool hpool).mono fun _ _ h' => h'.wp_credit htarget

theorem beginExit_steps : Wp (beginExit ix payer addr) w fun _ w' =>
      Entered (.beginExit addr) ix.accounts store b w' := by
  simp only [beginExit, wp_stepsV7]
  rintro _ hregistryPk _ hescrowPk _ hpoolPk _ hglobalPk ⟨rfl, rfl, rfl, rfl⟩ reg hreg idx hfind e
    he _ hstate g hg hfrozen
  obtain ⟨hregistry, rfl⟩ := h.read_registry hregistryPk hreg
  obtain ⟨hglobal, rfl⟩ := h.read_global hglobalPk hg
  obtain rfl := ValidatorV7Registry.address_of_find hfind he
  refine (moveBond_escrow h (mem_of_getElem? hescrowPk) (mem_of_getElem? hpoolPk)).mono ?_
  intro _ w₁ h₁ g₁ hg₁
  obtain rfl := mem_unique (h₁.storedGlobal_eq hglobal) hg₁
  refine (h₁.wp_writeRegistryV7 hregistry).mono fun _ w₂ h₂ =>
    Held.edited ?_ hregistry (fun _ => hglobal) hfind he rfl (.exit hstate hfrozen)
  rw [settle_exit (inEscrow_of_exitable hstate) ⟨rfl, rfl⟩]
  exact h₂

theorem withdrawBond_steps : Wp (withdrawBond ix payer addr) w fun _ w' =>
      Entered (.withdrawBond addr) ix.accounts store b w' := by
  simp only [withdrawBond, wp_stepsV7]
  rintro _ hregistryPk _ hpoolPk _ hglobalPk _ hdest ⟨rfl, rfl, rfl⟩ reg hreg idx hfind e he hstate
    _ rfl g hg hfrozen hrelease
  obtain ⟨hregistry, rfl⟩ := h.read_registry hregistryPk hreg
  obtain ⟨hglobal, rfl⟩ := h.read_global hglobalPk hg
  obtain rfl := ValidatorV7Registry.address_of_find hfind he
  refine (moveBond_pool h (mem_of_getElem? hpoolPk) (mem_of_getElem? hdest)).mono ?_
  intro _ w₁ h₁
  refine (h₁.wp_writeRegistryV7 hregistry).mono fun _ w₂ h₂ =>
    Held.edited ?_ hregistry (fun _ => hglobal) hfind he rfl (.withdraw hstate hfrozen hrelease)
  rw [settle_withdraw (inPool_of_unbonding hstate) ⟨rfl, rfl⟩]
  exact h₂

theorem reportEquivocation_steps {evidence : EquivocationEvidence} :
    Wp (reportEquivocation ix evidence) w fun _ w' =>
      Entered (.reportEquivocation evidence) ix.accounts store b w' := by
  simp only [reportEquivocation, StakingProgram.checkEvidence, readChainId, wp_stepsV7,
    wp_balanceOrZero]
  rintro _ hregistryPk _ hescrowPk _ hpoolPk _ ⟨rfl, rfl, rfl⟩ _ _ _ _ _ _ _ _ reg hreg g _ idx _
    e he ⟨hslashed, hremoved⟩ _
  obtain ⟨hregistry, rfl⟩ := h.read_registry hregistryPk hreg
  have hedit : b.Edit e (.reportEquivocation evidence) { e with state := .slashed, bond := 0 } :=
    .slash hslashed hremoved
  have hentered : ∀ w₁, Held ix.accounts store (b.settle e { e with state := .slashed, bond := 0 })
      w₁ → Wp (writeEntry b.registry idx { e with state := .slashed, bond := 0 }) w₁ fun _ w' =>
        Entered (.reportEquivocation evidence) ix.accounts store b w' := fun w₁ h₁ =>
    (h₁.wp_writeRegistryV7 hregistry).mono fun _ w₂ h₂ =>
      ⟨hregistry, by rintro ⟨⟩, _, .slash he hedit, h₂⟩
  split_ifs with hstate
  · refine (h.wp_debitExisting_pool (mem_of_getElem? hpoolPk)).mono fun _ w₁ h₁ =>
      hentered w₁ ?_
    rw [settle_withdraw (inPool_of_unbonding hstate) ⟨rfl, rfl⟩]
    exact h₁
  · refine (h.wp_debitExisting_escrow (mem_of_getElem? hescrowPk)).mono fun _ w₁ h₁ =>
      hentered w₁ ?_
    rw [settle_slash (inEscrow_of_slashable hslashed hremoved hstate) ⟨rfl, rfl⟩]
    exact h₁

theorem bondAndRegister_steps {moniker : Utf8} {bundle : PublicKeyBundle} {p2pAddress : Utf8}
    {withdrawalAddress : Option Pubkey} {consensusPop : MultiSignature}
    (hpayer : payer ∉ bondPools) :
    Wp (bondAndRegister ix payer moniker bundle p2pAddress withdrawalAddress consensusPop) w
      fun _ w' => Entered
        (.bondAndRegister moniker bundle p2pAddress withdrawalAddress consensusPop) ix.accounts
        store b w' := by
  simp only [bondAndRegister, checkP2pAddress, wp_stepsV7]
  rintro operator hpayerPk _ hregistryPk _ hescrowPk _ hglobalPk ⟨rfl, rfl, rfl⟩ rfl _ norm _ _ _
    reg hreg hagain hmoniker haddress hoperator hwithdrawal _ account _ _
  obtain ⟨hregistry, rfl⟩ := h.read_registry hregistryPk hreg
  have hfree : ∀ k ∈ [bundle.toAddress, operator, withdrawalAddress.getD operator],
      b.registry.addressInUse bundle.toAddress k = false := by
    simp only [forall_mem_cons]
    exact ⟨haddress, hoperator, hwithdrawal, fun _ hk => by cases hk⟩
  refine (h.wp_debitExisting (mem_of_getElem? hpayerPk) hpayer).mono fun _ w₁ h₁ => ?_
  refine (h₁.wp_credit_escrow (mem_of_getElem? hescrowPk)).mono fun _ w₂ h₂ g hg => ?_
  have hglobal : stakingGlobalId ∈ ix.accounts := mem_of_getElem? hglobalPk
  obtain rfl := mem_unique (h₂.storedGlobal_eq hglobal) hg
  refine (h₂.wp_writeRegistryV7 hregistry).mono fun _ w₃ h₃ => ?_
  -- a validator that was removed is registered again in its slot
  split at h₃
  next idx hfind =>
    obtain ⟨hlt, _⟩ := findIdx?_eq_some_iff_getElem.1 hfind
    have he := getElem?_eq_getElem hlt
    exact h₃.registeredAgain hregistry hglobal hfind he (hagain idx hfind _ he)
      ⟨rfl, rfl, rfl, rfl, rfl, rfl, rfl, rfl, hmoniker, hfree⟩
  next hfind =>
    exact ⟨hregistry, fun _ => hglobal, _,
      .register hfind ⟨rfl, rfl, rfl, rfl, rfl, rfl, rfl, rfl, hmoniker, hfree⟩, h₃⟩

/-! ### Pending changes that are applied -/

end

omit [Crypto] in
/-- The committee of a validator is set, changed or removed. -/
theorem applyRecoveryConfig_steps {config : RecoveryConfig} (h : Held ix.accounts store b w)
    (hrecovery : validatorRecoveryRegistryId ∈ ix.accounts) :
    Wp (applyRecoveryConfig addr config) w fun _ w' => ∃ r, b.recovery.Recommit addr config r ∧
      Held ix.accounts store { b with recovery := r } w' := by
  have hwrite : ∀ {r}, b.recovery.Recommit addr config r →
      Wp (writeRecoveryRegistry r) w fun _ w' => ∃ r, b.recovery.Recommit addr config r ∧
        Held ix.accounts store { b with recovery := r } w' := fun hrecommit =>
    (h.wp_writeRecoveryRegistry hrecovery).mono fun _ _ h' => ⟨_, hrecommit, h'⟩
  simp only [applyRecoveryConfig, readRecoveryRegistry, wp_stepsV7]
  intro recovery hread
  obtain rfl := mem_unique (h.storedLazy_recovery hrecovery) hread
  split
  next i hfind =>
    simp only [wp_rules, wp_ite]
    exact ⟨fun hclearing => hwrite (.clear hfind hclearing),
      fun hset entry hentry => hwrite (.replace hfind hentry hset)⟩
  next hfind =>
    simp only [wp_rules, wp_ite]
    exact ⟨fun hclearing => hwrite (.absent hfind hclearing),
      fun hset _ => hwrite (.create hfind hset)⟩

theorem applyChange_steps {idx ti : ℕ} {p : PendingKeyChangeEntry} (h : Held ix.accounts store b w)
    (hregistry : validatorRegistryAccountId ∈ ix.accounts)
    (hrecovery : validatorRecoveryRegistryId ∈ ix.accounts)
    (hfind : b.registry.find addr = some idx) (he : b.registry.validators[idx]? = some e)
    (hti : b.timelock.find addr p.change.kind = some ti) (hp : b.timelock.pending[ti]? = some p)
    (hremoved : e.state ≠ .removed) (hfrozen : e.isFrozen b.quanto = false) :
    Wp (applyChange b.registry idx e addr p.change) w fun _ w' => ∃ reg r,
      Held ix.accounts store { b with registry := reg, recovery := r } w' ∧
      ∀ pending : List PendingKeyChangeEntry, (∀ p ∈ pending, p ∈ b.timelock.pending) →
        b.Step (some (.applyPendingKeyChange addr p.change.kind))
          { b with registry := reg, recovery := r, timelock := ⟨pending⟩ } := by
  obtain rfl := ValidatorV7Registry.address_of_find hfind he
  have hedited : ∀ {e' : ValidatorV7Entry} {pending : List PendingKeyChangeEntry},
      e'.state = e.state → b.Edit e (.applyPendingKeyChange e.address p.change.kind) e' →
      (∀ p ∈ pending, p ∈ b.timelock.pending) →
      b.Step (some (.applyPendingKeyChange e.address p.change.kind)) { b with
        registry := ⟨b.registry.validators.set idx e'⟩, timelock := ⟨pending⟩ } := by
    intro e' pending hstate hedit hpending
    have hstep := Step.edit b.rotation rfl hfind he hedit hpending
    rw [settle_of_eq] at hstep
    · exact hstep
    · rw [inEscrow, hstate, inEscrow]
    · rw [ValidatorV7Entry.inPool, hstate, ValidatorV7Entry.inPool]
  cases hchange : p.change with
  | operator newOperator =>
    rw [hchange] at hedited
    simp only [applyChange, wp_rules]
    intro hfree
    refine (h.wp_writeRegistryV7 hregistry).mono fun _ w' h' => ⟨_, b.recovery, h', ?_⟩
    exact fun _ => hedited rfl (.operator hremoved hfrozen hfree)
  | withdrawal newWithdrawal =>
    rw [hchange] at hedited
    simp only [applyChange, wp_rules]
    intro hfree
    refine (h.wp_writeRegistryV7 hregistry).mono fun _ w' h' => ⟨_, b.recovery, h', ?_⟩
    exact fun _ => hedited rfl (.withdrawal hremoved hfrozen hfree)
  | recoveryCommittee config =>
    refine (applyRecoveryConfig_steps h hrecovery).mono ?_
    rintro _ w' ⟨r, hrecommit, h'⟩
    rw [hchange] at hti
    exact ⟨b.registry, r, h', fun _ => .committee hti hp hchange hrecommit⟩

theorem applyPendingKeyChange_steps {kind : KeyChangeKind} (h : Held ix.accounts store b w) :
    Wp (applyPendingKeyChange ix addr kind) w fun _ w' =>
      Entered (.applyPendingKeyChange addr kind) ix.accounts store b w' := by
  simp only [applyPendingKeyChange, readKeyTimelockRegistry, wp_stepsV7]
  rintro _ hregistryPk _ htimelockPk _ hrecoveryPk _ hglobalPk ⟨rfl, rfl, rfl, rfl⟩ tl htl ti hti p
    hp g hg _ reg hreg idx hfind e he ⟨_, hremoved⟩ hfrozen _
  obtain ⟨hregistry, rfl⟩ := h.read_registry hregistryPk hreg
  have htimelock : validatorKeyTimelockRegistryId ∈ ix.accounts := mem_of_getElem? htimelockPk
  have hrecovery : validatorRecoveryRegistryId ∈ ix.accounts := mem_of_getElem? hrecoveryPk
  obtain rfl := mem_unique (h.storedLazy_timelock htimelock) htl
  obtain ⟨hglobal, rfl⟩ := h.read_global hglobalPk hg
  have hkind : p.change.kind = kind := by
    obtain ⟨hlt, hfound, _⟩ := findIdx?_eq_some_iff_getElem.1 hti
    rw [getElem?_eq_getElem hlt] at hp
    rw [← Option.some.inj hp]
    exact (of_decide_eq_true hfound).2
  subst hkind
  refine (applyChange_steps h hregistry hrecovery hfind he hti hp hremoved hfrozen).mono ?_
  rintro _ w₁ ⟨reg, r, h₁, hstep⟩
  refine (h₁.wp_writeKeyTimelockRegistry htimelock).mono fun _ w₂ h₂ =>
    ⟨hregistry, fun _ => hglobal, _, hstep _ ?_, h₂⟩
  exact fun p' hp' => mem_of_mem_eraseIdx hp'

/-! ### New keys -/

/-- The entry with a new key, which no other validator uses. -/
theorem wp_applyConsensusRotation_rotated {reg : ValidatorV7Registry} {q : U64}
    {Q : ValidatorV7Entry → Accounts → Prop} (h : newBundle.toAddress ≠ e.address →
      reg.addressInUse e.address newBundle.toAddress = false →
      Q (e.rotated newBundle newP2pAddress q) w) :
    Wp (applyConsensusRotation reg e newBundle newP2pAddress q) w Q := by
  simp only [applyConsensusRotation, checkP2pAddress, wp_rules]
  exact fun _ => h

omit [Crypto] in
/-- A registry that an instruction does not name reads as empty. -/
theorem storedLazy_of_notMem {α : Type} [Inhabited α] [Borsh α] {k : Pubkey} {a : α} (hk : k ∉ w)
    (h : storedLazy w k = some a) : a = default := by
  rw [storedLazy, Finmap.lookup_eq_none.2 hk] at h
  exact (Option.some.inj h).symm

omit [Crypto] in
/-- The pending rotation of a validator is removed, if the registry is named. -/
theorem purgeRotation_steps (h : Held ix.accounts store b w) {cr : ConsensusRotationRegistry}
    (hcr : storedLazy w validatorConsensusRotationRegistryId = some cr)
    (hfind : (cr.find addr).isSome = true) {cr' : ConsensusRotationRegistry} :
    Wp (writeConsensusRotationRegistry cr') w fun _ w' =>
      Held ix.accounts store { b with rotation := cr' } w' := by
  by_cases hmem : validatorConsensusRotationRegistryId ∈ w
  · exact ((h.cons hmem).wp_writeConsensusRotationRegistry (mem_cons_self ..)).mono
      fun _ _ h' => h'.of_cons
  · obtain rfl := storedLazy_of_notMem hmem hcr
    cases hfind

theorem rotateConsensusKey_steps {newPop : MultiSignature} (h : Held ix.accounts store b w) :
    Wp (rotateConsensusKey ix payer addr newBundle newP2pAddress newPop) w fun _ w' =>
      Entered (.rotateConsensusKey addr newBundle newP2pAddress newPop) ix.accounts store b
        w' := by
  simp only [rotateConsensusKey, readConsensusRotationRegistry, wp_stepsV7, wp_ite]
  rintro _ hglobalPk rfl hregistryPk reg hreg idx hfind e he hremoved _ g hg hfrozen _
  obtain ⟨hregistry, rfl⟩ := h.read_registry hregistryPk hreg
  obtain ⟨hglobal, rfl⟩ := h.read_global hglobalPk hg
  obtain rfl := ValidatorV7Registry.address_of_find hfind he
  refine wp_applyConsensusRotation_rotated fun hne hfree => ?_
  have hedit : b.Edit e (.rotateConsensusKey e.address newBundle newP2pAddress newPop) _ :=
    .rotate hremoved hfrozen hne hfree
  refine (h.wp_writeRegistryV7 hregistry).mono fun _ w₁ h₁ cr hcr =>
    ⟨fun hpending => ?_, fun _ => ?_⟩
  · refine (purgeRotation_steps h₁ hcr hpending).mono fun _ w₂ h₂ =>
      ⟨hregistry, fun _ => hglobal, _,
        .edit (cr.purge e.address) rfl hfind he hedit fun _ hp => hp, ?_⟩
    rw [settle_of_eq]
    exacts [h₂, rfl, rfl]
  · refine Held.edited ?_ hregistry (fun _ => hglobal) hfind he rfl hedit
    rw [settle_of_eq]
    exacts [h₁, rfl, rfl]

theorem acceptConsensusKeyRotation_steps {acceptPop : MultiSignature}
    (h : Held ix.accounts store b w) :
    Wp (acceptConsensusKeyRotation ix addr acceptPop) w fun _ w' =>
      Entered (.acceptConsensusKeyRotation addr acceptPop) ix.accounts store b w' := by
  simp only [acceptConsensusKeyRotation, readConsensusRotationRegistry, wp_stepsV7]
  rintro _ hregistryPk _ hrotationPk _ hglobalPk ⟨rfl, rfl, rfl⟩ cr _ ci _ p _ _ reg hreg idx hfind
    e he ⟨_, hremoved⟩ _ g hg hfrozen
  obtain ⟨hregistry, rfl⟩ := h.read_registry hregistryPk hreg
  obtain ⟨hglobal, rfl⟩ := h.read_global hglobalPk hg
  obtain rfl := ValidatorV7Registry.address_of_find hfind he
  refine wp_applyConsensusRotation_rotated fun hne hfree => ?_
  refine (h.wp_writeRegistryV7 hregistry).mono fun _ w₁ h₁ => ?_
  refine (h₁.wp_writeConsensusRotationRegistry (mem_of_getElem? hrotationPk)).mono ?_
  have hedit : b.Edit e (.acceptConsensusKeyRotation e.address acceptPop)
      (e.rotated p.newBundle p.newP2pAddress b.quanto) := .accept hremoved hfrozen hne hfree
  refine fun _ w₂ h₂ =>
    ⟨hregistry, fun _ => hglobal, _,
      .edit ⟨cr.pending.eraseIdx ci⟩ rfl hfind he hedit fun _ hp => hp, ?_⟩
  rw [settle_of_eq]
  exacts [h₂, rfl, rfl]

/-! ### Committees that act -/

omit [Crypto] in
theorem wp_applyRecoveryOp {op : RecoveryOp} {q : U64} (h : Held ix.accounts store b w)
    (hescrow : validatorBondEscrowId ∈ ix.accounts)
    (hpool : validatorUnbondingPoolId ∈ ix.accounts) :
    Wp (applyRecoveryOp e op q) w fun r w' => r.1 = op.edit q e ∧ op.Allowed e ∧
      Held ix.accounts store (b.settle e (op.edit q e)) w' := by
  cases op with
  | revoke =>
    simp only [applyRecoveryOp, wp_rules]
    intro hstate
    refine (moveBond_escrow h hescrow hpool).mono fun _ w₁ h₁ => ⟨rfl, hstate, ?_⟩
    rw [settle_exit (inEscrow_of_exitable hstate) ⟨rfl, rfl⟩]
    exact h₁
  | freeze untilQuanto =>
    simp only [applyRecoveryOp, wp_rules]
    intro hstate huntil
    refine ⟨rfl, ⟨hstate, huntil⟩, ?_⟩
    rw [settle_of_eq]
    exacts [h, rfl, rfl]
  | unfreeze | setExpiry untilQuanto =>
    refine (wp_pure _).2 ⟨rfl, trivial, ?_⟩
    rw [settle_of_eq]
    exacts [h, rfl, rfl]

omit [Crypto] in
/-- Only pending changes are removed. -/
theorem purgePending_steps (h : Held ix.accounts store b w) :
    Wp (purgePending addr) w fun _ w' => ∃ pending cr,
      (∀ p ∈ pending, p ∈ b.timelock.pending) ∧
        Held ix.accounts store { b with timelock := ⟨pending⟩, rotation := cr } w' := by
  -- the second half, after the registry of pending changes was written or not
  have hrest : ∀ {pending w₁}, (∀ p ∈ pending, p ∈ b.timelock.pending) →
      Held ix.accounts store { b with timelock := ⟨pending⟩ } w₁ →
      ∀ cr : ConsensusRotationRegistry,
        storedLazy w₁ validatorConsensusRotationRegistryId = some cr →
        ((cr.find addr).isSome = true → Wp (writeConsensusRotationRegistry (cr.purge addr)) w₁
          fun _ w' => ∃ pending cr, (∀ p ∈ pending, p ∈ b.timelock.pending) ∧
            Held ix.accounts store { b with timelock := ⟨pending⟩, rotation := cr } w') ∧
        (¬(cr.find addr).isSome = true → ∃ pending cr, (∀ p ∈ pending, p ∈ b.timelock.pending) ∧
            Held ix.accounts store { b with timelock := ⟨pending⟩, rotation := cr } w₁) := by
    intro pending w₁ hpending h₁ cr hcr
    refine ⟨fun hfind => ?_, fun _ => ⟨pending, b.rotation, hpending, h₁⟩⟩
    exact (purgeRotation_steps h₁ hcr hfind).mono fun _ w' h' => ⟨pending, _, hpending, h'⟩
  simp only [purgePending, readKeyTimelockRegistry, readConsensusRotationRegistry, wp_stepsV7,
    wp_ite]
  intro tl htl
  refine ⟨fun hpending => ?_, fun _ => hrest (fun _ hp => hp) h⟩
  by_cases hmem : validatorKeyTimelockRegistryId ∈ w
  · obtain rfl := Option.some.inj
      (((h.cons hmem).storedLazy_timelock (mem_cons_self ..)).symm.trans htl)
    refine ((h.cons hmem).wp_writeKeyTimelockRegistry (mem_cons_self ..)).mono ?_
    exact fun _ w₁ h₁ => hrest (fun p hp => (mem_filter.1 hp).1) h₁.of_cons
  · obtain rfl := storedLazy_of_notMem hmem htl
    obtain ⟨p, hp, _⟩ := hpending
    cases hp

theorem recoverOp_steps {op : RecoveryOp} {approvals : List RecoveryApproval}
    (h : Held ix.accounts store b w) :
    Wp (recoverOp ix addr op approvals) w fun _ w' =>
      Entered (.recoverOp addr op approvals) ix.accounts store b w' := by
  simp only [recoverOp, readRecoveryRegistry, readChainId, wp_stepsV7, wp_ite]
  rintro _ hregistryPk _ hrecoveryPk _ hescrowPk _ hpoolPk _ hglobalPk _ hlogPk
    ⟨rfl, rfl, rfl, rfl, rfl, rfl⟩ recovery hrecovery i hcommittee entry hentry ⟨hthreshold, _⟩
    hchain account haccount _ hquorum g hg reg hreg idx hfind e he
  obtain ⟨hregistry, rfl⟩ := h.read_registry hregistryPk hreg
  have hrecoveryName : validatorRecoveryRegistryId ∈ ix.accounts :=
    mem_of_getElem? hrecoveryPk
  have hlog : validatorKmAuditLogId ∈ ix.accounts := mem_of_getElem? hlogPk
  obtain rfl := mem_unique (h.storedLazy_recovery hrecoveryName) hrecovery
  obtain ⟨hglobal, rfl⟩ := h.read_global hglobalPk hg
  rw [h.chainId_eq hchain haccount] at hquorum
  refine (wp_applyRecoveryOp h (mem_of_getElem? hescrowPk)
    (mem_of_getElem? hpoolPk)).mono ?_
  rintro ⟨_, event, detail⟩ w₁ ⟨rfl, hop, h₁⟩
  have haddress := ValidatorV7Registry.address_of_find hfind he
  have hedit : b.Edit e (.recoverOp addr op approvals) (op.edit b.quanto e) := by
    rw [← haddress]
    exact .recover hop
  refine (h₁.wp_writeRegistryV7 hregistry).mono fun _ w₂ h₂ => ?_
  -- the audit log and the nonce, after pending changes were removed or not
  have hrest : ∀ (pending : List PendingKeyChangeEntry) (cr : ConsensusRotationRegistry) w₃,
      (∀ p ∈ pending, p ∈ b.timelock.pending) →
      Held ix.accounts store { b.settle e (op.edit b.quanto e) with
        registry := ⟨b.registry.validators.set idx (op.edit b.quanto e)⟩
        timelock := ⟨pending⟩, rotation := cr } w₃ → ∀ log : KmAuditLog,
        Wp (writeLazy validatorKmAuditLogId log) w₃ fun _ w₄ =>
          Wp (writeRecoveryRegistry ⟨b.recovery.entries.set i
            { entry with nonce := Word.clamp (entry.nonce + 1) }⟩) w₄ fun _ w' =>
              Entered (.recoverOp addr op approvals) ix.accounts store b w' := by
    intro pending cr w₃ hpending h₃ log
    refine (h₃.wp_writeLog hlog).mono fun _ w₄ h₄ => ?_
    refine (h₄.wp_writeRecoveryRegistry hrecoveryName).mono fun _ w₅ h₅ =>
      ⟨hregistry, fun _ => hglobal, _, ?_, h₅⟩
    exact .recover cr log hcommittee hentry hthreshold hquorum hfind he hedit hpending
  constructor
  · intro _
    refine (purgePending_steps h₂).mono ?_
    rintro _ w₃ ⟨pending, cr, hpending, h₃⟩ log _
    exact hrest pending cr w₃ hpending h₃ _
  · intro _ log _
    exact hrest b.timelock.pending b.rotation w₂ (fun _ hp => hp) h₂ _

/-- An instruction makes the step of the books that it says. -/
theorem process_steps (h : Held ix.accounts store b w) (hpayer : payer ∉ bondPools) :
    Wp (process ix payer) w fun _ w' => ∃ instr,
      ValidatorV7Instruction.decode.all ix.data = some instr ∧
        Entered instr ix.accounts store b w' := by
  simp only [process, wp_rules]
  intro instr hinstr
  have hentered : ∀ {m : Exec Unit}, Wp m w (fun _ w' => Entered instr ix.accounts store b w') →
      Wp m w fun _ w' => ∃ instr, ValidatorV7Instruction.decode.all ix.data = some instr ∧
        Entered instr ix.accounts store b w' :=
    fun hm => hm.mono fun _ _ h' => ⟨instr, hinstr, h'⟩
  cases instr with
  | bondAndRegister => exact hentered (bondAndRegister_steps h hpayer)
  | beginExit => exact hentered (beginExit_steps h)
  | withdrawBond => exact hentered (withdrawBond_steps h)
  | reportEquivocation => exact hentered (reportEquivocation_steps h)
  | unjail => exact hentered (unjail_steps h)
  | rotateOperator => exact hentered (rotateOperator_steps h)
  | rotateWithdrawal => exact hentered (rotateWithdrawal_steps h)
  | rotateConsensusKey => exact hentered (rotateConsensusKey_steps h)
  | revokeConsensusKey => exact hentered (revokeConsensusKey_steps h)
  | setConsensusKeyExpiry => exact hentered (setConsensusKeyExpiry_steps h)
  | setRecoveryCommittee => exact hentered (setRecoveryCommittee_steps h)
  | recoverOp => exact hentered (recoverOp_steps h)
  | applyPendingKeyChange => exact hentered (applyPendingKeyChange_steps h)
  | cancelPendingKeyChange => exact hentered (cancelPendingKeyChange_steps h)
  | proposeConsensusKeyRotation => exact hentered (proposeConsensusKeyRotation_steps h)
  | acceptConsensusKeyRotation => exact hentered (acceptConsensusKeyRotation_steps h)
  | cancelConsensusKeyRotation => exact hentered (cancelConsensusKeyRotation_steps h)

end ValidatorV7Program

end QChain
