import QChain.Storage.StateTree
import QChain.System.Run
import QChain.System.WriteBack

/-!
# The transactional store

`RedbStore` (`qchain-storage/src/store.rs`) keeps the accounts and the node's metadata in memory,
and `flush` puts what was marked into the database in one transaction, which is atomic and durable.
A flush that finds an account that does not serialize panics with its locks held. A run takes the
calls in any order, with a stop of the process between two calls or in a flush; `Saved` says what
the store is for.
-/

namespace QChain

open Borsh Option WriteBack

/-- The encoding of the `accounts` table: addresses of 32 bytes and serialized accounts. -/
def accountCodec : Codec Pubkey Account (List UInt8) where
  encodeKey := Bytes32.toBytes
  decodeKey bytes := if bytes.length = 32 then some (Bytes32.ofBytes bytes) else none
  encode := toVec
  decode := fromSlice
  decodeKey_eq_some := by
    intro bytes key
    split_ifs with hlength
    · rw [some_inj]
      constructor
      · rintro rfl
        exact Bytes32.toBytes_ofBytes hlength
      · rintro rfl
        exact Bytes32.ofBytes_toBytes key
    · simp only [false_iff]
      rintro rfl
      exact hlength key.length_toBytes
  decode_eq_some := fromSlice_eq_some_iff

/-- The encoding of the `meta` table: UTF-8 names, and values as they are. -/
def metaCodec : Codec Utf8 (List UInt8) (List UInt8) where
  encodeKey := Utf8.bytes
  decodeKey bytes := if h : validUtf8 bytes = true then some ⟨bytes, h⟩ else none
  encode := some
  decode := some
  decodeKey_eq_some := by
    intro bytes key
    split_ifs with hvalid
    · rw [some_inj]
      constructor
      · rintro rfl
        rfl
      · rintro rfl
        rfl
    · simp only [false_iff]
      rintro rfl
      exact hvalid key.valid
  decode_eq_some := by
    intro bytes value
    rw [some_inj, some_inj, eq_comm]

/-- The database as of its last commit. A table that does not exist is empty. -/
structure Database where
  accounts : Map (List UInt8) (List UInt8)
  metadata : Map (List UInt8) (List UInt8)

/-- The store: `mem` and `dirty` of the accounts, `meta_mem` and `meta_dirty` of the metadata. -/
structure RedbStore where
  db : Database
  accounts : Mirror Pubkey Account
  metadata : Mirror Utf8 (List UInt8)
  /-- A flush panicked with the locks of the two sets of marks held. -/
  poisoned : Bool

/-- `RedbStore::open`. -/
def RedbStore.open (db : Database) : Option RedbStore :=
  (accountCodec.load db.accounts).bind fun mem =>
    (metaCodec.load db.metadata).map fun metaMem => ⟨db, ⟨mem, []⟩, ⟨metaMem, []⟩, false⟩

/-- The contents of the store. -/
@[ext]
structure StoreView where
  accounts : Pubkey → Option Account
  metadata : Utf8 → Option (List UInt8)

namespace RedbStore

/-- What a write leaves in a mirror. The map is written before the lock of the marks is taken. -/
def lockDirty {κ υ : Type} (s : RedbStore) (old new : Mirror κ υ) : Mirror κ υ :=
  if s.poisoned then ⟨new.mem, old.dirty⟩ else new

/-- `set`. -/
def set (s : RedbStore) (key : Pubkey) (account : Account) : RedbStore :=
  { s with accounts := s.lockDirty s.accounts (s.accounts.set key account) }

/-- `remove`. -/
def remove (s : RedbStore) (key : Pubkey) : RedbStore :=
  { s with accounts := s.lockDirty s.accounts (s.accounts.remove key) }

variable (s : RedbStore)

/-- `put_meta`. -/
def putMeta (key : Utf8) (value : List UInt8) : RedbStore :=
  { s with metadata := s.lockDirty s.metadata (s.metadata.set key value) }

/-- What the transaction of a flush commits. An account that does not serialize stops it. -/
def commit : Option Database :=
  (s.accounts.writeBack accountCodec s.db.accounts).bind fun accounts =>
    (s.metadata.writeBack metaCodec s.db.metadata).map fun metadata => ⟨accounts, metadata⟩

/-- `flush`, if the database returns no error. -/
def flush : RedbStore :=
  if s.poisoned then s
  else if s.accounts.dirty = [] ∧ s.metadata.dirty = [] then s
  else match s.commit with
    | some db => { s with db, accounts := s.accounts.clean, metadata := s.metadata.clean }
    | none => { s with poisoned := true }

/-- What happens to a store. -/
inductive Event
  | set (key : Pubkey) (account : Account)
  | remove (key : Pubkey)
  | putMeta (key : Utf8) (value : List UInt8)
  /-- A flush whose transaction, if it comes to its commit, commits. -/
  | flush
  /-- A flush that the database returns an error in: nothing is committed or cleared. -/
  | failedFlush
  /-- The process stops between two calls or in a flush before the commit, and opens the
  database again. -/
  | crash
  /-- The process stops in a flush after the commit, and opens the database again. -/
  | crashInFlush

/-- One event. It is `none` if the database does not open. -/
def step : Event → Option RedbStore
  | .set key account => some (s.set key account)
  | .remove key => some (s.remove key)
  | .putMeta key value => some (s.putMeta key value)
  | .flush => some s.flush
  | .failedFlush => some s
  | .crash => RedbStore.open s.db
  | .crashInFlush => RedbStore.open s.flush.db

/-- A list of events. -/
def run (events : List Event) : Option RedbStore := events.foldlM step s

/-- `get` and `get_meta`. -/
def view (s : RedbStore) : StoreView := ⟨s.accounts.view, s.metadata.view⟩

end RedbStore

/-! ### What the store is for -/

/-- Every account serializes. -/
def StoreView.Serializes (v : StoreView) : Prop := ∀ key account, v.accounts key = some account →
  Encodes account

theorem StoreView.Serializes.set {v : StoreView} (h : v.Serializes) (key : Pubkey)
    {account : Account} (haccount : Encodes account) :
    StoreView.Serializes { v with accounts := Function.update v.accounts key (some account) } := by
  intro key' account' hkey
  dsimp only at hkey
  rw [Function.update_apply] at hkey
  split_ifs at hkey
  · rwa [← Option.some.inj hkey]
  · exact h key' account' hkey

/-- The contents of a store now and when they were last saved. -/
structure Saved where
  current : StoreView
  saved : StoreView
  /-- Nothing is saved any more before a stop. -/
  stuck : Bool

namespace Saved

open Classical in
/-- A flush saves the contents, if all of it serializes. -/
noncomputable def flush (t : Saved) : Saved :=
  if t.stuck then t
  else if t.current.Serializes then { t with saved := t.current }
  else { t with stuck := true }

/-- A stop goes back to the contents last saved. -/
def crash (t : Saved) : Saved := ⟨t.saved, t.saved, false⟩

/-- One event. -/
noncomputable def step (t : Saved) : RedbStore.Event → Saved
  | .set key account =>
    { t with current.accounts := Function.update t.current.accounts key (some account) }
  | .remove key => { t with current.accounts := Function.update t.current.accounts key none }
  | .putMeta key value =>
    { t with current.metadata := Function.update t.current.metadata key (some value) }
  | .flush => t.flush
  | .failedFlush => t
  | .crash => t.crash
  | .crashInFlush => t.flush.crash

end Saved

namespace RedbStore

variable {s s' : RedbStore} {t : Saved} {db : Database}

/-- The database holds what was last saved, and the marks cover what differs from it. -/
structure Implements (s : RedbStore) (t : Saved) : Prop where
  view_eq : s.view = t.current
  poisoned_eq : s.poisoned = t.stuck
  accounts_holds : accountCodec.Holds s.db.accounts t.saved.accounts
  metadata_holds : metaCodec.Holds s.db.metadata t.saved.metadata
  accounts_follows : s.poisoned = false →
    s.accounts.Follows accountCodec s.db.accounts t.saved.accounts
  metadata_follows : s.poisoned = false →
    s.metadata.Follows metaCodec s.db.metadata t.saved.metadata

theorem view_lockDirty {κ υ : Type} [DecidableEq κ] (s : RedbStore) (old new : Mirror κ υ) :
    (s.lockDirty old new).view = new.view := by
  unfold lockDirty
  split <;> rfl

/-- A database that holds saved contents opens as them. -/
theorem implements_open (haccounts : accountCodec.Holds db.accounts t.saved.accounts)
    (hmetadata : metaCodec.Holds db.metadata t.saved.metadata) :
    ∃ s, RedbStore.open db = some s ∧ s.Implements t.crash := by
  obtain ⟨mem, hmem, haccountsView⟩ := Codec.load_of_holds haccounts
  obtain ⟨metaMem, hmetaMem, hmetadataView⟩ := Codec.load_of_holds hmetadata
  refine ⟨⟨db, ⟨mem, []⟩, ⟨metaMem, []⟩, false⟩, ?_, ?_⟩
  · rw [RedbStore.open, hmem, bind_some, hmetaMem, map_some]
  · exact {
      view_eq := StoreView.ext (funext haccountsView) (funext hmetadataView)
      poisoned_eq := rfl
      accounts_holds := haccounts
      metadata_holds := hmetadata
      accounts_follows := fun _ => ⟨haccounts, fun key _ => haccountsView key⟩
      metadata_follows := fun _ => ⟨hmetadata, fun key _ => hmetadataView key⟩ }

/-- A store that was just opened has saved what it has. -/
theorem implements_of_open (h : RedbStore.open db = some s) :
    s.Implements ⟨s.view, s.view, false⟩ := by
  obtain ⟨mem, hmem, h⟩ := bind_eq_some_iff.1 h
  obtain ⟨metaMem, hmetaMem, rfl⟩ := map_eq_some_iff.1 h
  exact {
    view_eq := rfl
    poisoned_eq := rfl
    accounts_holds := Codec.holds_of_load hmem
    metadata_holds := Codec.holds_of_load hmetaMem
    accounts_follows := fun _ => Mirror.follows_of_load hmem
    metadata_follows := fun _ => Mirror.follows_of_load hmetaMem }

section

variable (h : s.Implements t)

include h

/-- The transaction of a flush commits exactly if every account serializes. -/
theorem exists_commit_iff (hpoisoned : s.poisoned = false) :
    (∃ db, s.commit = some db) ↔ t.current.Serializes := by
  rw [← h.view_eq]
  have haccounts : (∃ accounts, s.accounts.writeBack accountCodec s.db.accounts = some accounts) ↔
      s.view.Serializes := Mirror.exists_writeBack_iff (h.accounts_follows hpoisoned)
  have hmetadata : ∃ metadata, s.metadata.writeBack metaCodec s.db.metadata = some metadata :=
    Mirror.exists_writeBack (fun _ value _ => ⟨value, rfl⟩) _
  rw [← haccounts]
  constructor
  · rintro ⟨db, hdb⟩
    obtain ⟨accounts, hwrite, -⟩ := bind_eq_some_iff.1 hdb
    exact ⟨accounts, hwrite⟩
  · rintro ⟨accounts, hwrite⟩
    obtain ⟨metadata, hmetadata⟩ := hmetadata
    exact ⟨⟨accounts, metadata⟩, by
      rw [commit, hwrite, bind_some, hmetadata, map_some]⟩

/-- What a commit leaves in the database. -/
theorem holds_commit (hpoisoned : s.poisoned = false) (hcommit : s.commit = some db) :
    accountCodec.Holds db.accounts t.current.accounts ∧
      metaCodec.Holds db.metadata t.current.metadata := by
  obtain ⟨accounts, haccounts, hcommit⟩ := bind_eq_some_iff.1 hcommit
  obtain ⟨metadata, hmetadata, rfl⟩ := map_eq_some_iff.1 hcommit
  rw [← h.view_eq]
  exact ⟨Mirror.holds_writeBack (h.accounts_follows hpoisoned) haccounts,
    Mirror.holds_writeBack (h.metadata_follows hpoisoned) hmetadata⟩

/-- With nothing marked, the contents are those last saved. -/
theorem current_eq_saved (hpoisoned : s.poisoned = false) (haccounts : s.accounts.dirty = [])
    (hmetadata : s.metadata.dirty = []) :
    t.current = t.saved := by
  rw [← h.view_eq]
  apply StoreView.ext
  · funext key
    exact (h.accounts_follows hpoisoned).2 key (by rw [haccounts]; exact List.not_mem_nil)
  · funext key
    exact (h.metadata_follows hpoisoned).2 key (by rw [hmetadata]; exact List.not_mem_nil)

theorem serializes_saved : t.saved.Serializes :=
  fun _ _ hkey => h.accounts_holds.exists_encode hkey

theorem implements_flush : s.flush.Implements t.flush := by
  unfold flush Saved.flush
  rw [← h.poisoned_eq]
  split_ifs with hpoisoned hclean hserializes hserializes
  · exact h
  -- nothing is marked: saving again changes nothing
  · rw [Bool.not_eq_true] at hpoisoned
    have hsaved := current_eq_saved h hpoisoned hclean.1 hclean.2
    rw [hsaved]
    exact { h with view_eq := h.view_eq.trans hsaved, poisoned_eq := rfl }
  · rw [Bool.not_eq_true] at hpoisoned
    have hsaved := current_eq_saved h hpoisoned hclean.1 hclean.2
    exact absurd (hsaved ▸ serializes_saved h) hserializes
  · rw [Bool.not_eq_true] at hpoisoned
    obtain ⟨db, hdb⟩ := (exists_commit_iff h hpoisoned).2 hserializes
    obtain ⟨haccounts, hmetadata⟩ := holds_commit h hpoisoned hdb
    rw [hdb]
    exact {
      view_eq := h.view_eq
      poisoned_eq := rfl
      accounts_holds := haccounts
      metadata_holds := hmetadata
      accounts_follows := fun _ => ⟨haccounts, fun key _ =>
        congrFun (congrArg StoreView.accounts h.view_eq) key⟩
      metadata_follows := fun _ => ⟨hmetadata, fun key _ =>
        congrFun (congrArg StoreView.metadata h.view_eq) key⟩ }
  · rw [Bool.not_eq_true] at hpoisoned
    have hcommit : s.commit = none := by
      rw [eq_none_iff_forall_ne_some]
      intro db hdb
      exact hserializes ((exists_commit_iff h hpoisoned).1 ⟨db, hdb⟩)
    rw [hcommit]
    exact { h with poisoned_eq := rfl, accounts_follows := nofun, metadata_follows := nofun }

/-- A write to the accounts, whether or not its key can be marked. -/
theorem implements_accounts {accounts : Mirror Pubkey Account} {view : Pubkey → Option Account}
    (hview : accounts.view = view)
    (hfollows : s.accounts.Follows accountCodec s.db.accounts t.saved.accounts →
      accounts.Follows accountCodec s.db.accounts t.saved.accounts) :
    Implements { s with accounts := s.lockDirty s.accounts accounts }
      { t with current.accounts := view } where
  view_eq := by
    have hmetadata : s.metadata.view = t.current.metadata := congrArg StoreView.metadata h.view_eq
    exact StoreView.ext ((view_lockDirty s _ _).trans hview) hmetadata
  poisoned_eq := h.poisoned_eq
  accounts_holds := h.accounts_holds
  metadata_holds := h.metadata_holds
  accounts_follows hpoisoned := by
    rw [lockDirty, hpoisoned]
    exact hfollows (h.accounts_follows hpoisoned)
  metadata_follows := h.metadata_follows

theorem implements_putMeta (key : Utf8) (value : List UInt8) : (s.putMeta key value).Implements
      { t with current.metadata := Function.update t.current.metadata key (some value) } where
  view_eq := by
    rw [← h.view_eq]
    exact StoreView.ext rfl ((view_lockDirty s _ _).trans (Mirror.view_set _ _ _))
  poisoned_eq := h.poisoned_eq
  accounts_holds := h.accounts_holds
  metadata_holds := h.metadata_holds
  accounts_follows := h.accounts_follows
  metadata_follows hpoisoned := by
    have hpoisoned : s.poisoned = false := hpoisoned
    rw [putMeta, lockDirty, hpoisoned]
    exact (h.metadata_follows hpoisoned).set key value

/-- One event. -/
theorem implements_step (e : Event) : ∃ s', s.step e = some s' ∧ s'.Implements (t.step e) := by
  have haccounts := congrArg StoreView.accounts h.view_eq
  cases e with
  | set key account =>
    refine ⟨_, rfl, implements_accounts h ?_ fun hfollows => hfollows.set key account⟩
    rw [Mirror.view_set, ← haccounts]
    rfl
  | remove key =>
    refine ⟨_, rfl, implements_accounts h ?_ fun hfollows => hfollows.remove key⟩
    rw [Mirror.view_remove, ← haccounts]
    rfl
  | putMeta key value => exact ⟨_, rfl, implements_putMeta h key value⟩
  | flush => exact ⟨_, rfl, implements_flush h⟩
  | failedFlush => exact ⟨s, rfl, h⟩
  | crash => exact implements_open h.accounts_holds h.metadata_holds
  | crashInFlush =>
    have hflush := implements_flush h
    exact implements_open hflush.accounts_holds hflush.metadata_holds

/-- A list of events. -/
theorem implements_run (events : List Event) :
    ∃ s', s.run events = some s' ∧ s'.Implements (Run.run Saved.step t events) := by
  induction events generalizing s t with
  | nil => exact ⟨s, rfl, h⟩
  | cons e events ih =>
    obtain ⟨s₁, hstep, h⟩ := implements_step h e
    obtain ⟨s', hrun, h⟩ := ih h
    exact ⟨s', by rw [run, List.foldlM_cons, hstep]; exact hrun, h⟩

end

/-- After every list of calls and stops, from any database that opens, the store has opened every
time it was started. It has the accounts and the metadata as they were written, and as they were
together at the last flush that committed where it was stopped since. -/
theorem view_run (hopen : RedbStore.open db = some s) (events : List Event) :
    ∃ s', s.run events = some s' ∧
      s'.view = (Run.run Saved.step ⟨s.view, s.view, false⟩ events).current := by
  obtain ⟨s', hrun, h⟩ := implements_run (implements_of_open hopen) events
  exact ⟨s', hrun, h.view_eq⟩

/-- The store of a new database. -/
def empty : RedbStore := ⟨⟨∅, ∅⟩, ⟨∅, []⟩, ⟨∅, []⟩, false⟩

/-- A new database, an account saved and then removed, and a stop. -/
theorem view_run_empty :
    RedbStore.open ⟨∅, ∅⟩ = some empty ∧
      ∃ s', empty.run [.set 7 (.newWallet 0), .flush, .remove 7, .crash] = some s' ∧
        s'.view = (Run.run Saved.step ⟨empty.view, empty.view, false⟩
          [.set 7 (.newWallet 0), .flush, .remove 7, .crash]).current := by
  have hopen : RedbStore.open ⟨∅, ∅⟩ = some empty := rfl
  exact ⟨hopen, view_run hopen _⟩

/-! ### The node's checkpoint -/

/-- The name `"next_round"`. -/
def nextRoundKey : Utf8 := ⟨[110, 101, 120, 116, 95, 114, 111, 117, 110, 100], by decide +kernel⟩

/-- The name `"economics"`. -/
def economicsKey : Utf8 := ⟨[101, 99, 111, 110, 111, 109, 105, 99, 115], by decide +kernel⟩

/-- The name `"v7_participation"`. -/
def v7ParticipationKey : Utf8 :=
  ⟨[118, 55, 95, 112, 97, 114, 116, 105, 99, 105, 112, 97, 116, 105, 111, 110], by decide +kernel⟩

/-- `persist_round_atomic` on this store: the round to execute next and the counters that go with
it are staged, and everything is flushed. Counters that do not serialize are left out, as is the
participation outside v7. -/
def persistRoundAtomic (nextRound : U64) (economics participation : Option (List UInt8)) :
    List Event :=
  [.putMeta nextRoundKey (toLeBytes 8 nextRound.toNat)] ++
    (economics.toList.map (.putMeta economicsKey) ++
      (participation.toList.map (.putMeta v7ParticipationKey) ++ [.flush]))

/-- A call that saves nothing. -/
def Event.IsWrite : Event → Prop
  | .set _ _ | .remove _ | .putMeta _ _ | .failedFlush => True
  | .flush | .crash | .crashInFlush => False

theorem saved_run_of_isWrite {writes : List Event} (h : ∀ e ∈ writes, e.IsWrite) (t : Saved) :
    (Run.run Saved.step t writes).saved = t.saved := by
  induction writes generalizing t with
  | nil => rfl
  | cons e writes ih =>
    rw [Run.run_cons, ih fun e' he' => h e' (List.mem_cons_of_mem _ he')]
    have hwrite := h e List.mem_cons_self
    cases e with
    | set | remove | putMeta | failedFlush => rfl
    | flush | crash | crashInFlush => exact hwrite.elim

/-- What is saved with a round are the accounts at that time and the round. -/
theorem saved_persistRoundAtomic {t : Saved} (hstuck : t.stuck = false)
    (hserializes : t.current.Serializes) (nextRound : U64)
    (economics participation : Option (List UInt8)) :
    let t' := Run.run Saved.step t (persistRoundAtomic nextRound economics participation)
    t'.saved.accounts = t.current.accounts ∧
      t'.saved.metadata nextRoundKey = some (toLeBytes 8 nextRound.toNat) := by
  have heconomics : nextRoundKey ≠ economicsKey := by decide
  have hparticipation : nextRoundKey ≠ v7ParticipationKey := by decide
  -- serializing is about the accounts, which staging does not touch
  have hflush (metadata : Utf8 → Option (List UInt8)) :
      Saved.flush { t with current.metadata := metadata } =
        ⟨{ t.current with metadata }, { t.current with metadata }, false⟩ := by
    have hserializes' : StoreView.Serializes { t.current with metadata } := hserializes
    rw [Saved.flush, hstuck, if_neg Bool.false_ne_true, if_pos hserializes']
  cases economics <;> cases participation <;>
    simp [persistRoundAtomic, Saved.step, hflush, heconomics,
      hparticipation]

/-- A node that is stopped after it persisted a round goes back to that round and to the accounts
it had then, whatever it has written since. -/
theorem view_persistRoundAtomic (hopen : RedbStore.open db = some s) {events writes : List Event}
    (hwrites : ∀ e ∈ writes, e.IsWrite) {t : Saved}
    (ht : t = Run.run Saved.step ⟨s.view, s.view, false⟩ events) (hstuck : t.stuck = false)
    (hserializes : t.current.Serializes) (nextRound : U64)
    (economics participation : Option (List UInt8)) :
    ∃ s', s.run (events ++ (persistRoundAtomic nextRound economics participation ++
        (writes ++ [.crash]))) = some s' ∧
      s'.view.accounts = t.current.accounts ∧
      s'.view.metadata nextRoundKey = some (toLeBytes 8 nextRound.toNat) := by
  obtain ⟨s', hrun, hview⟩ := view_run hopen (events ++
    (persistRoundAtomic nextRound economics participation ++ (writes ++ [.crash])))
  refine ⟨s', hrun, ?_⟩
  rw [Run.run_append, Run.run_append, Run.run_concat, ← ht] at hview
  have hsaved : s'.view = (Run.run Saved.step t
      (persistRoundAtomic nextRound economics participation)).saved :=
    hview.trans (saved_run_of_isWrite hwrites _)
  rw [hsaved]
  exact saved_persistRoundAtomic hstuck hserializes nextRound economics participation

def savedWallet (balance : U64) : Account := { Account.newWallet 0 with balance := balance }

/-- A wallet is saved, another one is lost in a stop, and a third one is not yet flushed. -/
def walletHistory : List Event :=
  [.set 7 (savedWallet 5), .flush, .set 8 (savedWallet 1), .crash, .set 9 (savedWallet 6)]

/-- A round is persisted with two wallets, and what is written to them afterwards is lost. -/
theorem view_persistRoundAtomic_wallets :
    let writes : List Event := [.set 7 (savedWallet 4), .remove 9, .failedFlush]
    ∃ s', empty.run (walletHistory ++
        (persistRoundAtomic 3 (some [1]) none ++ (writes ++ [.crash]))) = some s' ∧
      s'.view.accounts 7 = some (savedWallet 5) ∧ s'.view.accounts 8 = none ∧
      s'.view.accounts 9 = some (savedWallet 6) ∧
      s'.view.metadata nextRoundKey = some (toLeBytes 8 3) := by
  intro writes
  have hopen : RedbStore.open ⟨∅, ∅⟩ = some empty := rfl
  have hempty : empty.view.Serializes := fun _ _ h => by cases h
  have hwallet : Encodes (savedWallet 5) ∧ Encodes (savedWallet 6) :=
    ⟨Option.isSome_iff_exists.1 (by decide +kernel), Option.isSome_iff_exists.1 (by decide +kernel)⟩
  let saved := { empty.view with
    accounts := Function.update empty.view.accounts 7 (some (savedWallet 5)) }
  let current := { saved with accounts := Function.update saved.accounts 9 (some (savedWallet 6)) }
  have hfirst : saved.Serializes := hempty.set 7 hwallet.1
  have hboth : current.Serializes := hfirst.set 9 hwallet.2
  have ht : Run.run Saved.step ⟨empty.view, empty.view, false⟩ walletHistory =
      ⟨current, saved, false⟩ := by
    have hflush : Saved.flush ⟨saved, empty.view, false⟩ = ⟨saved, saved, false⟩ := by
      rw [Saved.flush, if_neg Bool.false_ne_true, if_pos hfirst]
    show Run.run Saved.step (Saved.flush ⟨saved, empty.view, false⟩)
      [.set 8 (savedWallet 1), .crash, .set 9 (savedWallet 6)] = _
    rw [hflush]
    rfl
  obtain ⟨s', hrun, haccounts, hround⟩ := @view_persistRoundAtomic _ _ hopen walletHistory writes
    (by simp [writes, Event.IsWrite]) _ ht.symm rfl hboth 3 (some [1]) none
  refine ⟨s', hrun, ?_, ?_, ?_, hround⟩ <;> rw [haccounts] <;> rfl

end RedbStore

end QChain
