import QChain.Core.Transaction
import QChain.System.Run
import QChain.System.Watermark

/-!
# The guard against double signing

The state that the signing daemon keeps across restarts (`qchain-remote-signer/src/lib.rs`): the
last own vote and the last checkpoint it has approved, each a watermark. The file is written before
the approval is returned, atomically and durably; an error on the way leaves the old file.
-/

namespace QChain

open Borsh

/-- `GuardState`. -/
structure GuardState where
  lastOwnRound : U64
  lastOwnDigest : Bytes32
  lastCheckpointRound : U64
  lastCheckpointRoot : Bytes32
  checkpointSeen : Bool
  deriving DecidableEq

namespace GuardState

instance : Borsh GuardState :=
  Borsh.iso (fun st => (st.lastOwnRound, st.lastOwnDigest, st.lastCheckpointRound,
      st.lastCheckpointRoot, st.checkpointSeen))
    fun (lastOwnRound, lastOwnDigest, lastCheckpointRound, lastCheckpointRoot, checkpointSeen) =>
      ⟨lastOwnRound, lastOwnDigest, lastCheckpointRound, lastCheckpointRoot, checkpointSeen⟩

instance : LawfulBorsh GuardState := Borsh.lawful_iso

instance : FixedSize GuardState 81 :=
  Borsh.fixedSize_iso (β := U64 × Bytes32 × U64 × Bytes32 × Bool) _ _

/-- `GuardState::empty`. -/
def empty : GuardState := ⟨0, 0, 0, 0, false⟩

/-- `GuardStateV1`, the record of older versions, has the own vote only. -/
def ofV1 : U64 × Bytes32 → GuardState
  | (lastOwnRound, lastOwnDigest) => { empty with lastOwnRound, lastOwnDigest }

/-- `decode_state`. -/
def decodeState (bytes : List UInt8) : Option GuardState :=
  (fromSlice bytes : Option GuardState).or ((fromSlice bytes).map ofV1)

/-- What a guard file says. One that does not exist is empty, and says nothing was signed. -/
def ofFile (file : List UInt8) : Option (Option GuardState) :=
  if file = [] then some none else (decodeState file).map some

theorem ofFile_of_toVec {st : GuardState} {file : List UInt8} (h : toVec st = some file) :
    ofFile file = some (some st) := by
  have hlength : file.length = 81 := length_toVec h
  have hne : file ≠ [] := by
    rintro rfl
    cases hlength
  rw [ofFile, if_neg hne, decodeState, fromSlice_eq_some_iff.2 h]
  rfl

end GuardState

/-- `DoubleSignGuard`: the state in memory is the one the file says. -/
structure DoubleSignGuard where
  file : List UInt8
  state : Option GuardState
  ofFile_eq : GuardState.ofFile file = some state

namespace DoubleSignGuard

/-- `DoubleSignGuard::load`. A corrupt file is an error. -/
def load (file : List UInt8) : Option DoubleSignGuard :=
  match h : GuardState.ofFile file with
  | some state => some ⟨file, state, h⟩
  | none => none

/-- The guard on no file. -/
def fresh : DoubleSignGuard := ⟨[], none, rfl⟩

variable (g : DoubleSignGuard)

theorem load_file : load g.file = some g := by
  unfold load
  split
  · next state h =>
    obtain rfl : state = g.state := Option.mem_unique h g.ofFile_eq
    rfl
  · next h => exact absurd (h.symm.trans g.ofFile_eq) (by simp)

/-- `persist`, followed by taking over the state. A fault is the error of a file operation. -/
def persist (fault : Option String) (next : GuardState) :
    Except String DoubleSignGuard :=
  match fault, h : toVec next with
  | none, some file => .ok ⟨file, some next, GuardState.ofFile_of_toVec h⟩
  | none, none => .error "cannot persist double-sign guard: "
  | some e, _ => .error ("cannot persist double-sign guard: " ++ e)

/-- The last own vote. -/
def ownMark : Option (U64 × Bytes32) :=
  g.state.map fun st => (st.lastOwnRound, st.lastOwnDigest)

/-- The last checkpoint. -/
def checkpointMark : Option (U64 × Bytes32) :=
  g.state.bind fun st =>
    if st.checkpointSeen then some (st.lastCheckpointRound, st.lastCheckpointRoot) else none

/-- `check_and_record_own`. -/
def checkAndRecordOwn (fault : Option String) (round : U64)
    (digest : Bytes32) : Except String DoubleSignGuard :=
  match Watermark.judge g.ownMark round digest with
  | .stale last => .error ("refusing to sign own vertex for round " ++ toString round ++
      ": already signed a higher round " ++ toString last)
  | .conflict => .error
      ("DOUBLE-SIGN BLOCKED: already signed a DIFFERENT own vertex for round " ++ toString round)
  | .repeated => .ok g
  | .fresh => persist fault
      { g.state.getD .empty with lastOwnRound := round, lastOwnDigest := digest }

/-- `check_and_record_checkpoint`. -/
def checkAndRecordCheckpoint (fault : Option String) (round : U64)
    (root : Bytes32) : Except String DoubleSignGuard :=
  match Watermark.judge g.checkpointMark round root with
  | .stale last => .error ("refusing to sign checkpoint for round " ++ toString round ++
      ": already signed a higher checkpoint round " ++ toString last)
  | .conflict => .error ("STATE-EQUIVOCATION BLOCKED: already signed a DIFFERENT state root for " ++
      "checkpoint round " ++ toString round)
  | .repeated => .ok g
  | .fresh => persist fault
      { g.state.getD .empty with
        lastCheckpointRound := round, lastCheckpointRoot := root, checkpointSeen := true }

/-- The own votes a guard accounts for. -/
def Covers (g : DoubleSignGuard) (round : U64) (digest : Bytes32) : Prop :=
  Watermark.Covers g.ownMark round digest

variable {g g' : DoubleSignGuard} {fault : Option String} {round round' : U64}
  {digest digest' root : Bytes32}

theorem state_of_persist {next : GuardState} (h : persist fault next = .ok g') :
    g'.state = some next := by
  unfold persist at h
  split at h
  · obtain rfl := Except.ok.inj h
    rfl
  · cases h
  · cases h

/-- An own vote is approved only if the mark allows it, and becomes the mark. -/
theorem mark_of_own (h : g.checkAndRecordOwn fault round digest = .ok g') :
    (∀ p ∈ g.ownMark, Watermark.Below p (round, digest)) ∧
      g'.ownMark = some (round, digest) ∧ g'.checkpointMark = g.checkpointMark := by
  rw [← Watermark.granted_iff]
  unfold checkAndRecordOwn at h
  split at h
  · cases h
  · cases h
  · next hjudge =>
    obtain rfl := Except.ok.inj h
    exact ⟨.inl hjudge, Watermark.eq_of_repeated hjudge, rfl⟩
  · next hjudge =>
    refine ⟨.inr hjudge, ?_⟩
    rw [ownMark, checkpointMark, checkpointMark, state_of_persist h]
    cases g.state <;> exact ⟨rfl, rfl⟩

/-- An approved own vote is accounted for, with all that were before. -/
theorem covers_of_own (h : g.checkAndRecordOwn fault round digest = .ok g') :
    g'.Covers round digest ∧
      ∀ round' digest', g.Covers round' digest' → g'.Covers round' digest' := by
  obtain ⟨hbelow, hmark, -⟩ := mark_of_own h
  unfold Covers
  rw [hmark]
  exact ⟨⟨_, rfl, .inr ⟨rfl, rfl⟩⟩, fun _ _ hcovers => hcovers.move hbelow⟩

/-- An approved own vote has the digest of every own vote of its round accounted for. -/
theorem Covers.digest_eq (hcovers : g.Covers round digest')
    (h : g.checkAndRecordOwn fault round digest = .ok g') : digest' = digest :=
  Watermark.Covers.value_eq hcovers (mark_of_own h).1

theorem exists_persist (next : GuardState) : ∃ g', persist none next = .ok g' := by
  obtain ⟨file, hfile⟩ := encodes_of_fixedSize next
  unfold persist
  split
  · exact ⟨_, rfl⟩
  · next h => cases h.symm.trans hfile
  · next h => cases h

theorem own_ok_iff : (∃ g', g.checkAndRecordOwn none round digest = .ok g') ↔
    ∀ p ∈ g.ownMark, Watermark.Below p (round, digest) := by
  rw [← Watermark.granted_iff]
  unfold checkAndRecordOwn
  split <;> simp [*, exists_persist]

theorem checkpoint_ok_iff : (∃ g', g.checkAndRecordCheckpoint none round root = .ok g') ↔
    ∀ p ∈ g.checkpointMark, Watermark.Below p (round, root) := by
  rw [← Watermark.granted_iff]
  unfold checkAndRecordCheckpoint
  split <;> simp [*, exists_persist]

/-- The first request of either kind leaves a record, in which the own vote is that of round zero
and digest zero unless it was the request. -/
theorem mark_of_checkpoint (h : g.checkAndRecordCheckpoint fault round root = .ok g') :
    g'.checkpointMark = some (round, root) ∧ g'.ownMark = g.ownMark.or (some (0, 0)) := by
  unfold checkAndRecordCheckpoint at h
  split at h
  · cases h
  · cases h
  · next hjudge =>
    obtain rfl := Except.ok.inj h
    have hmark := Watermark.eq_of_repeated hjudge
    refine ⟨hmark, ?_⟩
    obtain ⟨st, hst, -⟩ := Option.bind_eq_some_iff.1 hmark
    rw [ownMark, hst]
    rfl
  · rw [ownMark, ownMark, checkpointMark, state_of_persist h]
    cases g.state <;> exact ⟨rfl, rfl⟩

/-- Checkpoints keep the own votes that are accounted for. -/
theorem Covers.checkpoint (hcovers : g.Covers round' digest')
    (h : g.checkAndRecordCheckpoint fault round root = .ok g') : g'.Covers round' digest' := by
  obtain ⟨m, hmark, hcovers⟩ := hcovers
  refine ⟨m, ?_, hcovers⟩
  rw [(mark_of_checkpoint h).2, hmark]
  rfl

end DoubleSignGuard

/-! ### Runs -/

/-- What happens to a guard whose file can be written. A crash in a request is one before it or
after it, as the file is replaced atomically. -/
inductive GuardEvent
  | own (round : U64) (digest : Bytes32)
  | checkpoint (round : U64) (root : Bytes32)
  | crash

/-- A guard with what it has granted, the last first. -/
structure GuardLog where
  guard : DoubleSignGuard
  owns : List (U64 × Bytes32)
  checkpoints : List (U64 × Bytes32)

namespace GuardLog

def step (s : GuardLog) : GuardEvent → GuardLog
  | .own round digest =>
    match s.guard.checkAndRecordOwn none round digest with
    | .ok guard => { s with guard, owns := (round, digest) :: s.owns }
    | .error _ => s
  | .checkpoint round root =>
    match s.guard.checkAndRecordCheckpoint none round root with
    | .ok guard => { s with guard, checkpoints := (round, root) :: s.checkpoints }
    | .error _ => s
  | .crash => (DoubleSignGuard.load s.guard.file).elim s fun guard => { s with guard }

/-- The marks are the last grants. Without a grant of its kind, a mark is that of the other kind's
first record. -/
structure Marked (s : GuardLog) : Prop where
  own : s.guard.ownMark = s.owns.head?.or (if s.checkpoints = [] then none else some (0, 0))
  checkpoint : s.guard.checkpointMark = s.checkpoints.head?
  owns : s.owns.Pairwise fun q p => Watermark.Below p q
  checkpoints : s.checkpoints.Pairwise fun q p => Watermark.Below p q

variable {s : GuardLog}

/-- What an own vote is measured against. -/
theorem Marked.own_ok_iff (h : s.Marked) {round : U64} {digest : Bytes32} :
    (∃ g', s.guard.checkAndRecordOwn none round digest = .ok g') ↔
      (∀ p ∈ s.owns, Watermark.Below p (round, digest)) ∧
        ¬(s.owns = [] ∧ s.checkpoints ≠ [] ∧ round = 0 ∧ digest ≠ 0) := by
  rw [DoubleSignGuard.own_ok_iff, h.own, ← Watermark.below_head_iff h.owns]
  cases s.owns with
  | cons p owns => simp
  | nil =>
    split_ifs with hnone
    · simp [hnone]
    · have hzero : 0 ≤ round := Word.le_iff.2 (Nat.zero_le _)
      simp [hnone, Watermark.Below, hzero, eq_comm]

theorem Marked.checkpoint_ok_iff (h : s.Marked) {round : U64} {root : Bytes32} :
    (∃ g', s.guard.checkAndRecordCheckpoint none round root = .ok g') ↔
      ∀ p ∈ s.checkpoints, Watermark.Below p (round, root) := by
  rw [DoubleSignGuard.checkpoint_ok_iff, h.checkpoint, Watermark.below_head_iff h.checkpoints]

theorem Marked.step (h : s.Marked) (event : GuardEvent) : (s.step event).Marked := by
  cases event with
  | own round digest =>
    rw [GuardLog.step]
    split
    · next guard hok =>
      obtain ⟨-, hown, hcheckpoint⟩ := DoubleSignGuard.mark_of_own hok
      have hbelow := (h.own_ok_iff.1 ⟨_, hok⟩).1
      exact ⟨hown, hcheckpoint.trans h.checkpoint, .cons hbelow h.owns, h.checkpoints⟩
    · exact h
  | checkpoint round root =>
    rw [GuardLog.step]
    split
    · next guard hok =>
      obtain ⟨hcheckpoint, hown⟩ := DoubleSignGuard.mark_of_checkpoint hok
      have hbelow := h.checkpoint_ok_iff.1 ⟨_, hok⟩
      refine ⟨?_, hcheckpoint, h.owns, .cons hbelow h.checkpoints⟩
      rw [hown, h.own]
      cases s.owns <;> cases s.checkpoints <;> rfl
    · exact h
  | crash =>
    rw [GuardLog.step, s.guard.load_file]
    exact h

/-- In every run the approved checkpoints never go back, and have one root a round. -/
theorem checkpoints_agree (events : List GuardEvent) :
    (Run.run step ⟨.fresh, [], []⟩ events).checkpoints.Pairwise fun q p =>
      p.1 ≤ q.1 ∧ (p.1 = q.1 → p.2 = q.2) :=
  (Run.induction (P := Marked) ⟨rfl, rfl, .nil, .nil⟩ fun _ _ _ h => h.step _).checkpoints

end GuardLog
end QChain
