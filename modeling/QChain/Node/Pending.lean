import Mathlib
import QChain.Node.Engine

/-!
# The queue of certificates waiting for execution

Committed certificates wait in `pending_execution` until their worker batches are cached
(`take_executable_prefix` and `try_commit` in `qchain-node/src/engine.rs`). A missing batch blocks
the queue: nothing behind it is executed before it.
-/

namespace QChain

/-- The batches of a certificate that are not cached. -/
def Certificate.missing (batches : Finset Digest) (cert : Certificate) :
    List (WorkerId × Digest) :=
  cert.vertex.batchDigests.filter fun batch => batch.2 ∉ batches

/-- `take_executable_prefix`: the certificates ready to execute, the missing batches the queue is
blocked on with the validator to ask for them, and the queue that is left. -/
def takeExecutablePrefix (batches : Finset Digest) : List Certificate →
    List Certificate × Option (List (WorkerId × Digest) × ValidatorId) × List Certificate
  | [] => ([], none, [])
  | cert :: pending =>
    if cert.missing batches ≠ [] then
      ([], some (cert.missing batches, cert.vertex.author), cert :: pending)
    else
      let (ready, blocked, rest) := takeExecutablePrefix batches pending
      (cert :: ready, blocked, rest)

/-- The loop stops at the first certificate with a missing batch. -/
theorem takeExecutablePrefix_eq (batches : Finset Digest) (pending : List Certificate) :
    (takeExecutablePrefix batches pending).1 = pending.takeWhile (·.missing batches = []) ∧
      (takeExecutablePrefix batches pending).2.2 =
        pending.dropWhile (·.missing batches = []) := by
  induction pending with
  | nil => exact ⟨rfl, rfl⟩
  | cons cert pending ih =>
    rw [takeExecutablePrefix, List.takeWhile_cons, List.dropWhile_cons]
    by_cases h : cert.missing batches = []
    · simp [h, ih]
    · simp [h]

/-- The queue and the batch cache. -/
structure ExecutionQueue where
  pendingExecution : List Certificate
  batches : Finset Digest

/-- What happens to the queue and to the batch cache. -/
inductive QueueEvent
  | commit (certs : List Certificate)
  | arrive (batch : Digest)
  | evict (batches : Finset Digest)
  | take

/-- The certificates that an event commits. -/
def QueueEvent.committed : QueueEvent → List Certificate
  | .commit certs => certs
  | _ => []

namespace ExecutionQueue

/-- The queue of a node that starts. -/
def empty : ExecutionQueue := ⟨[], ∅⟩

variable (q : ExecutionQueue)

/-- The queue after an event, and the certificates handed to execution. -/
def step : QueueEvent → ExecutionQueue × List Certificate
  | .commit certs => ({ q with pendingExecution := q.pendingExecution ++ certs }, [])
  | .arrive batch => ({ q with batches := insert batch q.batches }, [])
  | .evict batches => ({ q with batches := q.batches \ batches }, [])
  | .take =>
    let (ready, _, rest) := takeExecutablePrefix q.batches q.pendingExecution
    ({ q with pendingExecution := rest }, ready)

/-- The queue after some events. -/
def after : List QueueEvent → ExecutionQueue := Run.run (fun q event => (q.step event).1) q

/-- What is handed to execution in the course of some events. -/
def handedOut : ExecutionQueue → List QueueEvent → List Certificate
  | _, [] => []
  | q, event :: events => (q.step event).2 ++ (q.step event).1.handedOut events

/-- No eviction among the events is of the batch. -/
def Keeps (batch : Digest) (events : List QueueEvent) : Prop :=
  ∀ batches, .evict batches ∈ events → batch ∉ batches

/-- The batch has arrived and has not been evicted since. -/
def Cached (events : List QueueEvent) (batch : Digest) : Prop :=
  ∃ before since, events = before ++ .arrive batch :: since ∧ Keeps batch since

/-- All batches of a certificate are cached after the events. -/
def AllCached (events : List QueueEvent) (cert : Certificate) : Prop :=
  ∀ batch ∈ cert.vertex.batchDigests, Cached events batch.2

variable {batch : Digest} {event : QueueEvent} {events : List QueueEvent}

theorem keeps_cons : Keeps batch (event :: events) ↔
    (∀ batches, event = .evict batches → batch ∉ batches) ∧ Keeps batch events := by
  simp only [Keeps, List.mem_cons, or_imp, forall_and, eq_comm]

theorem cached_cons : Cached (event :: events) batch ↔
    event = .arrive batch ∧ Keeps batch events ∨ Cached events batch := by
  constructor
  · rintro ⟨before, since, h, hkeeps⟩
    cases before with
    | nil =>
      obtain ⟨rfl, rfl⟩ := List.cons.inj h
      exact .inl ⟨rfl, hkeeps⟩
    | cons _ before => exact .inr ⟨before, since, (List.cons.inj h).2, hkeeps⟩
  · rintro (⟨rfl, hkeeps⟩ | ⟨before, since, rfl, hkeeps⟩)
    · exact ⟨[], events, rfl, hkeeps⟩
    · exact ⟨event :: before, since, rfl, hkeeps⟩

/-- The cache holds what it held and what has arrived, as far as it has not been evicted since. -/
theorem mem_batches_after (events : List QueueEvent) : batch ∈ (q.after events).batches ↔
    batch ∈ q.batches ∧ Keeps batch events ∨ Cached events batch := by
  induction events generalizing q with
  | nil => simp [after, Run.run, Keeps, Cached]
  | cons event events ih =>
    refine (ih (q.step event).1).trans ?_
    rw [keeps_cons, cached_cons]
    cases event with
    | commit | take => simp [step]
    | arrive b =>
      by_cases h : batch = b
      · simp [step, h]
        tauto
      · simp [step, h, Ne.symm h]
    | evict bs => simp [step]; tauto

/-- Nothing is lost, repeated or moved: what is handed out and what then waits is what waited and
what has been committed. -/
theorem handedOut_append (events : List QueueEvent) :
    q.handedOut events ++ (q.after events).pendingExecution =
      q.pendingExecution ++ events.flatMap QueueEvent.committed := by
  induction events generalizing q with
  | nil => simp [handedOut, after, Run.run]
  | cons event events ih =>
    have hstep : (q.step event).2 ++ (q.step event).1.pendingExecution =
        q.pendingExecution ++ event.committed := by
      cases event with
      | commit | arrive | evict => simp [step, QueueEvent.committed]
      | take =>
        obtain ⟨hready, hrest⟩ := takeExecutablePrefix_eq q.batches q.pendingExecution
        show (takeExecutablePrefix _ _).1 ++ (takeExecutablePrefix _ _).2.2 = _
        rw [hready, hrest, List.takeWhile_append_dropWhile]
        exact (List.append_nil _).symm
    rw [handedOut, List.append_assoc]
    refine (congrArg _ (ih _)).trans ?_
    rw [← List.append_assoc, hstep, List.append_assoc, List.flatMap_cons]

/-- Whatever the interleaving, execution follows the committed order, and a call hands out the
longest part of what comes next that is cached. -/
theorem executes_longest_cached (events : List QueueEvent) :
    let handed := empty.handedOut events
    let committed := events.flatMap QueueEvent.committed
    let ready := ((empty.after events).step .take).2
    handed <+: committed ∧
      (handed ++ ready <+: committed ∧ ∀ cert ∈ ready, AllCached events cert) ∧
      ∀ certs, handed ++ certs <+: committed → (∀ cert ∈ certs, AllCached events cert) →
        certs <+: ready := by
  intro handed committed ready
  have hqueue : handed ++ (empty.after events).pendingExecution = committed :=
    handedOut_append empty events
  have hready : ready = (empty.after events).pendingExecution.takeWhile
      (·.missing (empty.after events).batches = []) := (takeExecutablePrefix_eq _ _).1
  have hbatches : ∀ batch, batch ∈ (empty.after events).batches ↔ Cached events batch :=
    fun batch => (mem_batches_after empty events).trans (by simp [empty])
  have hcached : ∀ cert : Certificate,
      cert.missing (empty.after events).batches = [] ↔ AllCached events cert := by
    simp [Certificate.missing, List.filter_eq_nil_iff, hbatches, AllCached]
  rw [hready, ← hqueue]
  refine ⟨List.prefix_append .., ⟨?_, ?_⟩, ?_⟩
  · rw [List.prefix_append_right_inj]
    exact List.takeWhile_prefix _
  · intro cert hcert
    have hmissing := List.mem_takeWhile_imp hcert
    exact (hcached cert).1 (of_decide_eq_true hmissing)
  · intro certs hnext hall
    obtain ⟨behind, hpending⟩ := (List.prefix_append_right_inj _).1 hnext
    rw [← hpending, List.takeWhile_append_of_pos]
    · exact List.prefix_append ..
    · intro cert hcert
      exact decide_eq_true ((hcached cert).2 (hall cert hcert))

/-- The certificate of an author with some batches. -/
def withBatches (author : ValidatorId) (batches : List Digest) : Certificate :=
  ⟨⟨0, author, batches.map fun batch => (0, batch), []⟩, []⟩

/-- A missing batch of the second certificate blocks the third, until it arrives. -/
theorem executes_longest_cached_blocked :
    let certs := [withBatches 1 [5], withBatches 2 [5, 6], withBatches 3 []]
    let events : List QueueEvent := [.commit certs, .arrive 5, .take, .take]
    empty.handedOut events = certs.take 1 ∧
      empty.handedOut (events ++ [.arrive 6, .take]) = certs ∧
      empty.handedOut events <+: certs := by
  refine ⟨by decide, by decide, (executes_longest_cached _).1⟩

end ExecutionQueue

end QChain
