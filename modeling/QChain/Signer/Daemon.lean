import QChain.Execution.Chain
import QChain.Signer.Guard

/-!
# The signing daemon

The process that holds a validator's key and signs what the node asks for
(`qchain-remote-signer/src/lib.rs`). A run takes requests of a node that may ask for anything, with
the daemon stopped and started anywhere, also while it handles a request; the signatures it returned
are in the log. An own vote is asked for with a round and a digest, and the daemon cannot know that
the digest is of a vertex of that round.
-/

namespace QChain

open List

/-! ### Requests -/

/-- The domain tag of handshakes, `P2P_AUTH_V1`. -/
def p2pAuthV1 : List UInt8 := asciiBytes "qchain-p2p-auth-v1"

/-- The domain tag of checkpoints, `STATE_CHECKPOINT_V1`. -/
def stateCheckpointV1 : List UInt8 := asciiBytes "qchain-state-checkpoint-v1"

/-- The domain tag of certificates of network keys, `NETWORK_KEY_CERT_V1`. -/
def networkKeyCertV1 : List UInt8 := asciiBytes "qchain-network-key-cert-v1"

/-- `SignerRequest`. -/
inductive SignerRequest
  | getBundle
  | signOwnVote (chainId : Bytes32) (round : U64) (digest : Digest)
  | signPeerVote (chainId : Bytes32) (vertexBytes : List UInt8) (digest : Digest)
  | signNetworkHandshake (transcript : List UInt8)
  | signCheckpoint (chainId : Bytes32) (round : U64) (merkleRoot : Bytes32)
  | signNetworkKeyCert (chainId validatorId networkAddr : Bytes32)
  | keySecurity
  deriving DecidableEq

/-- `SignerResponse`. -/
inductive SignerResponse
  | bundle (bundle : PublicKeyBundle)
  | signature (signature : MultiSignature)
  | refused (reason : String)
  | keySecurity (keystoreBacked : Bool)
  deriving DecidableEq

/-- The key and the libraries of a daemon. Signing may be randomized. -/
structure SignerHost where
  bundle : PublicKeyBundle
  /-- `Keypair::sign`. -/
  sign : (msg : List UInt8) → (seed : ℕ) → Except String MultiSignature
  /-- The text of the error on bytes that are not a vertex. -/
  vertexError : List UInt8 → String

/-- What a request asks to be signed. -/
def SignerRequest.message : SignerRequest → List UInt8
  | .getBundle | .keySecurity => []
  | .signOwnVote chainId _ digest | .signPeerVote chainId _ digest =>
    vertexVoteV1 ++ vertexVoteMessage chainId digest
  | .signNetworkHandshake transcript => transcript
  | .signCheckpoint chainId round merkleRoot =>
    stateCheckpointV1 ++ (chainId.toBytes ++ toLeBytes 8 round ++ merkleRoot.toBytes)
  | .signNetworkKeyCert chainId validatorId networkAddr =>
    networkKeyCertV1 ++ (chainId.toBytes ++ validatorId.toBytes ++ networkAddr.toBytes)

/-! ### Answers -/

section Respond

variable [Crypto]

namespace SignerHost

/-- Signs what the request asks for. -/
def answer (host : SignerHost) (seed : ℕ) (req : SignerRequest) : SignerResponse :=
  match host.sign req.message seed with
  | .ok signature => .signature signature
  | .error e => .refused ("sign error: " ++ e)

/-- `respond`, with the guard after it. -/
def respond (host : SignerHost) (guard : DoubleSignGuard) (seed : ℕ) (fault : Option String)
    (req : SignerRequest) : SignerResponse × DoubleSignGuard :=
  match req with
  | .getBundle => (.bundle host.bundle, guard)
  | .keySecurity =>
    (.refused "key-at-rest attestation is only served by the policy-aware path", guard)
  | .signOwnVote _ round digest =>
    match guard.checkAndRecordOwn fault round digest with
    | .ok guard' => (host.answer seed req, guard')
    | .error reason => (.refused reason, guard)
  | .signPeerVote _ vertexBytes digest =>
    match decodeVertex.all vertexBytes with
    | none => (.refused ("refusing SignPeerVote: malformed vertex bytes: " ++
        host.vertexError vertexBytes), guard)
    | some vertex =>
      if vertex.digest ≠ digest then
        (.refused ("refusing SignPeerVote: the vertex digest does not match the requested " ++
          "digest (a peer-vote must attest the given vertex, not an arbitrary digest)"), guard)
      else if vertex.author = host.bundle.toAddress then
        (.refused ("DOUBLE-SIGN BLOCKED: refusing to peer-sign OUR OWN vertex — an own-authored " ++
          "vertex must be signed via SignOwnVote (double-sign guarded)"), guard)
      else (host.answer seed req, guard)
  | .signNetworkHandshake transcript =>
    if p2pAuthV1.isPrefixOf transcript = false then
      (.refused ("refusing SignNetworkHandshake: only a P2P_AUTH_V1-domained handshake " ++
        "transcript is signable; the consensus signer never signs value/other objects"), guard)
    else (host.answer seed req, guard)
  | .signCheckpoint _ round merkleRoot =>
    match guard.checkAndRecordCheckpoint fault round merkleRoot with
    | .ok guard' => (host.answer seed req, guard')
    | .error reason => (.refused reason, guard)
  | .signNetworkKeyCert _ _ _ => (host.answer seed req, guard)

end SignerHost

end Respond

/-! ### Policy -/

/-- `RateLimit`. Times are numbers. -/
structure RateLimit where
  maxSigns : Word 32
  window : ℕ

/-- `RateLimiter`: the times of the requests let through, oldest first. -/
structure RateLimiter where
  limit : Option RateLimit
  recent : List ℕ

namespace RateLimiter

/-- `RateLimiter::new`. -/
def new (limit : Option RateLimit) : RateLimiter := ⟨limit, []⟩

/-- `allow_at`. A time before an earlier one is at distance zero from it. -/
def allowAt (limiter : RateLimiter) (now : ℕ) : Bool × RateLimiter :=
  match limiter.limit with
  | none => (true, limiter)
  | some rl =>
    let recent := limiter.recent.dropWhile fun front => decide (rl.window ≤ now - front)
    if rl.maxSigns ≤ (Word.ofNat recent.length : Word 32) then (false, { limiter with recent })
    else (true, { limiter with recent := recent ++ [now] })

end RateLimiter

/-- `SignerPolicy`. -/
structure SignerPolicy where
  expectedChainId : Option Bytes32
  rateLimit : Option RateLimit
  keystoreBacked : Bool

/-- The chain a request names. -/
def SignerRequest.chainId : SignerRequest → Option Bytes32
  | .signCheckpoint chainId _ _ | .signNetworkKeyCert chainId _ _ | .signOwnVote chainId _ _ |
    .signPeerVote chainId _ _ => some chainId
  | .getBundle | .signNetworkHandshake _ | .keySecurity => none

/-- The daemon: its guard, its limiter, and what it has answered. -/
structure Daemon where
  guard : DoubleSignGuard
  limiter : RateLimiter
  log : List (SignerRequest × SignerResponse)

/-- What happens to a daemon. Each request comes at a time, with the randomness of the signature
and the error of the file system, if there is one. -/
inductive DaemonEvent
  | request (req : SignerRequest) (now seed : ℕ) (fault : Option String)
  /-- The daemon stops after the request is handled and before it is answered. -/
  | crashInRequest (req : SignerRequest) (now seed : ℕ) (fault : Option String)
  /-- The daemon stops between two requests, or in one before the file is written. -/
  | crash

namespace Daemon

variable [Crypto] (host : SignerHost) (policy : SignerPolicy) (d : Daemon)

/-- Whether a request is let through. Those that sign nothing are not counted. -/
def limit (req : SignerRequest) (now : ℕ) : Bool × RateLimiter :=
  if req = .getBundle ∨ req = .keySecurity then (true, d.limiter) else d.limiter.allowAt now

/-- `respond_with_policy`. -/
def respondWithPolicy (req : SignerRequest) (now seed : ℕ) (fault : Option String) :
    SignerResponse × Daemon :=
  let limited := d.limit req now
  let d := { d with limiter := limited.2 }
  if limited.1 = false then
    (.refused "rate limit exceeded: too many sign requests in the window", d)
  else if policy.expectedChainId.any fun expected => req.chainId.any (· ≠ expected) then
    (.refused ("refusing to sign: request names a chain_id different from this signer's " ++
      "configured network"), d)
  else if req = .keySecurity then (.keySecurity policy.keystoreBacked, d)
  else
    let (response, guard) := host.respond d.guard seed fault req
    (response, { d with guard })

/-- The daemon on the guard file left behind. A corrupt file stops it from starting. -/
def restart : Option Daemon :=
  (DoubleSignGuard.load d.guard.file).map fun guard =>
    { d with guard, limiter := .new policy.rateLimit }

/-- One event. A daemon that does not start stays as it was left. -/
def step : DaemonEvent → Daemon
  | .request req now seed fault =>
    let (response, d') := d.respondWithPolicy host policy req now seed fault
    { d' with log := d.log ++ [(req, response)] }
  | .crashInRequest req now seed fault =>
    let d' := (d.respondWithPolicy host policy req now seed fault).2
    (d'.restart policy).getD d'
  | .crash => (d.restart policy).getD d

/-- The daemon as it starts on a guard file. -/
def start (guard : DoubleSignGuard) : Daemon := ⟨guard, .new policy.rateLimit, []⟩

end Daemon

/-! ### What is signed -/

section Granted

variable [Crypto] {host : SignerHost} {policy : SignerPolicy} {guard guard' : DoubleSignGuard}
  {d : Daemon} {req : SignerRequest} {response : SignerResponse} {signature : MultiSignature}
  {now seed : ℕ} {fault : Option String}

/-- What the daemon has made sure of where it has signed. -/
def SignerHost.Granted (host : SignerHost) (guard : DoubleSignGuard) : SignerRequest → Prop
  | .getBundle | .keySecurity => False
  | .signOwnVote _ round digest => guard.Covers round digest
  | .signPeerVote _ vertexBytes digest => ∃ vertex, decodeVertex.all vertexBytes = some vertex ∧
      vertex.digest = digest ∧ vertex.author ≠ host.bundle.toAddress
  | .signNetworkHandshake transcript => p2pAuthV1 <+: transcript
  | .signCheckpoint _ _ _ | .signNetworkKeyCert _ _ _ => True

/-- What one answer does to the guard, and what it says. -/
structure SignerHost.Answers (host : SignerHost) (guard guard' : DoubleSignGuard)
    (req : SignerRequest) (response : SignerResponse) : Prop where
  covers : ∀ round digest, guard.Covers round digest → guard'.Covers round digest
  granted : ∀ signature, response = .signature signature → host.Granted guard' req
  /-- A vote is signed only if it repeats those of its round. -/
  digest_eq : ∀ signature chainId round digest digest', response = .signature signature →
    req = .signOwnVote chainId round digest → guard.Covers round digest' → digest' = digest

namespace SignerHost

theorem answers_refused (guard : DoubleSignGuard) (req : SignerRequest) (reason : String) :
    host.Answers guard guard req (.refused reason) :=
  ⟨fun _ _ h => h, nofun, nofun⟩

theorem answers_of_granted (hgranted : host.Granted guard req)
    (hreq : ∀ chainId round digest, req ≠ .signOwnVote chainId round digest) :
    host.Answers guard guard req response :=
  ⟨fun _ _ h => h, fun _ _ => hgranted,
    fun _ chainId round digest _ _ h _ => absurd h (hreq chainId round digest)⟩

theorem answers_respond (guard : DoubleSignGuard) (seed : ℕ) (fault : Option String)
    (req : SignerRequest) : host.Answers guard (host.respond guard seed fault req).2 req
      (host.respond guard seed fault req).1 := by
  cases req with
  | getBundle => exact ⟨fun _ _ h => h, nofun, nofun⟩
  | keySecurity => exact answers_refused guard _ _
  | signOwnVote chainId round digest =>
    dsimp only [respond]
    split
    · next guard' hcheck =>
      obtain ⟨hself, hkept⟩ := DoubleSignGuard.covers_of_own hcheck
      refine ⟨hkept, fun _ _ => hself, ?_⟩
      intro _ _ _ _ digest' _ hreq hcovers
      cases hreq
      exact hcovers.digest_eq hcheck
    · exact answers_refused guard _ _
  | signPeerVote chainId vertexBytes digest =>
    dsimp only [respond]
    split
    · exact answers_refused guard _ _
    · next vertex hvertex =>
      split_ifs with hdigest hauthor
      · exact answers_refused guard _ _
      · exact answers_refused guard _ _
      · exact answers_of_granted ⟨vertex, hvertex, not_not.1 hdigest, hauthor⟩ nofun
  | signNetworkHandshake transcript =>
    dsimp only [respond]
    split_ifs with htag
    · exact answers_refused guard _ _
    · rw [Bool.not_eq_false] at htag
      have htagged := isPrefixOf_iff_prefix.1 htag
      exact answers_of_granted htagged nofun
  | signCheckpoint chainId round merkleRoot =>
    dsimp only [respond]
    split
    · next guard' hcheck =>
      exact ⟨fun _ _ hcovers => hcovers.checkpoint hcheck, fun _ _ => trivial, nofun⟩
    · exact answers_refused guard _ _
  | signNetworkKeyCert => exact answers_of_granted trivial nofun

end SignerHost

namespace Daemon

variable (d : Daemon) (req : SignerRequest)

theorem answers_respondWithPolicy (now seed : ℕ) (fault : Option String) :
    host.Answers d.guard (d.respondWithPolicy host policy req now seed fault).2.guard req
      (d.respondWithPolicy host policy req now seed fault).1 := by
  unfold respondWithPolicy
  dsimp only
  split_ifs
  · exact SignerHost.answers_refused _ _ _
  · exact SignerHost.answers_refused _ _ _
  · exact ⟨fun _ _ h => h, nofun, nofun⟩
  · exact SignerHost.answers_respond _ _ _ _

theorem log_respondWithPolicy (now seed : ℕ) (fault : Option String) :
    (d.respondWithPolicy host policy req now seed fault).2.log = d.log := by
  unfold respondWithPolicy
  dsimp only
  split_ifs <;> rfl

omit [Crypto] in
/-- A daemon starts again with the guard it had. -/
theorem restart_eq :
    d.restart policy = some { d with limiter := .new policy.rateLimit } := by
  rw [restart, DoubleSignGuard.load_file, Option.map_some]

theorem step_crashInRequest (now seed : ℕ) (fault : Option String) :
    d.step host policy (.crashInRequest req now seed fault) =
      { (d.respondWithPolicy host policy req now seed fault).2 with
        limiter := .new policy.rateLimit } := by
  show (restart policy _).getD _ = _
  rw [restart_eq, Option.getD_some]

theorem step_crash :
    d.step host policy .crash = { d with limiter := .new policy.rateLimit } := by
  show (restart policy d).getD d = _
  rw [restart_eq, Option.getD_some]

/-- Every signature of the log was granted, and own votes for one round are for one digest. -/
structure Sound (host : SignerHost) (d : Daemon) : Prop where
  granted : ∀ req signature, (req, .signature signature) ∈ d.log → host.Granted d.guard req
  digest_eq : ∀ chainId chainId' round digest digest' signature signature',
    (.signOwnVote chainId round digest, .signature signature) ∈ d.log →
    (.signOwnVote chainId' round digest', .signature signature') ∈ d.log → digest = digest'

end Daemon

theorem SignerHost.Granted.mono (h : host.Granted guard req)
    (hcovers : ∀ round digest, guard.Covers round digest → guard'.Covers round digest) :
    host.Granted guard' req := by
  cases req with
  | signOwnVote chainId round digest => exact hcovers round digest h
  | getBundle | keySecurity | signPeerVote | signNetworkHandshake | signCheckpoint |
    signNetworkKeyCert => exact h

namespace Daemon

theorem sound_start (guard : DoubleSignGuard) : (start policy guard).Sound host :=
  ⟨fun _ _ h => absurd h not_mem_nil, fun _ _ _ _ _ _ _ h => absurd h not_mem_nil⟩

/-- An answer that is not returned. -/
theorem Sound.of_covers (h : d.Sound host) {d' : Daemon} (hlog : d'.log = d.log)
    (hcovers : ∀ round digest, d.guard.Covers round digest → d'.guard.Covers round digest) :
    d'.Sound host := by
  constructor
  · rw [hlog]
    intro req signature hmem
    exact (h.granted req signature hmem).mono hcovers
  · rw [hlog]
    exact h.digest_eq

/-- An answer that is returned. -/
theorem Sound.answer (h : d.Sound host) {d' : Daemon} (hlog : d'.log = d.log ++ [(req, response)])
    (hanswers : host.Answers d.guard d'.guard req response) : d'.Sound host := by
  -- the last entry against an earlier one: the earlier one is covered by the guard before
  have hlast {chainId chainId' : Bytes32} {round : U64} {digest digest' : Digest}
      {signature signature' : MultiSignature}
      (hmem : (.signOwnVote chainId' round digest', .signature signature') ∈ d.log)
      (heq : (SignerRequest.signOwnVote chainId round digest, SignerResponse.signature signature) =
        (req, response)) : digest' = digest := by
    obtain ⟨hreq, hresponse⟩ := Prod.mk.inj heq
    exact hanswers.digest_eq signature chainId round digest digest' hresponse.symm hreq.symm
      (h.granted _ _ hmem)
  constructor
  · intro req' signature hmem
    rw [hlog, mem_append, mem_singleton] at hmem
    rcases hmem with hmem | heq
    · exact (h.granted req' signature hmem).mono hanswers.covers
    · obtain ⟨rfl, hresponse⟩ := Prod.mk.inj heq
      exact hanswers.granted signature hresponse.symm
  · intro chainId chainId' round digest digest' signature signature' hmem hmem'
    rw [hlog, mem_append, mem_singleton] at hmem hmem'
    rcases hmem with hmem | heq <;> rcases hmem' with hmem' | heq'
    · exact h.digest_eq _ _ _ _ _ _ _ hmem hmem'
    · exact hlast hmem heq'
    · exact (hlast hmem' heq).symm
    · have hsame := heq.trans heq'.symm
      cases hsame
      rfl

theorem Sound.step (h : d.Sound host) (e : DaemonEvent) : (d.step host policy e).Sound host := by
  cases e with
  | request req now seed fault =>
    refine h.answer ?_ (answers_respondWithPolicy d req now seed fault)
    rfl
  | crashInRequest req now seed fault =>
    rw [step_crashInRequest]
    exact h.of_covers (log_respondWithPolicy d req now seed fault)
      (answers_respondWithPolicy d req now seed fault).covers
  | crash =>
    rw [step_crash]
    exact h.of_covers rfl fun _ _ hcovers => hcovers

theorem sound_run (guard : DoubleSignGuard) (events : List DaemonEvent) :
    (Run.run (step host policy) (start policy guard) events).Sound host :=
  Run.induction (sound_start guard) fun _ e _ h => h.step e

/-! ### No equivocation -/

/-- The log has a valid vote for a vertex on a chain. -/
def Votes (host : SignerHost) (d : Daemon) (chainId : Bytes32) (v : Vertex) : Prop :=
  ∃ req signature, (req, .signature signature) ∈ d.log ∧
    verifyVertexVote host.bundle chainId v.digest signature = true

/-- The log has valid votes for two different vertices of one round by the daemon's own key. -/
def Equivocates (host : SignerHost) (d : Daemon) (vertices : Set Vertex) : Prop :=
  ∃ chainId, ∃ v ∈ vertices, ∃ v' ∈ vertices, v ≠ v' ∧ v.round = v'.round ∧
    v.author = host.bundle.toAddress ∧ v'.author = host.bundle.toAddress ∧
    d.Votes host chainId v ∧ d.Votes host chainId v'

end Daemon

/-- A vote on an own vertex of a set is asked for under the round of the vertex. -/
def DaemonEvent.Names (host : SignerHost) (vertices : Set Vertex) : DaemonEvent → Prop
  | .request (.signOwnVote _ round digest) _ _ _ => ∀ v ∈ vertices,
      v.author = host.bundle.toAddress → v.digest = digest → v.round = round
  | _ => True

/-- The vertices that peer votes were asked for with. -/
def Daemon.peerVertices (d : Daemon) : Set Vertex :=
  {v | ∃ chainId vertexBytes digest response,
    (.signPeerVote chainId vertexBytes digest, response) ∈ d.log ∧
      decodeVertex.all vertexBytes = some v}

omit [Crypto] in
/-- Tags that differ in their first bytes have no message in common. -/
theorem append_ne_of_take {n : ℕ} {tag tag' : List UInt8} (h : tag.take n ≠ tag'.take n)
    (hn : n ≤ tag.length) (hn' : n ≤ tag'.length) (msg msg' : List UInt8) :
    tag ++ msg ≠ tag' ++ msg' := by
  intro heq
  have htake := congrArg (List.take n) heq
  rw [take_append_of_le_length hn, take_append_of_le_length hn'] at htake
  exact h htake

/-- Only votes ask for the message of a vote. -/
theorem SignerHost.Granted.vote (h : host.Granted guard req) {chainId : Bytes32} {digest : Digest}
    (hmessage : req.message = vertexVoteV1 ++ vertexVoteMessage chainId digest) :
    (∃ round, req = .signOwnVote chainId round digest) ∨
      ∃ vertexBytes, req = .signPeerVote chainId vertexBytes digest := by
  have hvote {chainId' : Bytes32} {digest' : Digest}
      (heq : vertexVoteV1 ++ vertexVoteMessage chainId' digest' =
        vertexVoteV1 ++ vertexVoteMessage chainId digest) :
      chainId' = chainId ∧ digest' = digest := by
    have hbytes := append_cancel_left heq
    obtain ⟨hchain, hdigest⟩ := append_inj hbytes
      ((Bytes32.length_toBytes _).trans (Bytes32.length_toBytes _).symm)
    exact ⟨Bytes32.toBytes_injective hchain, Bytes32.toBytes_injective hdigest⟩
  cases req with
  | getBundle | keySecurity => exact h.elim
  | signOwnVote chainId' round digest' =>
    obtain ⟨rfl, rfl⟩ := hvote hmessage
    exact .inl ⟨round, rfl⟩
  | signPeerVote chainId' vertexBytes digest' =>
    obtain ⟨rfl, rfl⟩ := hvote hmessage
    exact .inr ⟨vertexBytes, rfl⟩
  | signNetworkHandshake transcript =>
    obtain ⟨rest, rfl⟩ := h
    exact absurd hmessage (append_ne_of_take (n := 8) (by decide) (by decide) (by decide) _ _)
  | signCheckpoint | signNetworkKeyCert =>
    exact absurd hmessage (append_ne_of_take (n := 8) (by decide) (by decide) (by decide) _ _)

namespace Daemon

/-- A valid vote for an own vertex is the answer to an own vote for it, under its round. -/
theorem Votes.exists_own {events : List DaemonEvent} {vertices : Set Vertex} {chainId : Bytes32}
    {v : Vertex} (hd : d = Run.run (step host policy) (start policy guard) events)
    (hbind : ∀ req signature, (req, .signature signature) ∈ d.log → ∀ chainId, ∀ v ∈ vertices,
      verifyVertexVote host.bundle chainId v.digest signature = true →
        req.message = vertexVoteV1 ++ vertexVoteMessage chainId v.digest)
    (hdigest : Set.InjOn Vertex.digest (vertices ∪ d.peerVertices))
    (hv : v ∈ vertices) (hauthor : v.author = host.bundle.toAddress)
    (h : d.Votes host chainId v) :
    ∃ round signature, (.signOwnVote chainId round v.digest, .signature signature) ∈ d.log := by
  obtain ⟨req, signature, hmem, hverify⟩ := h
  have hsound : d.Sound host := hd ▸ sound_run guard events
  have hgranted := hsound.granted req signature hmem
  rcases hgranted.vote (hbind req signature hmem chainId v hv hverify) with
    ⟨round, rfl⟩ | ⟨vertexBytes, rfl⟩
  · exact ⟨round, signature, hmem⟩
  · obtain ⟨w, hw, heq, hother⟩ := hgranted
    have hpeer : w ∈ d.peerVertices := ⟨_, _, _, _, hmem, hw⟩
    obtain rfl := hdigest (.inl hv) (.inr hpeer) heq.symm
    exact absurd hauthor hother

/-- The requests in the log were made. -/
theorem mem_of_mem_log {events : List DaemonEvent} {d₀ : Daemon}
    (h : (req, response) ∈ (Run.run (step host policy) d₀ events).log) :
    (req, response) ∈ d₀.log ∨ ∃ now seed fault, .request req now seed fault ∈ events := by
  induction events generalizing d₀ with
  | nil => exact .inl h
  | cons e events ih =>
    rcases ih h with h | ⟨now, seed, fault, hmem⟩
    · cases e with
      | request req' now seed fault =>
        rcases mem_append.1 h with h | h
        · exact .inl h
        · obtain ⟨rfl, -⟩ := Prod.mk.inj (mem_singleton.1 h)
          exact .inr ⟨now, seed, fault, mem_cons_self⟩
      | crashInRequest req' now seed fault =>
        rw [step_crashInRequest] at h
        exact .inl (log_respondWithPolicy d₀ req' now seed fault ▸ h)
      | crash =>
        rw [step_crash] at h
        exact .inl h
    · exact .inr ⟨now, seed, fault, mem_cons_of_mem _ hmem⟩

/-- Over every run from any guard file, with requests of any kind and stops anywhere, in which
votes on own vertices are asked for under the rounds of the vertices, the signatures returned have
no valid votes on two different own vertices of one round. -/
theorem no_equivocation {events : List DaemonEvent} {vertices : Set Vertex}
    (hd : d = Run.run (step host policy) (start policy guard) events)
    (hbind : ∀ req signature, (req, .signature signature) ∈ d.log → ∀ chainId, ∀ v ∈ vertices,
      verifyVertexVote host.bundle chainId v.digest signature = true →
        req.message = vertexVoteV1 ++ vertexVoteMessage chainId v.digest)
    (hdigest : Set.InjOn Vertex.digest (vertices ∪ d.peerVertices))
    (hnames : ∀ e ∈ events, e.Names host vertices) : ¬d.Equivocates host vertices := by
  rintro ⟨chainId, v, hv, v', hv', hne, hround, hauthor, hauthor', hvote, hvote'⟩
  have hsound : d.Sound host := hd ▸ sound_run guard events
  obtain ⟨round, signature, hmem⟩ := hvote.exists_own hd hbind hdigest hv hauthor
  obtain ⟨round', signature', hmem'⟩ := hvote'.exists_own hd hbind hdigest hv' hauthor'
  have hname {v : Vertex} {round : U64} {signature : MultiSignature} (hv : v ∈ vertices)
      (hauthor : v.author = host.bundle.toAddress)
      (hmem : (.signOwnVote chainId round v.digest, .signature signature) ∈ d.log) :
      v.round = round := by
    rw [hd] at hmem
    rcases mem_of_mem_log hmem with hmem | ⟨now, seed, fault, hmem⟩
    · exact absurd hmem not_mem_nil
    · exact hnames _ hmem v hv hauthor rfl
  have hrounds : round = round' := by
    apply Word.toNat_injective
    rw [← hname hv hauthor hmem, ← hname hv' hauthor' hmem', hround]
  subst hrounds
  have hdigests := hsound.digest_eq _ _ _ _ _ _ _ hmem hmem'
  exact hne (hdigest (.inl hv) (.inl hv') hdigests)

end Daemon

end Granted

/-! ### Two votes under two rounds -/

section Sample

/-- A vertex of the first two wallets. -/
def signerVertex (round : ℕ) (author : Pubkey) (parents : List Digest) : Vertex :=
  ⟨round, author, [], parents⟩

/-- The address of the daemon's key. -/
def signerAddress : Pubkey := 0x825ccd2662f69b95b439e4d1fc26e6c199aee7936eee2893ad1c21765db289bd

/-- The address of another validator. -/
def peerAddress : Pubkey := 0x07e9e9fc337bb55467fe5ab4788e15eb7f94afe35630136067d5b404a8ad361a

/-- SHA3-256 of the keys and of four vertices. -/
def signerHashes : List (List UInt8 × Bytes32) :=
  walletHashes ++
    [((signerVertex 5 signerAddress []).preimage,
        0xe2bd836428b7f42d4f9c0a07696f9d081504235be8f5d22ec25b8835672d893f),
     ((signerVertex 5 signerAddress [0]).preimage,
        0x878c5f1316d037082a4a2db94804591dc9c8e19e507ef4d354c4db6ebc3e1e1d),
     ((signerVertex 6 signerAddress []).preimage,
        0x81615e02eaec809c9cdc0367d6093a31ed2b556274b96f57e15486dfbfadd7ba),
     ((signerVertex 5 peerAddress []).preimage,
        0x3594dc23dee2cac00bc9e2dd8fdfa47a9e1d251f7b094efb131d834a048af95e)]

/-- A signature that carries the message it is for. -/
@[reducible] def signerCrypto : Crypto where
  sha3 := (Crypto.ofHashes signerHashes).sha3
  verifyEd25519Component _ _ _ := true
  verifyMlDsa65Component _ msg sig := decide (sig = msg)
  verifySlhDsaComponent _ _ _ := true

/-- The signature of the daemon's key. -/
def signerSignature (msg : List UInt8) : MultiSignature :=
  ⟨[⟨1, List.replicate 64 0⟩, ⟨2, msg⟩]⟩

def signerHost : SignerHost where
  bundle := walletKeys 0
  sign msg _ := .ok (signerSignature msg)
  vertexError _ := ""

def signerPolicy : SignerPolicy := ⟨some 0, none, true⟩

def signerRun (events : List DaemonEvent) : Daemon :=
  Run.run (@Daemon.step signerCrypto signerHost signerPolicy) (.start signerPolicy .fresh) events

/-- A request for a vote on an own vertex, under some round. -/
def ownVote (round : U64) (v : Vertex) : SignerRequest :=
  .signOwnVote 0 round (@Vertex.digest signerCrypto v)

/-- A signature is valid for the message it carries only. -/
theorem signer_binds {chainId digest : Bytes32} {msg : List UInt8}
    (h : @verifyVertexVote signerCrypto signerHost.bundle chainId digest (signerSignature msg) =
      true) : msg = vertexVoteV1 ++ vertexVoteMessage chainId digest := by
  have hall : (signerHost.bundle.components.zip (signerSignature msg).components).all
      (fun comps => @verifyComponent signerCrypto
        (vertexVoteV1 ++ vertexVoteMessage chainId digest) comps.1 comps.2) = true := by
    unfold verifyVertexVote verifyDomain verify at h
    split at h
    · cases h
    · exact (Bool.and_eq_true_iff.1 h).2
  have hmlDsa := all_eq_true.1 hall (⟨2, []⟩, ⟨2, msg⟩)
    (mem_cons_of_mem _ mem_cons_self)
  exact of_decide_eq_true hmlDsa

/-- Own vertices of rounds 5 and 6. -/
def ownVertices : Set Vertex :=
  {signerVertex 5 signerAddress [], signerVertex 5 signerAddress [0],
    signerVertex 6 signerAddress []}

theorem injOn_signerVertices : Set.InjOn (@Vertex.digest signerCrypto)
    (ownVertices ∪ {signerVertex 5 peerAddress []}) := by
  have hall : ∀ v ∈ [signerVertex 5 signerAddress [], signerVertex 5 signerAddress [0],
        signerVertex 6 signerAddress [], signerVertex 5 peerAddress []],
      ∀ v' ∈ [signerVertex 5 signerAddress [], signerVertex 5 signerAddress [0],
        signerVertex 6 signerAddress [], signerVertex 5 peerAddress []],
      @Vertex.digest signerCrypto v = @Vertex.digest signerCrypto v' → v = v' := by
    decide +kernel
  have hmem : ∀ v ∈ ownVertices ∪ {signerVertex 5 peerAddress []},
      v ∈ [signerVertex 5 signerAddress [], signerVertex 5 signerAddress [0],
        signerVertex 6 signerAddress [], signerVertex 5 peerAddress []] := by
    rintro v ((rfl | rfl | rfl) | rfl) <;> simp
  intro v hv v' hv' heq
  exact hall v (hmem v hv) v' (hmem v' hv') heq

/-- What an answer to a request looks like where everything is signed. -/
def signedAnswer (req : SignerRequest) : SignerRequest × SignerResponse :=
  (req, .signature (signerSignature req.message))

/-- Where every signature is one of these, signatures bind. -/
theorem binds_of_signedAnswer {d : Daemon} {vertices : Set Vertex}
    (h : ∀ entry ∈ d.log, entry = signedAnswer entry.1 ∨ ∃ reason, entry.2 = .refused reason) :
    ∀ req signature, (req, .signature signature) ∈ d.log → ∀ chainId, ∀ v ∈ vertices,
      @verifyVertexVote signerCrypto signerHost.bundle chainId (@Vertex.digest signerCrypto v)
        signature = true →
      req.message = vertexVoteV1 ++ vertexVoteMessage chainId (@Vertex.digest signerCrypto v) := by
  intro req signature hmem chainId v _ hverify
  rcases h _ hmem with heq | ⟨reason, hreason⟩
  · have hsignature : signature = signerSignature req.message :=
      SignerResponse.signature.inj (Prod.mk.inj heq).2
    exact signer_binds (hsignature ▸ hverify)
  · cases hreason

/-- Two vertices of the daemon's key for round 5. -/
def forkedVertices : Set Vertex :=
  {signerVertex 5 signerAddress [], signerVertex 5 signerAddress [0]}

/-- The second one is asked for under round 6. -/
def forkedVotes : List DaemonEvent :=
  [.request (ownVote 5 (signerVertex 5 signerAddress [])) 0 0 none,
   .request (ownVote 6 (signerVertex 5 signerAddress [0])) 0 0 none]

theorem log_forkedVotes : (signerRun forkedVotes).log =
    [signedAnswer (ownVote 5 (signerVertex 5 signerAddress [])),
     signedAnswer (ownVote 6 (signerVertex 5 signerAddress [0]))] := by
  decide

/-- A daemon with a new guard signs for two vertices of round 5. -/
theorem Daemon.equivocates :
    (∀ req signature, (req, .signature signature) ∈ (signerRun forkedVotes).log →
      ∀ chainId, ∀ v ∈ forkedVertices,
        @verifyVertexVote signerCrypto signerHost.bundle chainId (@Vertex.digest signerCrypto v)
          signature = true →
        req.message = vertexVoteV1 ++ vertexVoteMessage chainId (@Vertex.digest signerCrypto v)) ∧
      Set.InjOn (@Vertex.digest signerCrypto)
        (forkedVertices ∪ (signerRun forkedVotes).peerVertices) ∧
      @Daemon.Equivocates signerCrypto signerHost (signerRun forkedVotes) forkedVertices := by
  refine ⟨binds_of_signedAnswer ?_, ?_, 0, signerVertex 5 signerAddress [], ?_,
    signerVertex 5 signerAddress [0], ?_, ?_, ?_, ?_, ?_, ?_, ?_⟩
  · rw [log_forkedVotes]
    simp [signedAnswer]
  · apply injOn_signerVertices.mono
    rintro v ((rfl | rfl) | ⟨_, _, _, _, hmem, -⟩)
    · simp [ownVertices]
    · simp [ownVertices]
    · rw [log_forkedVotes] at hmem
      simp [signedAnswer, ownVote] at hmem
  · simp [forkedVertices]
  · simp [forkedVertices]
  · decide
  · rfl
  · decide +kernel
  · decide +kernel
  · exact ⟨_, _, log_forkedVotes ▸ mem_cons_self, by decide +kernel⟩
  · exact ⟨_, _, log_forkedVotes ▸ mem_cons_of_mem _ mem_cons_self, by decide +kernel⟩

/-- A request for a vote on the other validator's vertex. -/
def peerVote : SignerRequest :=
  .signPeerVote 0 ((Borsh.toVec ((5 : U64), peerAddress, ([] : List (UInt8 × Digest)),
    ([] : List Digest))).getD []) (@Vertex.digest signerCrypto (signerVertex 5 peerAddress []))

/-- Votes under the rounds of their vertices, with stops between them. -/
def namedVotes : List DaemonEvent :=
  [.request (ownVote 5 (signerVertex 5 signerAddress [])) 0 0 none, .crash,
   .request peerVote 0 0 none,
   .crashInRequest (ownVote 6 (signerVertex 6 signerAddress [])) 0 0 none,
   .request (ownVote 6 (signerVertex 6 signerAddress [])) 0 0 none,
   .request (ownVote 5 (signerVertex 5 signerAddress [0])) 0 0 none]

theorem log_namedVotes : (signerRun namedVotes).log =
    [signedAnswer (ownVote 5 (signerVertex 5 signerAddress [])), signedAnswer peerVote,
     signedAnswer (ownVote 6 (signerVertex 6 signerAddress [])),
     (ownVote 5 (signerVertex 5 signerAddress [0]), .refused
       "refusing to sign own vertex for round 5: already signed a higher round 6")] := by
  decide +kernel

theorem names_ownVote {v : Vertex} {round : U64} (hv : v ∈ ownVertices) (hround : v.round = round)
    (now seed : ℕ) (fault : Option String) : @DaemonEvent.Names signerCrypto signerHost ownVertices
      (.request (ownVote round v) now seed fault) := by
  intro v' hv' _ hdigest
  obtain rfl := injOn_signerVertices (.inl hv') (.inl hv) hdigest
  exact hround

/-- A daemon that was asked for votes under the rounds of their vertices. -/
theorem Daemon.no_equivocation_namedVotes :
    ¬@Daemon.Equivocates signerCrypto signerHost (signerRun namedVotes) ownVertices := by
  apply @Daemon.no_equivocation signerCrypto signerHost signerPolicy .fresh
    (signerRun namedVotes) namedVotes ownVertices rfl
  · apply binds_of_signedAnswer
    rw [log_namedVotes]
    simp [signedAnswer]
  · apply injOn_signerVertices.mono
    apply Set.union_subset_union_right
    rintro v ⟨chainId, vertexBytes, digest, response, hmem, hdecode⟩
    rw [log_namedVotes] at hmem
    have hbytes : (SignerRequest.signPeerVote chainId vertexBytes digest, response) =
        signedAnswer peerVote := by
      simpa [signedAnswer, ownVote] using hmem
    obtain ⟨-, rfl, -⟩ := SignerRequest.signPeerVote.inj (Prod.mk.inj hbytes).1
    have hpeer : decodeVertex.all ((Borsh.toVec ((5 : U64), peerAddress,
        ([] : List (UInt8 × Digest)), ([] : List Digest))).getD []) =
        some (signerVertex 5 peerAddress []) := by decide
    exact Option.mem_unique hdecode hpeer
  · intro e he
    simp only [namedVotes, mem_cons, not_mem_nil, or_false] at he
    rcases he with rfl | rfl | rfl | rfl | rfl | rfl
    · exact names_ownVote (by simp [ownVertices]) rfl 0 0 none
    · trivial
    · trivial
    · trivial
    · exact names_ownVote (by simp [ownVertices]) rfl 0 0 none
    · exact names_ownVote (by simp [ownVertices]) rfl 0 0 none

end Sample

end QChain
