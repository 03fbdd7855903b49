import QChain.Consensus.State
import QChain.Math.WeightedQuorum

/-!
# Certificate uniqueness

An accepted certificate carries valid signatures of distinct members holding a quorum of the stake,
whatever else its signature list contains. Two accepted certificates for one round and author
therefore share an honest signer. The arithmetic is that of the source, where the recorded total is
the true sum if the stakes fit a `u64`.
-/

namespace QChain

open List ValidatorSet

section Uniqueness

variable [Crypto]

/-! ### What an accepted certificate proves -/

/-- The member's key verifies one of the listed signatures over the digest. -/
def SignedBy (validators : ValidatorSet) (chainId digest : Bytes32)
    (signatures : List (ValidatorId × MultiSignature)) (id : ValidatorId) : Prop :=
  ∃ info sig, validators.get id = some info ∧ (id, sig) ∈ signatures ∧
    verifyVertexVote info.pubkeyBundle chainId digest sig = true

theorem SignedBy.mono {validators : ValidatorSet} {chainId digest : Bytes32}
    {sigs sigs' : List (ValidatorId × MultiSignature)} {id : ValidatorId}
    (h : SignedBy validators chainId digest sigs id) (hsub : sigs ⊆ sigs') :
    SignedBy validators chainId digest sigs' id := by
  obtain ⟨info, sig, hget, hmem, hok⟩ := h
  exact ⟨info, sig, hget, hsub hmem, hok⟩

theorem SignedBy.mem_members {validators : ValidatorSet} {chainId digest : Bytes32}
    {sigs : List (ValidatorId × MultiSignature)} {id : ValidatorId}
    (h : SignedBy validators chainId digest sigs id) : id ∈ validators.members := by
  obtain ⟨info, -, hget, -⟩ := h
  exact validators.mem_members.2 ⟨info, hget⟩

/-- The loop of `verify_certificate` counts at most the stake of a set of distinct
valid signers, all of them among the ids met so far. -/
theorem countSignature_foldl (validators : ValidatorSet) (chainId digest : Bytes32)
    (sigs : List (ValidatorId × MultiSignature)) :
    ∃ S : Finset ValidatorId,
      S ⊆ (sigs.foldl (countSignature validators chainId digest) (∅, 0)).1 ∧
      (∀ id ∈ S, SignedBy validators chainId digest sigs id) ∧
      (sigs.foldl (countSignature validators chainId digest) (∅, 0)).2 ≤ validators.stake S := by
  induction sigs using List.reverseRecOn with
  | nil => exact ⟨∅, by simp, by simp, by simp⟩
  | append_singleton sigs entry ih =>
    obtain ⟨S, hS, hsigned, hle⟩ := ih
    have hsigned' : ∀ id ∈ S, SignedBy validators chainId digest (sigs ++ [entry]) id :=
      fun id hid => (hsigned id hid).mono (subset_append_left _ _)
    rw [foldl_append, foldl_cons, foldl_nil]
    generalize sigs.foldl (countSignature validators chainId digest) (∅, 0) = acc at hS hle ⊢
    unfold countSignature
    by_cases hmem : entry.1 ∈ acc.1
    · rw [if_pos hmem]
      exact ⟨S, hS, hsigned', hle⟩
    · rw [if_neg hmem]
      have hnew : entry.1 ∉ S := fun h => hmem (hS h)
      have hS' : S ⊆ insert entry.1 acc.1 := hS.trans (Finset.subset_insert _ _)
      cases hget : validators.get entry.1 with
      | none => exact ⟨S, hS', hsigned', hle⟩
      | some info =>
        by_cases hok : verifyVertexVote info.pubkeyBundle chainId digest entry.2 = true
        · -- a new valid signer joins the set with its own stake
          simp only [hok, if_true]
          refine ⟨insert entry.1 S, Finset.insert_subset_insert _ hS, ?_, ?_⟩
          · intro id hid
            rcases Finset.mem_insert.1 hid with rfl | hid
            · exact ⟨info, entry.2, hget, by simp, hok⟩
            · exact hsigned' id hid
          · rw [ValidatorSet.stake, Finset.sum_insert hnew, validators.stakeOf_of_get hget]
            have := satAdd_le acc.2 info.stake
            simp only [ValidatorSet.stake] at hle
            omega
        · simp only [hok]
          exact ⟨S, hS', hsigned', hle⟩

/-- An accepted certificate has distinct valid signers with quorum stake. -/
theorem exists_signers {cert : Certificate} {validators : ValidatorSet} {chainId : Bytes32}
    (h : verifyCertificate cert validators chainId = true) :
    ∃ S : Finset ValidatorId, S ⊆ validators.members ∧
      (∀ id ∈ S, SignedBy validators chainId cert.digest cert.signatures id) ∧
      validators.quorumThreshold ≤ validators.stake S := by
  obtain ⟨S, -, hsigned, hle⟩ :=
    countSignature_foldl validators chainId cert.digest cert.signatures
  refine ⟨S, fun id hid => (hsigned id hid).mem_members, hsigned, ?_⟩
  exact (of_decide_eq_true h).trans hle

/-! ### Uniqueness -/

/-- The signatures that verify under these validators' keys were made by them, and
each of them signs one vertex digest per round and author. -/
structure HonestSigners (validators : ValidatorSet) (chainId : Bytes32)
    (honest : Finset ValidatorId) (signed : ValidatorId → Digest → Prop) : Prop where
  unforgeable : ∀ id ∈ honest, ∀ info, validators.get id = some info → ∀ digest sig,
    verifyVertexVote info.pubkeyBundle chainId digest sig = true → signed id digest
  one_digest : ∀ id ∈ honest, ∀ v v' : Vertex, v.round = v'.round → v.author = v'.author →
    signed id v.digest → signed id v'.digest → v.digest = v'.digest

omit [Crypto] in
/-- A quorum weighs more than two thirds of the members. -/
theorem two_thirds_lt_of_quorum {s : ValidatorSet} (hfit : s.stake s.members ≤ u64Max)
    {S : Finset ValidatorId} (h : s.quorumThreshold ≤ s.stake S) :
    2 * s.stake s.members < 3 * s.stake S := by
  rw [quorumThreshold, s.totalStake_eq_stake_members hfit] at h
  omega

/-- Certificates accepted for one round and author certify the same vertex: with
unforgeable signatures, more than two thirds of the stake honest, and digests that tell
the two vertices apart. -/
theorem verifyCertificate_unique (entries : List ValidatorInfo) (chainId : Bytes32)
    (honest : Finset ValidatorId) (signed : ValidatorId → Digest → Prop) (c c' : Certificate)
    (hfit : (ValidatorSet.new entries).stake (ValidatorSet.new entries).members ≤ u64Max)
    (hhonest : HonestSigners (ValidatorSet.new entries) chainId honest signed)
    (hstake : 2 * (ValidatorSet.new entries).totalStake <
      3 * (ValidatorSet.new entries).stake honest)
    (hinj : c.digest = c'.digest → c.vertex = c'.vertex)
    (hround : c.vertex.round = c'.vertex.round) (hauthor : c.vertex.author = c'.vertex.author)
    (hc : verifyCertificate c (ValidatorSet.new entries) chainId = true)
    (hc' : verifyCertificate c' (ValidatorSet.new entries) chainId = true) :
    c.vertex = c'.vertex := by
  obtain ⟨S, hSU, hS, hSq⟩ := exists_signers hc
  obtain ⟨T, hTU, hT, hTq⟩ := exists_signers hc'
  rw [totalStake_eq_stake_members _ hfit,
    ← stake_inter_members _ honest] at hstake
  obtain ⟨id, hidS, hidT, hidH⟩ := WeightedQuorum.exists_mem_inter hSU hTU
    Finset.inter_subset_right (two_thirds_lt_of_quorum hfit hSq)
    (two_thirds_lt_of_quorum hfit hTq) hstake
  have hid : id ∈ honest := (Finset.mem_inter.1 hidH).1
  -- the common signer signed both digests, so they are one
  obtain ⟨info, sig, hget, -, hok⟩ := hS id hidS
  obtain ⟨info', sig', hget', -, hok'⟩ := hT id hidT
  have h₁ := hhonest.unforgeable id hid info hget _ sig hok
  have h₂ := hhonest.unforgeable id hid info' hget' _ sig' hok'
  exact hinj (hhonest.one_digest id hid _ _ hround hauthor h₁ h₂)

end Uniqueness

/-! ### An accepted pair -/

section Sample

/-- The digest of the vertex of round 7 by validator 2 without batches and parents. -/
def sampleDigest : Digest :=
  0x1403f868fcfa5bf738afaa2d0cac399c6172285af6edd7831b76115bb5e84285

/-- The one message the sample signatures are valid for. -/
def sampleMessage : List UInt8 := vertexVoteV1 ++ vertexVoteMessage 0 sampleDigest

/-- SHA3-256 on the sample vertex, and schemes under which the sample message is the
only signed one. -/
@[reducible] def sampleCrypto : Crypto where
  sha3 _ := sampleDigest
  verifyEd25519Component _ msg _ := msg = sampleMessage
  verifyMlDsa65Component _ msg _ := msg = sampleMessage
  verifySlhDsaComponent _ msg _ := msg = sampleMessage

/-- Four members of stake 1, the second listed twice. -/
def sampleEntries : List ValidatorInfo :=
  [1, 2, 3, 4, 2].map fun id => ⟨id, hybridBundle, 1⟩

/-- A certificate of the sample vertex with the given signature list. -/
def sampleCertificate (signatures : List (ValidatorId × MultiSignature)) : Certificate :=
  ⟨⟨7, 2, [], []⟩, signatures⟩

theorem eq_sampleMessage_of_verifyComponent {msg : List UInt8} {pkComp sigComp : KeyComponent}
    (h : @verifyComponent sampleCrypto msg pkComp sigComp = true) : msg = sampleMessage := by
  unfold verifyComponent at h
  split_ifs at h with hscheme hed hml hslh
  · rw [Bool.and_eq_true] at h
    exact of_decide_eq_true h.2
  · exact of_decide_eq_true h
  · exact of_decide_eq_true h

/-- In the sample nobody signed anything but the sample digest. -/
theorem sample_honestSigners (honest : Finset ValidatorId) :
    @HonestSigners sampleCrypto (.new sampleEntries) 0 honest fun _ d => d = sampleDigest := by
  let := sampleCrypto
  refine ⟨fun id _ info _ digest sig hok => ?_, fun id _ v v' _ _ hv hv' => hv.trans hv'.symm⟩
  obtain ⟨pkComp, sigComp, hcomp⟩ := exists_verifyComponent hok
  have hmsg := eq_sampleMessage_of_verifyComponent hcomp
  have hbytes : digest.toBytes = sampleDigest.toBytes :=
    append_cancel_left (append_cancel_left hmsg)
  exact Bytes32.toBytes_injective hbytes

/-- Two accepted certificates of one slot: one lists a signer twice and an outsider, the
other a malformed signature. They certify the same vertex. -/
theorem verifyCertificate_unique_sample :
    let c := sampleCertificate [(1, hybridSignature), (1, hybridSignature),
      (9, hybridSignature), (2, hybridSignature), (3, hybridSignature)]
    let c' := sampleCertificate [(1, ⟨[]⟩), (2, hybridSignature), (3, hybridSignature),
      (4, hybridSignature)]
    @verifyCertificate sampleCrypto c (.new sampleEntries) 0 = true ∧
      @verifyCertificate sampleCrypto c' (.new sampleEntries) 0 = true ∧ c.vertex = c'.vertex := by
  let := sampleCrypto
  intro c c'
  have hc : verifyCertificate c (.new sampleEntries) 0 = true := by decide +kernel
  have hc' : verifyCertificate c' (.new sampleEntries) 0 = true := by decide +kernel
  exact ⟨hc, hc', verifyCertificate_unique sampleEntries 0 {1, 2, 3} _ c c' (by decide +kernel)
    (sample_honestSigners _) (by decide +kernel) (fun _ => rfl) rfl rfl hc hc'⟩

end Sample

end QChain
