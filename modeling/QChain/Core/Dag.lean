import QChain.Core.Sha3

/-!
# Vertices and certificates

The data of the certified DAG (`qchain-core/src/dag.rs`). A certificate is a vertex with signatures
over its digest, and is identified with that digest throughout consensus. Results that need digests
to be injective ask for it on the certificates at hand, through `DigestInjOn`.
-/

namespace QChain

/-- A validator's identity is its address. -/
abbrev ValidatorId := Pubkey

/-- A SHA3-256 digest. -/
abbrev Digest := Bytes32

/-- The lane of the worker that disseminated a batch. -/
abbrev WorkerId := UInt8

/-- One validator's proposal for a DAG round (a `u64` in the source, a number here). -/
structure Vertex where
  round : ℕ
  author : ValidatorId
  batchDigests : List (WorkerId × Digest)
  parents : List Digest
  deriving DecidableEq

/-- A vertex and the signatures gathered over its digest. -/
structure Certificate where
  vertex : Vertex
  signatures : List (ValidatorId × MultiSignature)
  deriving DecidableEq

/-- Two signed vertices of one author and round. -/
structure EquivocationEvidence where
  vertexA : Vertex
  signatureA : MultiSignature
  vertexB : Vertex
  signatureB : MultiSignature
  authorBundle : PublicKeyBundle
  deriving DecidableEq

namespace Vertex

/-- The byte string a vertex digest is the hash of; both vectors are
length-prefixed. -/
def preimage (v : Vertex) : List UInt8 :=
  toLeBytes 8 v.round ++ v.author.toBytes ++
    toLeBytes 8 v.batchDigests.length ++
    v.batchDigests.flatMap (fun (workerId, digest) => workerId :: digest.toBytes) ++
    toLeBytes 8 v.parents.length ++ v.parents.flatMap Bytes32.toBytes

/-- Round and lengths are those of the source, a `u64` each. -/
def Sized (v : Vertex) : Prop :=
  v.round < 2 ^ 64 ∧ v.batchDigests.length < 2 ^ 64 ∧ v.parents.length < 2 ^ 64

/-- Every field has a fixed length or comes after its length. -/
theorem preimage_inj {v w : Vertex} (hv : v.Sized) (hw : w.Sized) (h : v.preimage = w.preimage) :
    v = w := by
  obtain ⟨round, author, batchDigests, parents⟩ := v
  obtain ⟨round', author', batchDigests', parents'⟩ := w
  obtain ⟨hround, hbatches, hparents⟩ := hv
  obtain ⟨hround', hbatches', hparents'⟩ := hw
  simp only [preimage, List.append_assoc] at h
  obtain ⟨hr, h₁⟩ := List.append_inj h (by simp only [length_toLeBytes])
  obtain ⟨ha, h₂⟩ := List.append_inj h₁ (by simp [Bytes32.toBytes])
  obtain ⟨hb, h₃⟩ := List.append_inj h₂ (by simp only [length_toLeBytes])
  have hpair : Function.Injective fun b : WorkerId × Digest => b.1 :: b.2.toBytes := by
    intro a b hab
    obtain ⟨hworker, hdigest⟩ := List.cons.inj hab
    exact Prod.ext hworker (Bytes32.toBytes_injective hdigest)
  obtain ⟨hbs, h₄⟩ := flatMap_append_inj hpair (n := 33) (by simp [Bytes32.toBytes])
    (toLeBytes_inj hbatches hbatches' hb) h₃
  obtain ⟨hp, h₅⟩ := List.append_inj h₄ (by simp only [length_toLeBytes])
  obtain ⟨hps, -⟩ := flatMap_append_inj Bytes32.toBytes_injective (n := 32)
    (by simp [Bytes32.toBytes]) (toLeBytes_inj hparents hparents' hp) (congrArg (· ++ []) h₅)
  congr
  · exact toLeBytes_inj hround hround' hr
  · exact Bytes32.toBytes_injective ha

variable [Crypto]

/-- `Vertex::digest`. -/
def digest (v : Vertex) : Digest := Crypto.sha3 v.preimage

/-- A digest names its vertex, as far as the hash has no collisions. -/
theorem digest_injOn {G : Set Vertex} (hsized : ∀ v ∈ G, v.Sized)
    (hsha : Set.InjOn Crypto.sha3 (preimage '' G)) : Set.InjOn digest G := by
  intro v hv w hw h
  exact preimage_inj (hsized v hv) (hsized w hw)
    (hsha (Set.mem_image_of_mem _ hv) (Set.mem_image_of_mem _ hw) h)

end Vertex

/-- A digest whose bytes are all 7. -/
def sevens : Digest := 0x0707070707070707070707070707070707070707070707070707070707070707

/-- Batches of one vertex and parents of another with the same bytes, told apart by the lengths. -/
theorem Vertex.digest_injOn_boundary :
    let v : Vertex := ⟨1, 1, List.replicate 32 (7, sevens), []⟩
    let w : Vertex := ⟨1, 1, [], List.replicate 33 sevens⟩
    v.batchDigests.flatMap (fun b => b.1 :: b.2.toBytes) = w.parents.flatMap Bytes32.toBytes ∧
      Set.InjOn (@Vertex.digest sha3Crypto) {v, w} := by
  refine ⟨by decide +kernel, @Vertex.digest_injOn sha3Crypto _ ?_ ?_⟩
  · rintro v (rfl | rfl) <;> exact ⟨by decide, by decide, by decide⟩
  · rw [Set.image_pair]
    rintro _ (rfl | rfl) _ (rfl | rfl) h
    · rfl
    · exact absurd h (by decide +kernel)
    · exact absurd h (by decide +kernel)
    · rfl

/-! ### Concrete DAGs

For evaluating the model on concrete inputs, SHA3-256 is given by its values on the inputs
met there. -/

/-- SHA3-256 of the rounds 0 to 7. -/
def roundHashes : List Bytes32 :=
  [0x48dda5bbe9171a6656206ec56c595c5834b6cf38c5fe71bcb44fe43833aee9df,
   0xb875632ccf606eef2397124e6c2febf24e91a89b43c6bf762c8e9ea61a48e9a9,
   0x87ac5d1ddfa64329d8548b34c25ee5edea790e1311eb55467461114c31f1a011,
   0x8dfdf0627f9577b519a37dd574796c2110717e5ffe213df69c7cf0dab8853427,
   0x972e38a00af020690e176f5fa4ee64a11e3bd6cbc0007c10fd4bbe2c75a010bd,
   0xbaace19b2f9553434859668e07821d263eb61f5112bd4c53e54d65e029d88816,
   0x1cfc288314139110c4e3bdb6c9ca88b227b595859ab6154caef25a323b50a0c2,
   0x006f74bdfc09375e288c3aab386762ff1e4b6906224b1fdc6f5642290f8cee22]

variable (vertices : List (ℕ × ℕ × Digest))

/-- The digest of a slot, given by round and author, in a table of vertex digests. -/
def digestAt (round author : ℕ) : Digest :=
  ((vertices.find? fun e => e.1 = round ∧ e.2.1 = author).map (·.2.2)).getD 0

/-- SHA3-256 on rounds, and on the vertices of a table by the last bytes of round and
author. Signatures are all accepted. -/
@[reducible] def Crypto.ofTable : Crypto where
  sha3 msg :=
    if msg.length = 8 then roundHashes.getD (msg.headD 0).toNat 0
    else digestAt vertices (msg.headD 0).toNat (msg.getD 39 0).toNat
  verifyEd25519Component _ _ _ := true
  verifyMlDsa65Component _ _ _ := true
  verifySlhDsaComponent _ _ _ := true

/-- The certificate of a slot of a table that lists the given authors of the round before. -/
def certificateAt (round author : ℕ) (parents : List ℕ) :
    Certificate :=
  ⟨⟨round, Fin.ofNat _ author, [], parents.map (digestAt vertices (round - 1))⟩, []⟩

variable [Crypto]

/-- A certificate is named by the digest of its vertex. -/
def Certificate.digest (c : Certificate) : Digest := c.vertex.digest

/-- No two of these certificates share a digest unless they certify the same vertex. -/
def DigestInjOn (G : Set Certificate) : Prop :=
  ∀ ⦃c⦄, c ∈ G → ∀ ⦃c'⦄, c' ∈ G → c.digest = c'.digest → c.vertex = c'.vertex

theorem DigestInjOn.mono {G H : Set Certificate} (hH : DigestInjOn H) (hGH : G ⊆ H) :
    DigestInjOn G :=
  fun _ hc _ hc' h => hH (hGH hc) (hGH hc') h

end QChain
