import QChain.Consensus.Schedule

/-!
# The certificate store

`DagStore` of `qchain-consensus/src/dag_store.rs`: certificates by digest, an index by round and
author, and the highest round inserted. A second certificate of an author in a round takes over the
index entry. Where the certificates ever inserted have one per round and author and their digests
tell vertices apart, index and digest map describe the same set (`Indexed`).
-/

namespace QChain

open AList List

/-- Certified vertices by digest, with an index by round and author. -/
structure DagStore where
  byDigest : Map Digest Certificate
  byRound : Map ℕ (Map ValidatorId Digest)
  highestRound : ℕ

namespace DagStore

/-- The empty store. -/
def new : DagStore := ⟨∅, ∅, 0⟩

variable (dag : DagStore) (round : ℕ)

/-- The index of one round, empty if the round has none. -/
def roundIndex : Map ValidatorId Digest :=
  (dag.byRound.lookup round).getD ∅

/-- The certificate with this digest. -/
def get (digest : Digest) : Option Certificate := dag.byDigest.lookup digest

/-- Whether a certificate with this digest is held. -/
def contains (digest : Digest) : Bool := decide (digest ∈ dag.byDigest)

/-- The certificate an author has in a round. -/
def certificateByAuthor (author : ValidatorId) :
    Option Certificate :=
  ((dag.byRound.lookup round).bind fun m => m.lookup author).bind dag.get

/-- The indexed certificates of a round. -/
def certificatesInRound : List Certificate :=
  (dag.roundIndex round).values.filterMap dag.get

/-- The lowest indexed round, `0` for an empty store. -/
def lowestRound : ℕ := dag.byRound.keys.min?.getD 0

/-- Removing one pruned digest: it is reported only if it was held. -/
def removeDigest (acc : Map Digest Certificate × List Digest) (digest : Digest) :
    Map Digest Certificate × List Digest :=
  if digest ∈ acc.1 then (acc.1.erase digest, acc.2 ++ [digest]) else acc

/-- The digests indexed in rounds below `round`. -/
def digestsBelow : List Digest :=
  (dag.byRound.keys.filter (· < round)).flatMap fun r => (dag.roundIndex r).values

/-- Drop every indexed certificate strictly below `round`, and return what was
dropped. `highestRound` stays. -/
def pruneBelow : DagStore × List Digest :=
  let (byDigest, removed) := (dag.digestsBelow round).foldl removeDigest (dag.byDigest, [])
  ({ dag with
      byDigest := byDigest
      byRound := dag.byRound.retain fun r _ => decide (round ≤ r) }, removed)

variable [Crypto]

/-- Insert an already verified certificate. -/
def insert (dag : DagStore) (cert : Certificate) : DagStore :=
  let byDigest := dag.byDigest.insert cert.digest cert
  { byDigest := byDigest
    byRound := dag.byRound.insert cert.vertex.round
      ((dag.roundIndex cert.vertex.round).insert cert.vertex.author cert.digest)
    highestRound :=
      if dag.highestRound < cert.vertex.round ∨ byDigest.entries.length = 1 then
        cert.vertex.round
      else dag.highestRound }

/-! ### Reading after a write -/

section Reading

variable (dag : DagStore) (cert : Certificate)

omit [Crypto] in
theorem contains_iff {d : Digest} : dag.contains d = true ↔ ∃ c, dag.get d = some c := by
  rw [contains, decide_eq_true_iff, Map.mem_iff_lookup]
  rfl

omit [Crypto] in
@[simp] theorem get_new (d : Digest) : DagStore.new.get d = none := rfl

theorem get_insert (d : Digest) :
    (dag.insert cert).get d = if d = cert.digest then some cert else dag.get d := by
  rw [get, insert, Map.lookup_insert_eq]
  rfl

theorem roundIndex_insert (round : ℕ) :
    (dag.insert cert).roundIndex round =
      if round = cert.vertex.round then
        (dag.roundIndex round).insert cert.vertex.author cert.digest
      else dag.roundIndex round := by
  unfold roundIndex
  simp only [insert, Map.lookup_insert_eq]
  split_ifs with h
  · subst h
    rfl
  · rfl

omit [Crypto] in
theorem certificateByAuthor_eq (round : ℕ) (author : ValidatorId) :
    dag.certificateByAuthor round author =
      ((dag.roundIndex round).lookup author).bind dag.get := by
  unfold certificateByAuthor roundIndex
  cases dag.byRound.lookup round with
  | none => simp
  | some m => rfl

omit [Crypto] in
theorem mem_certificatesInRound {round : ℕ} {c : Certificate} :
    c ∈ dag.certificatesInRound round ↔
      ∃ author digest, (dag.roundIndex round).lookup author = some digest ∧
        dag.get digest = some c := by
  unfold certificatesInRound
  rw [mem_filterMap]
  constructor
  · rintro ⟨digest, hdigest, hget⟩
    obtain ⟨author, hauthor⟩ := Map.mem_values.1 hdigest
    exact ⟨author, digest, hauthor, hget⟩
  · rintro ⟨author, digest, hauthor, hget⟩
    exact ⟨digest, Map.mem_values.2 ⟨author, hauthor⟩, hget⟩

end Reading

/-! ### Pruning -/

section Pruning

omit [Crypto]

theorem lookup_foldl_removeDigest (ds : List Digest)
    (acc : Map Digest Certificate × List Digest) (d : Digest) :
    (ds.foldl removeDigest acc).1.lookup d = if d ∈ ds then none else acc.1.lookup d := by
  induction ds generalizing acc with
  | nil => simp
  | cons x xs ih =>
    have hstep : (removeDigest acc x).1.lookup d = if d = x then none else acc.1.lookup d := by
      unfold removeDigest
      by_cases hx : x ∈ acc.1
      · rw [if_pos hx, Map.lookup_erase_eq]
      · rw [if_neg hx]
        by_cases hd : d = x
        · rw [if_pos hd, hd]
          exact lookup_eq_none.2 hx
        · rw [if_neg hd]
    rw [foldl_cons, ih, hstep]
    by_cases hd : d = x <;> simp [hd]

theorem mem_foldl_removeDigest (ds : List Digest)
    (acc : Map Digest Certificate × List Digest) (d : Digest) :
    d ∈ (ds.foldl removeDigest acc).2 ↔ d ∈ acc.2 ∨ (d ∈ ds ∧ d ∈ acc.1) := by
  induction ds generalizing acc with
  | nil => simp
  | cons x xs ih =>
    rw [foldl_cons, ih]
    unfold removeDigest
    by_cases hx : x ∈ acc.1
    · rw [if_pos hx, mem_append]
      by_cases hd : d = x
      · subst hd
        simp [hx]
      · simp [hd]
    · rw [if_neg hx]
      by_cases hd : d = x
      · subst hd
        simp [hx]
      · simp [hd]

variable (dag : DagStore) (round : ℕ)

theorem get_pruneBelow (d : Digest) :
    (dag.pruneBelow round).1.get d = if d ∈ dag.digestsBelow round then none else dag.get d :=
  lookup_foldl_removeDigest _ _ d

theorem mem_removed_pruneBelow {d : Digest} :
    d ∈ (dag.pruneBelow round).2 ↔ d ∈ dag.digestsBelow round ∧ ∃ c, dag.get d = some c := by
  have h := mem_foldl_removeDigest (dag.digestsBelow round) (dag.byDigest, []) d
  rw [Map.mem_iff_lookup] at h
  refine h.trans ?_
  simp [get]

theorem roundIndex_pruneBelow (r : ℕ) :
    (dag.pruneBelow round).1.roundIndex r = if round ≤ r then dag.roundIndex r else ∅ := by
  unfold roundIndex
  have hbyRound : (dag.pruneBelow round).1.byRound =
      dag.byRound.retain fun r _ => decide (round ≤ r) := rfl
  rw [hbyRound]
  by_cases h : round ≤ r
  · rw [if_pos h, Map.lookup_retain_of_pos (by simp [h])]
  · rw [if_neg h, Map.lookup_retain_of_neg (by simp [h])]
    rfl

theorem mem_digestsBelow {d : Digest} :
    d ∈ dag.digestsBelow round ↔
      ∃ r < round, ∃ author, (dag.roundIndex r).lookup author = some d := by
  unfold digestsBelow
  simp only [mem_flatMap, mem_filter, decide_eq_true_eq, Map.mem_values]
  constructor
  · rintro ⟨r, ⟨-, hr⟩, author, hauthor⟩
    exact ⟨r, hr, author, hauthor⟩
  · rintro ⟨r, hr, author, hauthor⟩
    refine ⟨r, ⟨?_, hr⟩, author, hauthor⟩
    -- an unindexed round has an empty index
    rw [← AList.mem_keys, ← lookup_isSome]
    unfold roundIndex at hauthor
    cases hlook : dag.byRound.lookup r with
    | none => simp [hlook] at hauthor
    | some m => rfl

end Pruning

/-! ### The round index -/

/-- No other vertex is held under the vertex's digest. -/
def Fits (dag : DagStore) (vertex : Vertex) : Prop :=
  ∀ c ∈ dag.get vertex.digest, c.vertex = vertex

instance (dag : DagStore) (vertex : Vertex) : Decidable (dag.Fits vertex) :=
  inferInstanceAs (Decidable (∀ c ∈ dag.get vertex.digest, c.vertex = vertex))

/-- Every entry of the round index names a certificate held, of that round and author. -/
def RoundsIndexed (dag : DagStore) : Prop :=
  ∀ r a d, (dag.roundIndex r).lookup a = some d →
    ∃ c, dag.get d = some c ∧ c.vertex.round = r ∧ c.vertex.author = a ∧ c.digest = d

theorem roundsIndexed_new : DagStore.new.RoundsIndexed := by
  intro r a d h
  cases h

variable {dag : DagStore} {cert c : Certificate} {G : Set Certificate} {d : Digest} {round : ℕ}

/-- A certificate held stays held when another one is inserted, up to its signatures. -/
theorem exists_get_insert (hfits : dag.Fits cert.vertex) (h : dag.get d = some c) :
    ∃ c', (dag.insert cert).get d = some c' ∧ c'.vertex = c.vertex := by
  rw [get_insert]
  split_ifs with hd
  · rw [hd] at h
    exact ⟨cert, rfl, (hfits c h).symm⟩
  · exact ⟨c, h, rfl⟩

theorem RoundsIndexed.insert (h : dag.RoundsIndexed) (hfits : dag.Fits cert.vertex) :
    (dag.insert cert).RoundsIndexed := by
  intro r a d hlook
  have hold : (dag.roundIndex r).lookup a = some d →
      ∃ c, (dag.insert cert).get d = some c ∧ c.vertex.round = r ∧ c.vertex.author = a ∧
        c.digest = d := by
    intro hlook
    obtain ⟨c, hget, hc⟩ := h r a d hlook
    obtain ⟨c', hget', hvertex⟩ := exists_get_insert hfits hget
    refine ⟨c', hget', ?_⟩
    rwa [Certificate.digest, hvertex]
  rw [roundIndex_insert] at hlook
  split_ifs at hlook with hr
  · rw [Map.lookup_insert_eq] at hlook
    split_ifs at hlook with ha
    · cases hlook
      refine ⟨cert, ?_, hr.symm, ha.symm, rfl⟩
      rw [get_insert, if_pos rfl]
    · exact hold hlook
  · exact hold hlook

/-- Pruning keeps what is held of the rounds from its floor on. -/
theorem RoundsIndexed.get_pruneBelow (h : dag.RoundsIndexed) (hget : dag.get d = some c)
    (hround : round ≤ c.vertex.round) :
    (dag.pruneBelow round).1.get d = some c := by
  rw [DagStore.get_pruneBelow, if_neg, hget]
  intro hmem
  obtain ⟨r, hr, a, hlook⟩ := (mem_digestsBelow dag round).1 hmem
  obtain ⟨c', hget', hround', -⟩ := h r a d hlook
  rw [hget] at hget'
  cases hget'
  omega

theorem RoundsIndexed.pruneBelow (h : dag.RoundsIndexed) (round : ℕ) :
    (dag.pruneBelow round).1.RoundsIndexed := by
  intro r a d hlook
  rw [roundIndex_pruneBelow] at hlook
  split_ifs at hlook with hr
  · obtain ⟨c, hget, hround, hc⟩ := h r a d hlook
    exact ⟨c, h.get_pruneBelow hget (hround ▸ hr), hround, hc⟩
  · cases hlook

/-- The indexed certificates of a round are held, one of each author. -/
theorem RoundsIndexed.certificatesInRound (h : dag.RoundsIndexed) :
    (∀ c ∈ dag.certificatesInRound round, dag.get c.digest = some c ∧ c.vertex.round = round) ∧
      ((dag.certificatesInRound round).map (·.vertex.author)).Nodup := by
  constructor
  · intro c hc
    obtain ⟨d, hd, hget⟩ := mem_filterMap.1 hc
    obtain ⟨a, hlook⟩ := Map.mem_values.1 hd
    obtain ⟨c', hget', hround, -, hdigest⟩ := h round a d hlook
    obtain rfl := Option.mem_unique hget hget'
    exact ⟨hdigest ▸ hget, hround⟩
  · -- the authors are the keys of the index
    have hauthors : ∀ l : List (Σ _ : ValidatorId, Digest),
        (∀ e ∈ l, ∃ c, dag.get e.2 = some c ∧ c.vertex.author = e.1) →
        ((l.map (·.2)).filterMap dag.get).map (·.vertex.author) = l.keys := by
      intro l hl
      induction l with
      | nil => rfl
      | cons e l ih =>
        obtain ⟨⟨c, hget, hauthor⟩, hl⟩ := forall_mem_cons.1 hl
        rw [map_cons, filterMap_cons_some hget, map_cons, ih hl, hauthor]
        rfl
    rw [DagStore.certificatesInRound, Map.values, hauthors]
    · exact (dag.roundIndex round).nodupKeys
    · intro e he
      obtain ⟨c, hget, -, hauthor, -⟩ := h round e.1 e.2 (Map.lookup_eq_some_iff_mem.2 he)
      exact ⟨c, hget, hauthor⟩

/-! ### The certificates held -/

/-- Every certificate held is one of `G`, under its own digest. -/
def HeldFrom (G : Set Certificate) (dag : DagStore) : Prop :=
  ∀ ⦃d c⦄, dag.get d = some c → c ∈ G ∧ c.digest = d

theorem heldFrom_new (G : Set Certificate) : HeldFrom G DagStore.new := by
  intro d c h
  simp at h

theorem HeldFrom.insert (h : HeldFrom G dag) (hcert : cert ∈ G) : HeldFrom G (dag.insert cert) := by
  intro d c hget
  rw [get_insert] at hget
  split_ifs at hget with hd
  · cases hget
    exact ⟨hcert, hd.symm⟩
  · exact h hget

/-- What a store filled from a list holds. -/
theorem heldFrom_foldl_insert (certs : List Certificate) :
    HeldFrom {c | c ∈ certs} (certs.foldl DagStore.insert .new) := by
  induction certs using List.reverseRecOn with
  | nil => exact heldFrom_new _
  | append_singleton certs cert ih =>
    rw [foldl_append]
    apply HeldFrom.insert
    · intro d c hget
      obtain ⟨hc, hd⟩ := ih hget
      exact ⟨mem_append_left _ hc, hd⟩
    · exact mem_append_right _ (mem_singleton_self cert)

/-- Inserting certificates whose digests tell their vertices apart. -/
theorem roundsIndexed_foldl_insert {certs : List Certificate}
    (hinj : ∀ c ∈ certs, ∀ c' ∈ certs, c.digest = c'.digest → c.vertex = c'.vertex) :
    (certs.foldl DagStore.insert .new).RoundsIndexed := by
  induction certs using List.reverseRecOn with
  | nil => exact roundsIndexed_new
  | append_singleton certs cert ih =>
    rw [foldl_append]
    have hrest : (certs.foldl DagStore.insert .new).RoundsIndexed := by
      apply ih
      intro c hc c' hc'
      exact hinj c (mem_append_left _ hc) c' (mem_append_left _ hc')
    apply hrest.insert
    intro c hget
    obtain ⟨hc, hd⟩ := heldFrom_foldl_insert certs hget
    exact hinj c (mem_append_left _ hc) cert
      (mem_append_right _ (mem_singleton_self cert)) hd

/-- One certificate per round and author, and digests that tell vertices apart. -/
structure Unequivocal (G : Set Certificate) : Prop where
  slot_unique : ∀ ⦃c⦄, c ∈ G → ∀ ⦃c'⦄, c' ∈ G → c.vertex.round = c'.vertex.round →
    c.vertex.author = c'.vertex.author → c = c'
  digest_inj : DigestInjOn G

theorem Unequivocal.eq_of_digest (hG : Unequivocal G) {c' : Certificate} (hc : c ∈ G) (hc' : c' ∈ G)
    (h : c.digest = c'.digest) :
    c = c' := by
  have hv := hG.digest_inj hc hc' h
  exact hG.slot_unique hc hc' (by rw [hv]) (by rw [hv])

theorem Unequivocal.mono {H : Set Certificate} (hH : Unequivocal H) (hGH : G ⊆ H) :
    Unequivocal G where
  slot_unique _ hc _ hc' := hH.slot_unique (hGH hc) (hGH hc')
  digest_inj := hH.digest_inj.mono hGH

/-- The certificates retrievable under their own digest. -/
def certs (dag : DagStore) : Set Certificate := {c | dag.get c.digest = some c}

/-- Digest map, round index and highest round agree. -/
structure Indexed (dag : DagStore) : Prop where
  digest_eq : ∀ ⦃d c⦄, dag.get d = some c → c.digest = d
  index_iff : ∀ r a d, (dag.roundIndex r).lookup a = some d ↔
    ∃ c, dag.get d = some c ∧ c.vertex.round = r ∧ c.vertex.author = a
  round_le : ∀ ⦃d c⦄, dag.get d = some c → c.vertex.round ≤ dag.highestRound

namespace Indexed

variable {dag : DagStore}

theorem mem_certs (h : dag.Indexed) (hget : dag.get d = some c) : c ∈ dag.certs := by
  have hd := h.digest_eq hget
  show dag.get c.digest = some c
  rwa [hd]

theorem certificateByAuthor_eq_some_iff (h : dag.Indexed) {r : ℕ} {a : ValidatorId} :
    dag.certificateByAuthor r a = some c ↔
      c ∈ dag.certs ∧ c.vertex.round = r ∧ c.vertex.author = a := by
  rw [certificateByAuthor_eq, Option.bind_eq_some_iff]
  constructor
  · rintro ⟨d, hd, hget⟩
    obtain ⟨c', hget', hr, ha⟩ := (h.index_iff r a d).1 hd
    rw [hget] at hget'
    cases hget'
    exact ⟨h.mem_certs hget, hr, ha⟩
  · rintro ⟨hc, hr, ha⟩
    exact ⟨c.digest, (h.index_iff r a _).2 ⟨c, hc, hr, ha⟩, hc⟩

theorem mem_certificatesInRound_iff (h : dag.Indexed) {r : ℕ} :
    c ∈ dag.certificatesInRound r ↔ c ∈ dag.certs ∧ c.vertex.round = r := by
  rw [mem_certificatesInRound]
  constructor
  · rintro ⟨a, d, hd, hget⟩
    obtain ⟨c', hget', hr, -⟩ := (h.index_iff r a d).1 hd
    rw [hget] at hget'
    cases hget'
    exact ⟨h.mem_certs hget, hr⟩
  · rintro ⟨hc, hr⟩
    exact ⟨c.vertex.author, c.digest, (h.index_iff r _ _).2 ⟨c, hc, hr, rfl⟩, hc⟩

/-- A round's certificates have distinct authors. -/
theorem nodup_authors (h : dag.Indexed) (r : ℕ) :
    ((dag.certificatesInRound r).map (·.vertex.author)).Nodup := by
  have hkeys : (dag.certificatesInRound r).map (·.vertex.author) = (dag.roundIndex r).keys := by
    unfold certificatesInRound Map.values AList.keys List.keys
    rw [filterMap_map, map_filterMap, ← filterMap_eq_map]
    refine filterMap_congr fun e he => ?_
    obtain ⟨c, hget, -, ha⟩ := (h.index_iff r e.1 e.2).1 (Map.lookup_eq_some_iff_mem.2 he)
    simp [hget, ha]
  rw [hkeys]
  exact keys_nodup _

end Indexed

/-! ### Insertion and pruning keep the index -/

theorem indexed_new : DagStore.new.Indexed where
  digest_eq _ _ h := by simp at h
  index_iff r a d := by simp [roundIndex, DagStore.new, get]
  round_le _ _ h := by simp at h

/-- A store that holds one digest after an insertion holds the inserted one only. -/
theorem get_of_length_insert_eq_one (h : (dag.byDigest.insert cert.digest cert).entries.length = 1)
    (hd : d ≠ cert.digest) :
    dag.get d = none := by
  rw [entries_insert, length_cons] at h
  have hnil : List.kerase cert.digest dag.byDigest.entries = [] :=
    eq_nil_of_length_eq_zero (by omega)
  have herase : (dag.byDigest.erase cert.digest).lookup d = none := by
    have hempty : dag.byDigest.erase cert.digest = ∅ := AList.ext hnil
    rw [hempty]
    rfl
  rwa [Map.lookup_erase_eq, if_neg hd] at herase

theorem round_le_highestRound_insert (hdag : dag.Indexed) (cert : Certificate)
    (h : (dag.insert cert).get d = some c) :
    c.vertex.round ≤ (dag.insert cert).highestRound := by
  rw [get_insert] at h
  simp only [insert]
  split_ifs at h with hd
  · cases h
    split_ifs
    · exact le_rfl
    · omega
  · split_ifs with hh
    · rcases hh with hlt | hone
      · exact (hdag.round_le h).trans hlt.le
      · rw [get_of_length_insert_eq_one hone hd] at h
        cases h
    · exact hdag.round_le h

theorem indexed_insert (hG : Unequivocal G) (hdag : dag.Indexed) (hsub : dag.certs ⊆ G)
    (hcert : cert ∈ G) :
    (dag.insert cert).Indexed where
  digest_eq d c h := by
    rw [get_insert] at h
    split_ifs at h with hd
    · cases h
      exact hd.symm
    · exact hdag.digest_eq h
  index_iff r a d := by
    rw [roundIndex_insert, get_insert]
    by_cases hslot : r = cert.vertex.round ∧ a = cert.vertex.author
    · -- the slot of the inserted certificate
      obtain ⟨rfl, rfl⟩ := hslot
      rw [if_pos rfl, Map.lookup_insert_eq, if_pos rfl]
      constructor
      · intro h
        cases h
        exact ⟨cert, by rw [if_pos rfl], rfl, rfl⟩
      · rintro ⟨c, hget, hr, ha⟩
        split_ifs at hget with hd
        · rw [hd]
        · have hc := hdag.mem_certs hget
          rw [hG.slot_unique (hsub hc) hcert hr ha] at hget
          exact absurd (hdag.digest_eq hget).symm hd
    · -- every other slot is as before
      have hlook : (if r = cert.vertex.round then
          (dag.roundIndex r).insert cert.vertex.author cert.digest
          else dag.roundIndex r).lookup a = (dag.roundIndex r).lookup a := by
        split_ifs with hr
        · exact lookup_insert_ne fun ha => hslot ⟨hr, ha⟩
        · rfl
      rw [hlook, hdag.index_iff]
      constructor
      · rintro ⟨c, hget, hr, ha⟩
        refine ⟨c, ?_, hr, ha⟩
        rw [if_neg, hget]
        intro hd
        have hc := hdag.mem_certs hget
        have heq := hG.eq_of_digest (hsub hc) hcert ((hdag.digest_eq hget).trans hd)
        exact hslot ⟨by rw [← hr, heq], by rw [← ha, heq]⟩
      · rintro ⟨c, hget, hr, ha⟩
        split_ifs at hget
        · cases hget
          exact absurd ⟨hr.symm, ha.symm⟩ hslot
        · exact ⟨c, hget, hr, ha⟩
  round_le _ _ h := round_le_highestRound_insert hdag cert h

theorem mem_certs_insert (hG : Unequivocal G) (hsub : dag.certs ⊆ G) (hcert : cert ∈ G) :
    c ∈ (dag.insert cert).certs ↔ c = cert ∨ c ∈ dag.certs := by
  show (dag.insert cert).get c.digest = some c ↔ _
  rw [get_insert]
  constructor
  · intro h
    split_ifs at h
    · exact Or.inl (Option.some.inj h).symm
    · exact Or.inr h
  · rintro (rfl | hc)
    · rw [if_pos rfl]
    · by_cases hd : c.digest = cert.digest
      · rw [if_pos hd, hG.eq_of_digest (hsub hc) hcert hd]
      · rwa [if_neg hd]

/-- A store that holds a certificate of its highest round only raises it. -/
theorem highestRound_insert (hG : Unequivocal G) (hsub : dag.certs ⊆ G) (hcert : cert ∈ G)
    (hreached : dag.highestRound = 0 ∨ ∃ c ∈ dag.certs, c.vertex.round = dag.highestRound) :
    (dag.insert cert).highestRound = max dag.highestRound cert.vertex.round := by
  simp only [insert]
  split_ifs with hraise
  · rcases hraise with hlt | hsingle
    · exact (max_eq_right hlt.le).symm
    · rcases hreached with hzero | ⟨c, hc, hround⟩
      · rw [hzero, max_eq_right (Nat.zero_le _)]
      · -- the certificate of the highest round is the inserted one
        have hget : dag.get c.digest = some c := hc
        have hdigest : c.digest = cert.digest := by
          by_contra hne
          rw [get_of_length_insert_eq_one hsingle hne] at hget
          cases hget
        rw [← hround, hG.eq_of_digest (hsub hc) hcert hdigest, max_self]
  · exact (max_eq_left (by omega)).symm

theorem mem_digestsBelow_iff (hdag : dag.Indexed) :
    d ∈ dag.digestsBelow round ↔ ∃ c, dag.get d = some c ∧ c.vertex.round < round := by
  rw [mem_digestsBelow]
  constructor
  · rintro ⟨r, hr, a, ha⟩
    obtain ⟨c, hget, rfl, -⟩ := (hdag.index_iff r a d).1 ha
    exact ⟨c, hget, hr⟩
  · rintro ⟨c, hget, hr⟩
    exact ⟨_, hr, _, (hdag.index_iff _ _ d).2 ⟨c, hget, rfl, rfl⟩⟩

theorem get_pruneBelow_eq_some_iff (hdag : dag.Indexed) :
    (dag.pruneBelow round).1.get d = some c ↔ dag.get d = some c ∧ round ≤ c.vertex.round := by
  rw [get_pruneBelow]
  by_cases hd : d ∈ dag.digestsBelow round
  · rw [if_pos hd]
    obtain ⟨c', hget, hr⟩ := (mem_digestsBelow_iff hdag).1 hd
    constructor
    · intro h
      cases h
    · rintro ⟨hc, hle⟩
      rw [hget] at hc
      cases hc
      omega
  · rw [if_neg hd]
    constructor
    · intro hget
      refine ⟨hget, ?_⟩
      by_contra hlt
      exact hd ((mem_digestsBelow_iff hdag).2 ⟨c, hget, by omega⟩)
    · exact fun h => h.1

theorem indexed_pruneBelow (hdag : dag.Indexed) (round : ℕ) : (dag.pruneBelow round).1.Indexed where
  digest_eq _ _ h := hdag.digest_eq ((get_pruneBelow_eq_some_iff hdag).1 h).1
  index_iff r a d := by
    rw [roundIndex_pruneBelow]
    by_cases hr : round ≤ r
    · rw [if_pos hr, hdag.index_iff]
      constructor
      · rintro ⟨c, hget, rfl, ha⟩
        exact ⟨c, (get_pruneBelow_eq_some_iff hdag).2 ⟨hget, hr⟩, rfl, ha⟩
      · rintro ⟨c, hget, hrc, ha⟩
        exact ⟨c, ((get_pruneBelow_eq_some_iff hdag).1 hget).1, hrc, ha⟩
    · rw [if_neg hr]
      constructor
      · intro h
        simp at h
      · rintro ⟨c, hget, rfl, -⟩
        exact absurd ((get_pruneBelow_eq_some_iff hdag).1 hget).2 hr
  round_le _ _ h := hdag.round_le ((get_pruneBelow_eq_some_iff hdag).1 h).1

theorem mem_certs_pruneBelow (hdag : dag.Indexed) :
    c ∈ (dag.pruneBelow round).1.certs ↔ c ∈ dag.certs ∧ round ≤ c.vertex.round :=
  get_pruneBelow_eq_some_iff hdag

/-! ### Stores filled from a list -/

theorem mem_certs_of_list {certs : List Certificate} (hG : Unequivocal {c | c ∈ certs}) :
    (certs.foldl DagStore.insert .new).Indexed ∧
      (certs.foldl DagStore.insert .new).certs = {c | c ∈ certs} := by
  induction certs using List.reverseRecOn with
  | nil =>
    refine ⟨indexed_new, Set.ext fun c => ?_⟩
    simp [DagStore.certs]
  | append_singleton certs cert ih =>
    have hsub : {c | c ∈ certs} ⊆ {c | c ∈ certs ++ [cert]} :=
      fun c hc => mem_append_left _ hc
    have hcert : cert ∈ {c | c ∈ certs ++ [cert]} :=
      mem_append_right _ (mem_singleton_self cert)
    obtain ⟨hindexed, hcerts⟩ := ih (hG.mono hsub)
    have hheld : (certs.foldl DagStore.insert .new).certs ⊆ {c | c ∈ certs ++ [cert]} := by
      rw [hcerts]
      exact hsub
    rw [foldl_append, foldl_cons, foldl_nil]
    refine ⟨indexed_insert hG hindexed hheld hcert, Set.ext fun c => ?_⟩
    rw [mem_certs_insert hG hheld hcert, hcerts]
    show c = cert ∨ c ∈ certs ↔ c ∈ certs ++ [cert]
    rw [mem_append, mem_singleton, or_comm]

/-- The highest round of a store is that of one of its certificates. -/
theorem highestRound_lt_of_list {certs : List Certificate} {n : ℕ} (hn : 0 < n)
    (h : ∀ c ∈ certs, c.vertex.round < n) :
    (certs.foldl DagStore.insert .new).highestRound < n := by
  induction certs using List.reverseRecOn with
  | nil => exact hn
  | append_singleton certs cert ih =>
    rw [foldl_append, foldl_cons]
    simp only [insert]
    split_ifs
    · exact h cert (mem_append_right _ (mem_singleton_self cert))
    · exact ih fun c hc => h c (mem_append_left _ hc)

/-! ### Histories of insertions and prunings -/

/-- A call that changes a store. -/
inductive Update
  | insert (cert : Certificate)
  | pruneBelow (round : ℕ)

def update (dag : DagStore) : Update → DagStore
  | .insert cert => dag.insert cert
  | .pruneBelow round => (dag.pruneBelow round).1

/-- No other digest stands at the round and the author of an inserted certificate. -/
def SlotFree (dag : DagStore) : Update → Prop
  | .insert cert => ∀ d ∈ (dag.roundIndex cert.vertex.round).lookup cert.vertex.author,
      d = cert.digest
  | .pruneBelow _ => True

instance (dag : DagStore) : DecidablePred dag.SlotFree
  | .insert cert => inferInstanceAs (Decidable (∀ d ∈
      (dag.roundIndex cert.vertex.round).lookup cert.vertex.author, d = cert.digest))
  | .pruneBelow _ => inferInstanceAs (Decidable True)

/-- Every certificate held is one of `G`, and the round index has it and nothing else. -/
structure Filed (G : Set Certificate) (dag : DagStore) : Prop where
  held : HeldFrom G dag
  rounds : dag.RoundsIndexed
  slot : ∀ ⦃d c⦄, dag.get d = some c →
    (dag.roundIndex c.vertex.round).lookup c.vertex.author = some d

section Histories

variable {G : Set Certificate} {dag : DagStore} {updates : List Update} {round : ℕ}

theorem Filed.fits (h : Filed G dag) (hinj : DigestInjOn G) (hcert : cert ∈ G) :
    dag.Fits cert.vertex := by
  intro c hget
  obtain ⟨hc, hdigest⟩ := h.held hget
  exact hinj hc hcert hdigest

theorem Filed.insert (h : Filed G dag) (hinj : DigestInjOn G) (hcert : cert ∈ G)
    (hfree : dag.SlotFree (.insert cert)) :
    Filed G (dag.insert cert) where
  held := h.held.insert hcert
  rounds := h.rounds.insert (h.fits hinj hcert)
  slot d c hget := by
    rw [get_insert] at hget
    rw [roundIndex_insert]
    split_ifs at hget with hd
    · cases hget
      rw [if_pos rfl, Map.lookup_insert_eq, if_pos rfl, hd]
    · have hslot := h.slot hget
      split_ifs with hround
      · -- an old certificate in the same slot would have the digest of the new one
        rw [Map.lookup_insert_eq, if_neg, hslot]
        intro hauthor
        rw [hround, hauthor] at hslot
        exact hd (hfree d hslot)
      · exact hslot

/-- Right after pruning nothing below the floor is held. -/
theorem Filed.round_le (h : Filed G dag) (hget : (dag.pruneBelow round).1.get d = some c) :
    dag.get d = some c ∧ round ≤ c.vertex.round := by
  rw [get_pruneBelow] at hget
  split_ifs at hget with hbelow
  refine ⟨hget, not_lt.1 fun hlt => hbelow ?_⟩
  exact (mem_digestsBelow dag round).2 ⟨_, hlt, _, h.slot hget⟩

theorem Filed.pruneBelow (h : Filed G dag) : Filed G (dag.pruneBelow round).1 where
  held _ _ hget := h.held (h.round_le hget).1
  rounds := h.rounds.pruneBelow round
  slot d c hget := by
    obtain ⟨hold, hle⟩ := h.round_le hget
    rw [roundIndex_pruneBelow, if_pos hle]
    exact h.slot hold

/-- A history whose insertions find their slots free files what it inserts, and keeps what no
pruning has reached. -/
theorem filed_run (hinj : DigestInjOn {c | .insert c ∈ updates})
    (hfree : Run.Meets update SlotFree .new updates) :
    Filed {c | .insert c ∈ updates} (Run.run update .new updates) ∧
      ∀ c, .insert c ∈ updates → (∀ f, .pruneBelow f ∈ updates → f ≤ c.vertex.round) →
        ∃ c', (Run.run update .new updates).get c.digest = some c' ∧ c'.vertex = c.vertex := by
  induction updates using List.reverseRecOn with
  | nil =>
    refine ⟨⟨heldFrom_new _, roundsIndexed_new, fun d c hget => by simp at hget⟩, ?_⟩
    exact fun c hc => absurd hc not_mem_nil
  | append_singleton updates u ih =>
    have hsub : {c | Update.insert c ∈ updates} ⊆ {c | .insert c ∈ updates ++ [u]} :=
      fun c hc => mem_append_left _ hc
    obtain ⟨hmeets, hlast, -⟩ := Run.meets_append.1 hfree
    obtain ⟨hold, hkept⟩ := ih (hinj.mono hsub) hmeets
    have hfiled : Filed {c | .insert c ∈ updates ++ [u]} (Run.run update .new updates) :=
      ⟨fun d c hget => ⟨hsub (hold.held hget).1, (hold.held hget).2⟩, hold.rounds, hold.slot⟩
    rw [Run.run_concat]
    cases u with
    | insert cert =>
      have hcert : cert ∈ {c | Update.insert c ∈ updates ++ [.insert cert]} :=
        mem_append_right _ (mem_singleton_self _)
      refine ⟨hfiled.insert hinj hcert hlast, fun c hc hfloor => ?_⟩
      rcases mem_append.1 hc with hc | hc
      · obtain ⟨c', hget, hvertex⟩ :=
          hkept c hc fun f hf => hfloor f (mem_append_left _ hf)
        obtain ⟨c'', hget', hvertex'⟩ := exists_get_insert (hfiled.fits hinj hcert) hget
        exact ⟨c'', hget', hvertex'.trans hvertex⟩
      · cases mem_singleton.1 hc
        exact ⟨cert, by rw [update, get_insert, if_pos rfl], rfl⟩
    | pruneBelow round =>
      refine ⟨hfiled.pruneBelow, fun c hc hfloor => ?_⟩
      have hc : .insert c ∈ updates := by simpa using hc
      obtain ⟨c', hget, hvertex⟩ := hkept c hc fun f hf => hfloor f (mem_append_left _ hf)
      refine ⟨c', hold.rounds.get_pruneBelow hget ?_, hvertex⟩
      rw [hvertex]
      exact hfloor round (mem_append_right _ (mem_singleton_self _))

/-- After a history whose insertions find their slots free and whose floors were no higher, pruning
below a round leaves no certificate below it, keeps every certificate inserted of a round from it
on, and returns the digests it removes. -/
theorem pruneBelow_forgets (hinj : DigestInjOn {c | .insert c ∈ updates})
    (hfree : Run.Meets update SlotFree .new updates)
    (hfloors : ∀ f, .pruneBelow f ∈ updates → f ≤ round) :
    let dag := Run.run update .new updates
    let pruned := dag.pruneBelow round
    (∀ d c, pruned.1.get d = some c → round ≤ c.vertex.round) ∧
    (∀ c, .insert c ∈ updates → round ≤ c.vertex.round →
      ∃ c', pruned.1.get c.digest = some c' ∧ c'.vertex = c.vertex) ∧
    ∀ d, d ∈ pruned.2 ↔ (∃ c, dag.get d = some c) ∧ pruned.1.get d = none := by
  obtain ⟨hfiled, hkept⟩ := filed_run hinj hfree
  refine ⟨fun d c hget => (hfiled.round_le hget).2, fun c hc hle => ?_, fun d => ?_⟩
  · obtain ⟨c', hget, hvertex⟩ := hkept c hc fun f hf => (hfloors f hf).trans hle
    exact ⟨c', hfiled.rounds.get_pruneBelow hget (hvertex ▸ hle), hvertex⟩
  · rw [mem_removed_pruneBelow, get_pruneBelow]
    split_ifs with hd
    · simp [hd]
    · refine iff_of_false (fun h => hd h.1) ?_
      rintro ⟨⟨c, hget⟩, hnone⟩
      cases hget.symm.trans hnone

end Histories

/-! ### Two certificates of one author -/

theorem digestInjOn_pair {c₁ c₂ : Certificate} (hne : c₁.digest ≠ c₂.digest) :
    DigestInjOn {c | Update.insert c ∈ [.insert c₁, .insert c₂]} := by
  intro c hc c' hc' heq
  simp only [mem_cons, Update.insert.injEq, not_mem_nil,
    or_false] at hc hc'
  rcases hc with rfl | rfl <;> rcases hc' with rfl | rfl
  · rfl
  · exact absurd heq hne
  · exact absurd heq.symm hne
  · rfl

omit [Crypto]

/-- A certificate of the first author with some batches. -/
def ofBatches (round batches : ℕ) : Certificate :=
  ⟨⟨round, 1, List.replicate batches (0, 0), []⟩, []⟩

/-- In one round: the first outlives the pruning of the round. -/
theorem pruneBelow_leaves_first :
    let first := ofBatches 0 0
    let updates : List Update := [.insert first, .insert (ofBatches 0 1)]
    @DigestInjOn sha3Crypto {c | .insert c ∈ updates} ∧ first.vertex.round < 1 ∧
      ((Run.run (@update sha3Crypto) .new updates).pruneBelow 1).1.get
        (@Certificate.digest sha3Crypto first) = some first :=
  ⟨@digestInjOn_pair sha3Crypto _ _ (by decide +kernel), by decide, by decide +kernel⟩

/-- In rounds 0 and 1: pruning below round 1 keeps the second. -/
theorem pruneBelow_forgets_rounds :
    let updates : List Update := [.insert (ofBatches 0 0), .insert (ofBatches 1 1)]
    let pruned := (Run.run (@update sha3Crypto) .new updates).pruneBelow 1
    (∀ d c, pruned.1.get d = some c → 1 ≤ c.vertex.round) ∧
      ∃ c, pruned.1.get (@Certificate.digest sha3Crypto (ofBatches 1 1)) = some c ∧
        c.vertex = (ofBatches 1 1).vertex := by
  have hfree : Run.Meets (@update sha3Crypto) (@SlotFree sha3Crypto) .new
      [.insert (ofBatches 0 0), .insert (ofBatches 1 1)] := by decide +kernel
  obtain ⟨hbelow, hkept, -⟩ := @pruneBelow_forgets sha3Crypto _ 1
    (@digestInjOn_pair sha3Crypto _ _ (by decide +kernel)) hfree fun f hf => by simp at hf
  exact ⟨hbelow, hkept (ofBatches 1 1) (by simp) le_rfl⟩

end DagStore

end QChain
