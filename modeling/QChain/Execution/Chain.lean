import QChain.Execution.Received
import QChain.System.Run

/-!
# Runs of the ledger

The ledger as a machine: transactions are applied one after the other, and in between the node
reports how validators took part. A transaction that would stop the node leaves the ledger as
it is. Beside the ledger, a run keeps the list of the executions it has committed, by which the
provenance of what an account holds can be told.
-/

namespace QChain

open Ledger Transact

/-- A ledger and the executions it has committed. -/
structure Chain where
  ledger : Ledger
  log : List Execution

/-- What happens to a ledger. -/
inductive ChainEvent
  | transaction (tx : Transaction) (feeCollector : Pubkey) (round : U64)
  | participation (quanto : U64) (entries : ParticipationTally)

/-- The ledger of the given accounts, before anything has happened. -/
def Ledger.ofAccounts (accounts : Accounts) : Ledger where
  store := accounts
  totalBurned := 0
  feeBurned := 0
  dustBurned := 0
  validatorEarned := 0
  poolEarned := 0
  totalEmitted := 0
  validatorCommissions := ∅
  participationByQuanto := ∅

namespace Chain

variable [Crypto] [WasmEngine]

/-- The chain of the given accounts, before anything has happened. -/
def ofAccounts (accounts : Accounts) : Chain := ⟨.ofAccounts accounts, []⟩

/-- What an event does to a chain. -/
def step (cfg : LedgerConfig) (c : Chain) : ChainEvent → Chain
  | .transaction tx feeCollector round =>
    match (applyTransaction cfg tx feeCollector round).run c.ledger with
    | .ok (result, ledger) => ⟨ledger, c.log ++ Ledger.committed cfg tx round c.ledger result⟩
    | .error _ => c
  | .participation quanto entries =>
    { c with ledger := setQuantoParticipation cfg quanto entries c.ledger }

/-- The chain after a list of events. -/
def run (cfg : LedgerConfig) (c : Chain) (events : List ChainEvent) : Chain :=
  Run.run (step cfg) c events

/-! ### The invariant rule -/

variable {cfg : LedgerConfig} {c : Chain} {tx : Transaction} {feeCollector : Pubkey} {round : U64}

omit [WasmEngine] in
/-- The payer of a transaction that verifies is the address of its keys. -/
theorem payer_of_verifySignature (h : tx.verifySignature = true) :
    tx.message.payer = tx.message.payerKeys.toAddress := by
  unfold Transaction.verifySignature at h
  split_ifs at h with haddress
  exact (not_not.1 haddress).symm

omit [WasmEngine] in
theorem payer_notMem_closingKeys (hsha : ∀ bytes, ¬IsProtocolId (Crypto.sha3 bytes)) :
    tx.verifySignature = true → tx.message.payer ∉ closingKeys := by
  have hkeys : ∀ k ∈ closingKeys, IsProtocolId k := by decide +kernel
  intro hverify hmem
  rw [payer_of_verifySignature hverify] at hmem
  exact hsha _ (hkeys _ hmem)

/-- A transaction that does not verify changes nothing. -/
theorem step_of_not_verifySignature (h : tx.verifySignature = false) :
    step cfg c (.transaction tx feeCollector round) = c := by
  have hrun : (applyTransaction cfg tx feeCollector round).run c.ledger =
      .ok (.error .invalidSignature, c.ledger) := by
    unfold applyTransaction Ledger.start
    rw [if_pos h]
    rfl
  rw [step, hrun]
  show (⟨c.ledger, c.log ++ []⟩ : Chain) = c
  rw [List.append_nil]

/-- A transaction is applied, or would stop the node. -/
theorem step_transaction (cfg : LedgerConfig) (c : Chain) (tx : Transaction)
    (feeCollector : Pubkey) (round : U64) :
    step cfg c (.transaction tx feeCollector round) = c ∨ ∃ result ledger,
      (applyTransaction cfg tx feeCollector round).run c.ledger = .ok (result, ledger) ∧
        step cfg c (.transaction tx feeCollector round) =
          ⟨ledger, c.log ++ Ledger.committed cfg tx round c.ledger result⟩ := by
  rw [step]
  cases happly : (applyTransaction cfg tx feeCollector round).run c.ledger with
  | error _ => exact .inl rfl
  | ok r => exact .inr ⟨r.1, r.2, rfl, rfl⟩

theorem store_step_participation {quanto : U64} {entries : ParticipationTally} :
    (step cfg c (.participation quanto entries)).ledger.store = c.ledger.store := by
  rw [step, setQuantoParticipation]
  split_ifs <;> rfl

variable {I : List Execution → Accounts → Prop} {C : Chain → ChainEvent → Prop}

omit [WasmEngine] in
/-- What the close of quantos keeps before a transaction. -/
theorem invariant_closed
    (hclose : ∀ H v k account amountIn amountOut, I H v →
      ClosingWrite v k account amountIn amountOut → I H (v.insert k account))
    (h : I c.log c.ledger.store) : I c.log (Ledger.closed cfg tx round c.ledger) := by
  obtain ⟨paidIn, takenOut, _, hcloses⟩ : ∃ paidIn takenOut, (cfg.hardCapSupply → _) ∧
      Closes c.ledger.store paidIn takenOut (Ledger.closed cfg tx round c.ledger) :=
    closed_closes
  exact hcloses.invariant (fun v k account amountIn amountOut => hclose _ _ _ _ _ _) h

/-- What the close of quantos and every step of a transaction keeps, applying the transaction
keeps. -/
theorem invariant_step (hsha : ∀ bytes, ¬IsProtocolId (Crypto.sha3 bytes))
    (hclosed : I c.log (Ledger.closed cfg tx round c.ledger))
    (hkeeps : tx.verifySignature = true →
      Keeps cfg tx.message.payer feeCollector round (storedDust c.ledger.store)
        (· ∈ Ledger.executions cfg tx round c.ledger) I)
    (h : I c.log c.ledger.store) :
    I (step cfg c (.transaction tx feeCollector round)).log
      (step cfg c (.transaction tx feeCollector round)).ledger.store := by
  by_cases hverify : tx.verifySignature = true
  · rcases step_transaction cfg c tx feeCollector round with heq | ⟨result, ledger, happly, heq⟩
    · rw [heq]
      exact h
    · rw [heq]
      obtain ⟨paidIn, takenOut, _, hsteps⟩ :=
        applyTransaction_steps (payer_notMem_closingKeys hsha) _ _ happly
      refine hsteps.invariant (hkeeps hverify) (fun e he => ?_) hclosed
      unfold Ledger.committed at he
      split_ifs at he
      · exact he
      · cases he
  · rw [step_of_not_verifySignature (Bool.eq_false_iff.2 hverify)]
    exact h

/-- What the close of quantos and every step of a transaction keeps holds after every run. Only
the steps of transactions that verify and meet a condition matter. -/
theorem invariant (hsha : ∀ bytes, ¬IsProtocolId (Crypto.sha3 bytes))
    (hclosed : ∀ c tx feeCollector round, C c (.transaction tx feeCollector round) →
      I c.log c.ledger.store → I c.log (Ledger.closed cfg tx round c.ledger))
    (hkeeps : ∀ c tx feeCollector round, tx.verifySignature = true →
      C c (.transaction tx feeCollector round) →
      Keeps cfg tx.message.payer feeCollector round (storedDust c.ledger.store)
        (· ∈ Ledger.executions cfg tx round c.ledger) I)
    {events : List ChainEvent} (hrun : Run.Meets (step cfg) C c events)
    (h : I c.log c.ledger.store) : I (run cfg c events).log (run cfg c events).ledger.store := by
  refine hrun.induction (P := fun c => I c.log c.ledger.store) h fun c event _ hC h => ?_
  cases event with
  | participation quanto entries =>
    show I c.log (step cfg c (.participation quanto entries)).ledger.store
    rw [store_step_participation]
    exact h
  | transaction tx feeCollector round =>
    exact invariant_step hsha (hclosed c tx feeCollector round hC h)
      (fun hverify => hkeeps c tx feeCollector round hverify hC) h

end Chain

/-! ### Wallets with known addresses -/

/-- The hash function given by a table, with the hash of the empty string for all other inputs,
and signatures that always verify. -/
@[reducible] def Crypto.ofHashes (table : List (List UInt8 × Bytes32)) : Crypto where
  sha3 bytes := ((table.find? fun entry => entry.1 = bytes).map (·.2)).getD
    0xa7ffc6f8bf1ed76651c14756a061d662f580ff4de43b49fa82d80a4b80f8434a
  verifyEd25519Component _ _ _ := true
  verifyMlDsa65Component _ _ _ := true
  verifySlhDsaComponent _ _ _ := true

variable {table : List (List UInt8 × Bytes32)}

theorem not_isProtocolId_ofHashes
    (h : ∀ entry ∈ table, ¬IsProtocolId entry.2) (bytes : List UInt8) :
    ¬IsProtocolId ((Crypto.ofHashes table).sha3 bytes) := by
  show ¬IsProtocolId (((table.find? fun entry => entry.1 = bytes).map (·.2)).getD _)
  cases hfind : table.find? fun entry => entry.1 = bytes with
  | none => decide +kernel
  | some entry => exact h entry (List.mem_of_find?_eq_some hfind)

theorem Crypto.sha3_ofHashes_of_ne {bytes : List UInt8}
    (h : ∀ entry ∈ table, entry.1 ≠ bytes) : (Crypto.ofHashes table).sha3 bytes =
      0xa7ffc6f8bf1ed76651c14756a061d662f580ff4de43b49fa82d80a4b80f8434a := by
  have hfind : table.find? (fun entry => entry.1 = bytes) = none :=
    List.find?_eq_none.2 fun entry hentry => by simpa using h entry hentry
  show ((table.find? fun entry => entry.1 = bytes).map (·.2)).getD _ = _
  rw [hfind]
  rfl

/-- Every other hash is in the table. -/
theorem Crypto.mem_of_sha3_ofHashes {bytes : List UInt8}
    {hash : Bytes32} (h : (Crypto.ofHashes table).sha3 bytes = hash)
    (hne : hash ≠ 0xa7ffc6f8bf1ed76651c14756a061d662f580ff4de43b49fa82d80a4b80f8434a) :
    (bytes, hash) ∈ table := by
  change ((table.find? fun entry => entry.1 = bytes).map (·.2)).getD _ = hash at h
  cases hfind : table.find? fun entry => entry.1 = bytes with
  | none =>
    rw [hfind] at h
    exact absurd h.symm hne
  | some entry =>
    have hbytes : entry.1 = bytes := by simpa using List.find?_some hfind
    rw [hfind] at h
    rw [← hbytes, ← h]
    exact List.mem_of_find?_eq_some hfind

/-- The keys of the `i`-th wallet. -/
def walletKeys (i : UInt8) : PublicKeyBundle := ⟨[⟨1, List.replicate 32 i⟩, ⟨2, []⟩]⟩

/-- SHA3-256 of the keys of the first wallets. -/
def walletHashes : List (List UInt8 × Bytes32) :=
  [(0, 0x825ccd2662f69b95b439e4d1fc26e6c199aee7936eee2893ad1c21765db289bd),
   (1, 0x07e9e9fc337bb55467fe5ab4788e15eb7f94afe35630136067d5b404a8ad361a),
   (2, 0x645979c9a4013543af55f11a53a1ebc8ad2b76eb5c76079e5c341ec40d0269fa)].map
    fun (i, address) => (componentBytes (walletKeys i).components, address)

/-- A node on which no contract can be called. -/
@[reducible] def WasmEngine.none : WasmEngine where
  validateDeploy _ _ := .none
  run _ := .error ""

end QChain
