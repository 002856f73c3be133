import PoolLedger.Proofs.Wire
import PoolLedger.Transaction

/-! Executions are read back out of the transactions they were written into, in their
order and each with its position, whatever other messages stand between them. -/

namespace PoolLedger

open Wire

theorem Coin.readAt?_write {c : Coin} {above : Nat} (ha : above < maxDepth)
    (h : Short c.write) : readAt? above c.write = some c := by
  have hfields : Spells c.write (bytesFields 1 (utf8 c.denom) ++ bytesFields 2 (utf8 c.amount)) :=
    (spells_writeBytesField (by decide) h.left).append
      (spells_writeBytesField (by decide) h.right)
  rw [readAt?, hfields.readFields? ha]
  simp only [Option.bind_eq_bind, Option.bind_some]
  rw [textField?_of_under (s := c.denom) (by simp), textField?_of_under (s := c.amount) (by simp)]
  rfl

theorem Execution.read?_write {e : Execution} (h : Short e.write) : read? e.write = some e := by
  have hfields : Spells e.write (bytesFields 1 (utf8 e.sender) ++ bytesFields 2 (utf8 e.contract) ++
      bytesFields 3 e.body ++ e.funds.map fun c => ⟨5, .bytes c.write⟩) :=
    (((spells_writeBytesField (by decide) h.left.left.left).append
      (spells_writeBytesField (by decide) h.left.left.right)).append
      (spells_writeBytesField (by decide) h.left.right)).append
      (spells_flatMap_writeBytes (by decide) h.right)
  have hfunds : (e.funds.map Coin.write).mapM (Coin.readAt? 1) = some e.funds := by
    rw [Traverse.mapM_eq_some, List.map_map]
    refine List.map_congr_left fun c hc => ?_
    exact Coin.readAt?_write (by decide) (h.right.of_mem hc).of_writeBytes
  rw [read?, hfields.readFields? (by decide)]
  simp only [Option.bind_eq_bind, Option.bind_some]
  rw [byteStrings?_of_under Coin.write e.funds (by simp)]
  simp only [Option.bind_some, hfunds]
  rw [textField?_of_under (s := e.sender) (by simp), textField?_of_under (s := e.contract) (by simp),
    bytesField?_of_under (b := e.body) (by simp)]
  rfl

theorem Envelope.readAt?_write {m : Envelope} {above : Nat} (ha : above < maxDepth)
    (h : Short m.write) : readAt? above m.write = some m := by
  have hfields : Spells m.write (bytesFields 1 (utf8 m.typeName) ++ bytesFields 2 m.value) :=
    (spells_writeBytesField (by decide) h.left).append
      (spells_writeBytesField (by decide) h.right)
  rw [readAt?, hfields.readFields? ha]
  simp only [Option.bind_eq_bind, Option.bind_some]
  rw [textField?_of_under (s := m.typeName) (by simp), bytesField?_of_under (b := m.value) (by simp)]
  rfl

theorem TransactionBody.read?_write {t : TransactionBody} (h : Short t.write)
    (ht : t.timeoutHeight < 18446744073709551616) : read? t.write = some t := by
  have hfields : Spells t.write ((t.messages.map fun m => ⟨1, .bytes m.write⟩) ++
      bytesFields 2 (utf8 t.memo) ++ varintFields 3 t.timeoutHeight) :=
    ((spells_flatMap_writeBytes (by decide) h.left.left).append
      (spells_writeBytesField (by decide) h.left.right)).append
      (spells_writeVarintField (by decide) ht)
  have hmessages : (t.messages.map Envelope.write).mapM (Envelope.readAt? 1) = some t.messages := by
    rw [Traverse.mapM_eq_some, List.map_map]
    refine List.map_congr_left fun m hm => ?_
    exact Envelope.readAt?_write (by decide) (h.left.left.of_mem hm).of_writeBytes
  rw [read?, hfields.readFields? (by decide)]
  simp only [Option.bind_eq_bind, Option.bind_some]
  rw [byteStrings?_of_under Envelope.write t.messages (by simp)]
  simp only [Option.bind_some, hmessages]
  rw [textField?_of_under (s := t.memo) (by simp),
    varintField?_of_under (n := t.timeoutHeight) (by simp)]
  rfl

theorem SignedTransaction.read?_write {t : SignedTransaction} (h : Short t.write) :
    read? t.write = some t := by
  have hfields : Spells t.write (bytesFields 1 t.body ++ bytesFields 2 t.authInfo ++
      t.signatures.map fun s => ⟨3, .bytes s⟩) :=
    ((spells_writeBytesField (by decide) h.left.left).append
      (spells_writeBytesField (by decide) h.left.right)).append
      (spells_flatMap_writeBytes (f := id) (by decide) h.right)
  rw [read?, hfields.readFields? (by decide)]
  simp only [Option.bind_eq_bind, Option.bind_some]
  rw [bytesField?_of_under (b := t.body) (by simp), bytesField?_of_under (b := t.authInfo) (by simp),
    byteStrings?_of_under id t.signatures (by simp), List.map_id]
  rfl

/-- A message of a transaction: the execution of a contract, or any bytes under the name
of another type. -/
inductive SentMessage
  | execution (e : Execution)
  | other (m : Envelope) (named : m.typeName ≠ executionType)

namespace SentMessage

def envelope : SentMessage → Envelope
  | execution e => e.envelope
  | other m _ => m

def execution? : SentMessage → Option Execution
  | execution e => some e
  | other _ _ => none

def executions (messages : List SentMessage) : List (Nat × Execution) :=
  messages.zipIdx.filterMap fun (m, i) => m.execution?.map fun e => (i, e)

def transaction (messages : List SentMessage) (memo : String) (timeout : Height)
    (authInfo : Bytes) (signatures : List Bytes) : Bytes :=
  SignedTransaction.write ⟨TransactionBody.write ⟨messages.map envelope, memo, timeout.toNat⟩,
    authInfo, signatures⟩

theorem executionsFrom_envelopes {messages : List SentMessage} (h : ∀ m ∈ messages,
    ∀ e, m = .execution e → Execution.read? e.write = some e) (position : Nat) :
    executionsFrom position (messages.map envelope) =
      .ok ((messages.zipIdx position).filterMap fun (m, i) => m.execution?.map fun e => (i, e)) := by
  induction messages generalizing position with
  | nil => rfl
  | cons m messages ih =>
    have ih := ih (fun m hm => h m (List.mem_cons_of_mem _ hm)) (position + 1)
    rw [List.map_cons, List.zipIdx_cons, List.filterMap_cons]
    cases m with
    | execution e =>
      have hread := h (.execution e) List.mem_cons_self e rfl
      simp only [executionsFrom, envelope, Execution.envelope, if_pos, hread, ih]
      rfl
    | other m named =>
      rw [executionsFrom, envelope, if_neg named, ih]
      rfl

theorem executions_map_execution (es : List Execution) :
    executions (es.map .execution) = es.mapIdx Prod.mk := by
  rw [executions, List.mapIdx_eq_zipIdx_map, List.zipIdx_map, List.filterMap_map,
    ← List.filterMap_eq_map]
  rfl

theorem readExecutions_transaction {messages : List SentMessage} {memo : String}
    {timeout : Height} {authInfo : Bytes} {signatures : List Bytes}
    (h : Short (transaction messages memo timeout authInfo signatures)) :
    readExecutions (transaction messages memo timeout authInfo signatures) =
      .ok (executions messages) := by
  have hbody : Short (TransactionBody.write ⟨messages.map envelope, memo, timeout.toNat⟩) :=
    h.left.left.of_writeBytesField
  have htimeout : timeout.toNat < 18446744073709551616 := by
    have hle := timeout.le_hi
    rw [Ranged.toNat]
    omega
  have hread : ∀ m ∈ messages, ∀ e, m = .execution e → Execution.read? e.write = some e := by
    rintro _ hm e rfl
    have henvelope : Short (Envelope.write e.envelope) :=
      (hbody.left.left.of_mem (List.mem_map_of_mem (f := envelope) hm)).of_writeBytes
    exact Execution.read?_write henvelope.right.of_writeBytesField
  rw [readExecutions, transaction, SignedTransaction.read?_write h]
  simp only [TransactionBody.read?_write hbody htimeout]
  exact executionsFrom_envelopes hread 0

end SentMessage

/-- A byte string of a program has a length of 64 bits. Executions written into such a
transaction are read back, each with its position among all messages: those between other
messages, and those that stand alone. -/
theorem executions_read_back :
    (∀ messages memo timeout authInfo signatures,
      Short (SentMessage.transaction messages memo timeout authInfo signatures) →
        readExecutions (SentMessage.transaction messages memo timeout authInfo signatures) =
          .ok (SentMessage.executions messages)) ∧
    ∀ es, Short (writeExecutions es) →
      readExecutions (writeExecutions es) = .ok (es.mapIdx Prod.mk) := by
  refine ⟨fun messages memo timeout authInfo signatures h =>
    SentMessage.readExecutions_transaction h, fun es h => ?_⟩
  have hes : writeExecutions es = SentMessage.transaction (es.map .execution) "" 0 [] [] := by
    rw [writeExecutions, SentMessage.transaction, List.map_map]
    rfl
  rw [hes] at h ⊢
  rw [SentMessage.readExecutions_transaction h, SentMessage.executions_map_execution]

def SentMessage.mixture : List SentMessage :=
  [.execution ⟨"trader", "pool", "\x7b\"swap\":\x7b\x7d\x7d".toUTF8.toList, [⟨"orai", "1"⟩]⟩,
    .other ⟨"/cosmos.bank.v1beta1.MsgSend", [255, 255]⟩ (by decide),
    .execution ⟨"", "", [], []⟩]

theorem executions_read_back_between :
    readExecutions (SentMessage.transaction SentMessage.mixture "memo" 7 [1] [[], [2]]) =
        .ok [(0, ⟨"trader", "pool", "\x7b\"swap\":\x7b\x7d\x7d".toUTF8.toList, [⟨"orai", "1"⟩]⟩),
          (2, ⟨"", "", [], []⟩)] ∧
      readExecutions (writeExecutions [⟨"trader", "pool", [0], []⟩]) =
        .ok [(0, ⟨"trader", "pool", [0], []⟩)] :=
  ⟨executions_read_back.1 SentMessage.mixture "memo" 7 [1] [[], [2]] (by decide +kernel),
    executions_read_back.2 [⟨"trader", "pool", [0], []⟩] (by decide +kernel)⟩

end PoolLedger
