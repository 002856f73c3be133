import Mathlib.Data.List.Forall2
import PoolLedger.Node.Search
import PoolLedger.Proofs.Assets
import PoolLedger.Proofs.Base64
import PoolLedger.Proofs.Wire

/-! How a node lists transactions. The fields of a transaction stand in any
order among other members, those with a default may be left out, and what is
read from such a page are its count and its transactions. -/

namespace PoolLedger

namespace Json

variable {α : Type} {members : List (String × Json)} {k : String} {v : Json}

def HasOne (members : List (String × Json)) (k : String) (v : Json) : Prop :=
  members.filter (fun m => m.1 = k) = [(k, v)]

def HasNone (members : List (String × Json)) (k : String) : Prop := ∀ m ∈ members, m.1 ≠ k

/-- The value stands under the key, or nothing does where it is the default. -/
def Shows (members : List (String × Json)) (k : String) (v : Json) (isDefault : Prop) : Prop :=
  HasOne members k v ∨ isDefault ∧ HasNone members k

theorem HasOne.single? (h : HasOne members k v) : single? members k = some (some v) := by
  rw [HasOne] at h
  rw [Json.single?, h]

theorem HasNone.single? (h : HasNone members k) : single? members k = some none := by
  have hnil : members.filter (fun m => m.1 = k) = [] := by
    rw [List.filter_eq_nil_iff]
    intro m hm he
    exact h m hm (of_decide_eq_true he)
  rw [Json.single?, hnil]

theorem Shows.exists_field {a d : α} (h : Shows members k v (a = d)) (read : Json → Option α)
    (hread : read v = some a) : ∃ c, single? members k = some c ∧
      ∀ (f : Fields) (i : Nat), f.at i = c → f.default i read d = some a := by
  rcases h with hone | ⟨rfl, hnone⟩
  · refine ⟨some v, hone.single?, fun f i hf => ?_⟩
    rw [Fields.default, hf]
    exact hread
  · refine ⟨none, hnone.single?, fun f i hf => ?_⟩
    rw [Fields.default, hf]

end Json

theorem Node.readHeight_toString (h : Height) : readHeight (toString h) = .ok h := by
  obtain ⟨n, hn⟩ := Int.eq_ofNat_of_zero_le h.lo_le
  have ht : (toString h).toList = Nat.toDigits 10 n := by
    change (toString h.val).toList = _
    rw [hn]
    exact Keys.toList_ofNat n
  have hread : (Ranged.read (toString h) : Except IntegerFault Height) = .ok h := by
    rw [Ranged.read, ht, Ranged.readChars_toDigits hn]
  rw [readHeight, hread]

def Transaction.untimed (tx : Transaction) : Transaction := { tx with timestamp := 0 }

namespace Node

open Json (HasOne HasNone Shows)

structure TellsResult (members : List (String × Json)) (tx : Transaction) : Prop where
  code : Shows members "code" (.int tx.code.val) (tx.code = 0)
  log : Shows members "log" (.text tx.rawLog) (tx.rawLog = "")

/-- The members describe a transaction, its height in decimal digits and its
bytes in base64. -/
structure Describes (members : List (String × Json)) (tx : Transaction) : Prop where
  hash : HasOne members "hash" (.text tx.hash)
  height : HasOne members "height" (.text (toString tx.height))
  index : Shows members "index" (.int tx.index.val) (tx.index = 0)
  result : ∃ inner, HasOne members "tx_result" (.object inner) ∧ TellsResult inner tx
  bytes : HasOne members "tx" (.text (Base64.encodeText tx.bytes))

structure IsPage (members : List (String × Json)) (txs : List Transaction) (count : Height) :
    Prop where
  listed : ∃ items, Shows members "txs" (.list (items.map .object)) (txs = []) ∧
    List.Forall₂ Describes items txs
  count : HasOne members "total_count" (.text (toString count))

def Reply.Holds (r : Reply) (result : List (String × Json)) : Prop :=
  ∃ status body members, r = .response status body ∧ status < 400 ∧
    Json.ofBytes? body = some (.object members) ∧ HasOne members "result" (.object result) ∧
    Shows members "error" .null True

theorem wrapped_of_hasOne {α : Type} {members result : List (String × Json)} {read : Json → Option α}
    {a : α} (hresult : HasOne members "result" (.object result))
    (herror : Shows members "error" .null True)
    (hread : read (.object result) = some a) :
    Wrapped.ofJson? read (.object members) = some ⟨some a, none⟩ := by
  obtain ⟨e, he, hnone⟩ := Json.Shows.exists_field (a := none) (d := none)
    (herror.imp_right (And.imp_left fun _ => rfl)) (Json.nullable (Json.valueAt? 1)) rfl
  have hfields : (Json.object members).fields? ["result", "error"] =
      some ⟨false, [some (.object result), e]⟩ :=
    Json.fields?_object (by rw [List.map_cons, List.map_cons, hresult.single?, he]; rfl)
  have hoptional : Json.Fields.optional ⟨false, [some (.object result), e]⟩ 0 read =
      some (some a) := by
    change Json.nullable read (.object result) = _
    rw [Json.nullable, hread, Option.map_some]
    simp
  rw [Wrapped.ofJson?, hfields]
  simp only [Option.bind_eq_bind, Option.bind_some, hoptional,
    hnone ⟨false, [some (.object result), e]⟩ 1 rfl]
  rfl

theorem readReply_of_holds {α : Type} (route : String) {read : Json → Option α} {r : Reply}
    {result : List (String × Json)} {a : α} (h : r.Holds result)
    (hread : read (.object result) = some a) : readReply route read r = .ok a := by
  obtain ⟨status, body, members, rfl, hstatus, hbody, hresult, herror⟩ := h
  have hwrapped := wrapped_of_hasOne hresult herror hread
  simp only [readReply, if_neg (Nat.not_le.2 hstatus), hbody, Option.bind_some, hwrapped]

namespace FoundTransaction

def of (tx : Transaction) : FoundTransaction :=
  ⟨tx.hash, toString tx.height, tx.index, tx.code, tx.rawLog, Base64.encodeText tx.bytes⟩

theorem ranged?_int {lo hi : Int} (a : Ranged lo hi) :
    (Json.ranged? (.int a.val) : Option (Ranged lo hi)) = some a :=
  Ranged.ofInt?_val a

theorem result?_of_tells {members : List (String × Json)} {tx : Transaction}
    (h : TellsResult members tx) : result? (.object members) = some (tx.code, tx.rawLog) := by
  obtain ⟨c, hc, hcode⟩ := h.code.exists_field _ (ranged?_int tx.code)
  obtain ⟨l, hl, hlog⟩ := h.log.exists_field Json.text? rfl
  have hfields : (Json.object members).fields? ["code", "log"] = some ⟨false, [c, l]⟩ :=
    Json.fields?_object (by rw [List.map_cons, List.map_cons, hc, hl]; rfl)
  rw [result?, hfields]
  simp only [Option.bind_eq_bind, Option.bind_some, hcode ⟨false, [c, l]⟩ 0 rfl,
    hlog ⟨false, [c, l]⟩ 1 rfl]
  rfl

theorem ofJson?_of_describes {members : List (String × Json)} {tx : Transaction}
    (h : Describes members tx) : ofJson? (.object members) = some (of tx) := by
  obtain ⟨i, hi, hindex⟩ := h.index.exists_field _ (ranged?_int tx.index)
  obtain ⟨inner, hinner, hresult⟩ := h.result
  have hfields : (Json.object members).fields? ["hash", "height", "index", "tx_result", "tx"] =
      some ⟨false, [some (.text tx.hash), some (.text (toString tx.height)), i,
        some (.object inner), some (.text (Base64.encodeText tx.bytes))]⟩ := by
    refine Json.fields?_object ?_
    simp only [List.map_cons, List.map_nil, h.hash.single?, h.height.single?, hi, hinner.single?,
      h.bytes.single?]
  rw [ofJson?, hfields]
  simp only [Json.Fields.required, Json.Fields.at, Option.bind_eq_bind, List.getElem?_cons_zero,
    List.getElem?_cons_succ, Option.join_some, Option.bind_some, result?_of_tells hresult,
    Json.text?, hindex ⟨false, [some (.text tx.hash), some (.text (toString tx.height)), i,
        some (.object inner), some (.text (Base64.encodeText tx.bytes))]⟩ 2 rfl]
  rfl

theorem list?_of_describes {items : List (List (String × Json))} {txs : List Transaction}
    (h : List.Forall₂ Describes items txs) :
    Json.list? ofJson? (.list (items.map .object)) = some (txs.map of) := by
  rw [Json.list?, Traverse.mapM_eq_some, List.map_map, List.map_map]
  induction h with
  | nil => rfl
  | cons hdescribes _ ih =>
    rw [List.map_cons, List.map_cons, ih]
    exact congrArg (· :: _) (ofJson?_of_describes hdescribes)

theorem toTransaction_of (tx : Transaction) : (of tx).toTransaction = .ok tx.untimed := by
  simp only [toTransaction, of, readHeight_toString, Base64.decodeText?_encodeText]
  rfl

end FoundTransaction

theorem ofJson?_of_isPage {members : List (String × Json)} {txs : List Transaction}
    {count : Height} (h : IsPage members txs count) :
    SearchPage.ofJson? (.object members) = some ⟨txs.map .of, toString count⟩ := by
  obtain ⟨items, hshown, hitems⟩ := h.listed
  have hread := FoundTransaction.list?_of_describes hitems
  obtain ⟨t, ht, htxs⟩ := Json.Shows.exists_field (d := []) (by simpa using hshown) _ hread
  have hfields : (Json.object members).fields? ["txs", "total_count"] =
      some ⟨false, [t, some (.text (toString count))]⟩ :=
    Json.fields?_object (by rw [List.map_cons, List.map_cons, ht, h.count.single?]; rfl)
  rw [SearchPage.ofJson?, hfields]
  simp only [Option.bind_eq_bind, Option.bind_some,
    htxs ⟨false, [t, some (.text (toString count))]⟩ 0 rfl]
  rfl

theorem read_page (txs : List Transaction) (count : Height) :
    SearchPage.read ⟨txs.map .of, toString count⟩ = .ok (count, txs.map .untimed) := by
  have htxs : (txs.map FoundTransaction.of).mapM FoundTransaction.toTransaction =
      .ok (txs.map Transaction.untimed) := by
    rw [Traverse.mapM_eq_ok, List.map_map, List.map_map]
    exact List.map_congr_left fun tx _ => FoundTransaction.toTransaction_of tx
  simp only [SearchPage.read, readHeight_toString, htxs]
  rfl

theorem searchPage_of_holds {c : Client} {w : Window} {page : Index} {t : Transport}
    {before : List Request} {result : List (String × Json)} {txs : List Transaction}
    {count : Height}
    (h : (t.reply before (c.request "tx_search" (searchParams w page))).Holds result)
    (hpage : IsPage result txs count) :
    (c.searchPage w page t before).1 = .ok (count, txs.map .untimed) := by
  have hreply := readReply_of_holds "tx_search" h (ofJson?_of_isPage hpage)
  change (readReply _ _ _).bind SearchPage.read = _
  rw [hreply]
  exact read_page txs count

theorem latestHeight_of_holds {c : Client} {t : Transport} {before : List Request}
    {result : List (String × Json)} {latest : Height}
    (h : (t.reply before (c.request "status" [])).Holds result)
    (hread : latestHeightText? (.object result) = some (toString latest)) :
    (c.latestHeight t before).1 = .ok latest := by
  have hreply := readReply_of_holds "status" h hread
  change (readReply _ _ _).bind readHeight = _
  rw [hreply]
  exact readHeight_toString latest

def statusResult (latest : Height) : List (String × Json) := [
  ("sync_info", .object [("latest_block_height", .text (toString latest))])]

def listed (tx : Transaction) : List (String × Json) := [
  ("hash", .text tx.hash),
  ("height", .text (toString tx.height)),
  ("index", .int tx.index.val),
  ("tx_result", .object [("code", .int tx.code.val), ("log", .text tx.rawLog)]),
  ("tx", .text (Base64.encodeText tx.bytes))]

theorem describes_listed (tx : Transaction) : Describes (listed tx) tx where
  hash := by simp [HasOne, listed]
  height := by simp [HasOne, listed]
  index := .inl (by simp [HasOne, listed])
  result := ⟨[("code", .int tx.code.val), ("log", .text tx.rawLog)], by simp [HasOne, listed],
    .inl (by simp [HasOne]), .inl (by simp [HasOne])⟩
  bytes := by simp [HasOne, listed]

theorem index_le_maxWord (a : Index) : a.val ≤ Json.maxWord :=
  Int.le_trans a.le_hi (by decide)

theorem plain_listed (tx : Transaction) : (Json.object (listed tx)).plain = true := by
  simp [listed, Json.plain, Json.plainMembers, index_le_maxWord, Ranged.lo_le]

def listing (txs : List Transaction) (count : Height) : List (String × Json) := [
  ("txs", .list ((txs.map listed).map .object)),
  ("total_count", .text (toString count))]

theorem isPage_listing (txs : List Transaction) (count : Height) :
    IsPage (listing txs count) txs count where
  listed := by
    refine ⟨txs.map listed, .inl (by simp [HasOne, listing]), ?_⟩
    rw [List.forall₂_map_left_iff, List.forall₂_same]
    exact fun tx _ => describes_listed tx
  count := by simp [HasOne, listing]

theorem plain_listing (txs : List Transaction) (count : Height) :
    (Json.object (listing txs count)).plain = true := by
  have hitems : Json.plainItems ((txs.map listed).map .object) = true := by
    induction txs with
    | nil => rfl
    | cons tx txs ih =>
      rw [List.map_cons, List.map_cons, Json.plainItems, plain_listed, ih]
      rfl
  simpa [listing, Json.plain, Json.plainMembers] using hitems

def Reply.wrapping (result : List (String × Json)) : Reply :=
  .response 200 (Wire.utf8 (Json.object [("result", .object result)]).compact)

theorem Reply.wrapping_holds (result : List (String × Json))
    (h : (Json.object result).plain = true) : (Reply.wrapping result).Holds result := by
  have hplain : (Json.object [("result", .object result)]).plain = true := by
    simp only [Json.plain, Json.plainMembers, Bool.and_true] at h ⊢
    exact h
  have hbody : Json.ofBytes? (Wire.utf8 (Json.object [("result", .object result)]).compact) =
      some (.object [("result", .object result)]) := by
    change (Wire.text? _).bind Json.ofString? = _
    rw [Wire.text?_utf8, Option.bind_some, Json.ofString?_compact hplain]
  exact ⟨200, _, _, rfl, by decide, hbody, by simp [HasOne], .inr ⟨trivial, by simp [HasNone]⟩⟩

end Node

end PoolLedger
