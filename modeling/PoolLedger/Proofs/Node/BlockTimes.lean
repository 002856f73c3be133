import PoolLedger.Proofs.Ascending
import PoolLedger.Proofs.Node.Course
import PoolLedger.Proofs.StableSort

/-! Block times of what was found. They are asked for height by height, upwards,
and a height that an earlier answer covers is skipped. An answer that leaves out
the height it was asked for ends the fetch, so each transaction gets a time that
the node told for its own height. -/

namespace PoolLedger

theorem Height.linear : Ascending.Linear fun a b : Height => a < b where
  irrefl a := by simp [Ranged.lt_def]
  trans a b c := by
    simp only [Ranged.lt_def, decide_eq_true_eq]
    exact Int.lt_trans
  total a b hne hab := by
    rw [ne_eq, Ranged.ext_iff] at hne
    simp only [Ranged.lt_def, decide_eq_true_eq] at hab ⊢
    omega

namespace Node

namespace BlockTimes

variable {times : BlockTimes} {h : Height} {time : Timestamp}

theorem mem_of_find? (hfind : times.find? h = some time) : (h, time) ∈ times := by
  obtain ⟨e, he, rfl⟩ := Option.map_eq_some_iff.1 hfind
  obtain ⟨-, rfl⟩ := by simpa using List.find?_some he
  exact List.mem_of_find?_eq_some he

theorem find?_isSome_iff : (times.find? h).isSome ↔ ∃ e ∈ times, e.1 = h := by
  simp [find?]

end BlockTimes

def readMeta (header : String × String) : Except IndexerError (Height × Timestamp) :=
  match (Instant.read? header.2).bind fun n => (Ranged.ofInt? n : Option Timestamp) with
  | none => .error (.chain "block time")
  | some time => (readHeight header.1).map fun h => (h, time)

theorem addTime_eq (times : BlockTimes) (header : String × String) :
    addTime times header = (readMeta header).map (· :: times) := by
  rw [addTime, readMeta]
  cases (Instant.read? header.2).bind fun n => (Ranged.ofInt? n : Option Timestamp) with
  | none => rfl
  | some time => cases readHeight header.1 <;> rfl

theorem foldlM_addTime (headers : List (String × String)) (times : BlockTimes) :
    headers.foldlM addTime times = (headers.mapM readMeta).map fun es => es.reverse ++ times := by
  induction headers generalizing times with
  | nil => rfl
  | cons header headers ih =>
    rw [List.foldlM_cons, List.mapM_cons, addTime_eq]
    cases readMeta header with
    | error e => rfl
    | ok m =>
      change headers.foldlM addTime (m :: times) = _
      rw [ih]
      cases hes : headers.mapM readMeta with
      | error e => rfl
      | ok es =>
        change Except.ok _ = Except.ok _
        simp

namespace Client

def timesRequest (c : Client) (h : Height) : Request :=
  c.request "blockchain"
    [("minHeight", toString h), ("maxHeight", toString (h.satAdd (blockSpan.satSub 1)))]

def afterTimes (c : Client) (before : List Request) (asked : List Height) : List Request :=
  (asked.map c.timesRequest).reverse ++ before

theorem afterTimes_cons (c : Client) (before : List Request) (h : Height) (asked : List Height) :
    c.afterTimes before (h :: asked) = c.afterTimes (c.timesRequest h :: before) asked := by
  simp [afterTimes]

def metas (c : Client) (t : Transport) (before : List Request) (h : Height) :
    Except IndexerError (List (Height × Timestamp)) :=
  (readReply "blockchain" headers? (t.reply before (c.timesRequest h))).bind (·.mapM readMeta)

def told (c : Client) (t : Transport) (before : List Request) :
    List Height → List (Height × Timestamp)
  | [] => []
  | h :: rest =>
    (c.metas t before h).toOption.getD [] ++ c.told t (c.timesRequest h :: before) rest

/-- How block times are asked for: the heights in question, what is known, the
heights asked for, and the times in the end. -/
inductive Dating (c : Client) (t : Transport) :
    List Height → BlockTimes → List Request → List Height → Except IndexerError BlockTimes → Prop
  | done {times : BlockTimes} {before : List Request} : Dating c t [] times before [] (.ok times)
  | known {h : Height} {heights asked : List Height} {times : BlockTimes} {before : List Request}
    {r : Except IndexerError BlockTimes} (hit : (times.find? h).isSome)
    (rest : Dating c t heights times before asked r) : Dating c t (h :: heights) times before asked r
  | told {h : Height} {heights asked : List Height} {times : BlockTimes} {before : List Request}
    {r : Except IndexerError BlockTimes} {es : List (Height × Timestamp)}
    (answers : c.metas t before h = .ok es) (hit : ∃ e ∈ es, e.1 = h)
    (rest : Dating c t heights (es.reverse ++ times) (c.timesRequest h :: before) asked r) :
    Dating c t (h :: heights) times before (h :: asked) r
  | silent {h : Height} {heights : List Height} {times : BlockTimes} {before : List Request}
    {es : List (Height × Timestamp)} (answers : c.metas t before h = .ok es)
    (miss : ∀ e ∈ es, e.1 ≠ h) :
    Dating c t (h :: heights) times before [h]
      (.error (.chain ("no block meta for height " ++ toString h)))
  | failed {h : Height} {heights : List Height} {times : BlockTimes} {before : List Request}
    {e : IndexerError} (answers : c.metas t before h = .error e) :
    Dating c t (h :: heights) times before [h] (.error e)

variable {c : Client} {t : Transport} {heights asked : List Height} {times : BlockTimes}
  {before : List Request} {r : Except IndexerError BlockTimes} {h : Height}

theorem bind_foldlM_addTime (r : Except IndexerError (List (String × String)))
    (times : BlockTimes) :
    (r.bind fun headers => headers.foldlM addTime times) =
      (r.bind (·.mapM readMeta)).map fun es => es.reverse ++ times := by
  cases r with
  | error e => rfl
  | ok headers => exact foldlM_addTime headers times

theorem blockTimesFrom_of_miss (rest : List Height) (hmiss : ¬ (times.find? h).isSome) :
    c.blockTimesFrom times (h :: rest) t before =
      match (c.metas t before h).map fun es => es.reverse ++ times with
      | .error e => (.error e, c.timesRequest h :: before)
      | .ok times =>
        if (times.find? h).isSome then c.blockTimesFrom times rest t (c.timesRequest h :: before)
        else (.error (.chain ("no block meta for height " ++ toString h)),
          c.timesRequest h :: before) := by
  rw [blockTimesFrom, if_neg hmiss, Calling.bind_run]
  simp only [bind_foldlM_addTime]
  change (match (c.metas t before h).map fun es => es.reverse ++ times with
    | .error e => return .error e
    | .ok times => _ : Calling (Except IndexerError BlockTimes)) t (c.timesRequest h :: before) = _
  cases (c.metas t before h).map fun es => es.reverse ++ times with
  | error e => rfl
  | ok times =>
    simp only
    split <;> rfl

theorem exists_dating (c : Client) (t : Transport) (heights : List Height) (times : BlockTimes)
    (before : List Request) :
    ∃ asked, c.Dating t heights times before asked (c.blockTimesFrom times heights t before).1 ∧
      (c.blockTimesFrom times heights t before).2 = c.afterTimes before asked := by
  induction heights generalizing times before with
  | nil => exact ⟨[], .done, rfl⟩
  | cons h rest ih =>
    by_cases hit : (times.find? h).isSome
    · obtain ⟨asked, hdating, hsent⟩ := ih times before
      rw [blockTimesFrom, if_pos hit]
      exact ⟨asked, .known hit hdating, hsent⟩
    · rw [blockTimesFrom_of_miss rest hit]
      cases hes : c.metas t before h with
      | error e => exact ⟨[h], .failed hes, rfl⟩
      | ok es =>
        rw [Except.map]
        simp only
        by_cases hnew : ∃ e ∈ es, e.1 = h
        · have hfind : BlockTimes.find? (es.reverse ++ times) h |>.isSome := by
            obtain ⟨e, he, heq⟩ := hnew
            exact BlockTimes.find?_isSome_iff.2 ⟨e, by simp [he], heq⟩
          obtain ⟨asked, hdating, hsent⟩ := ih (es.reverse ++ times) (c.timesRequest h :: before)
          rw [if_pos hfind]
          exact ⟨h :: asked, .told hes hnew hdating, by rw [afterTimes_cons, hsent]⟩
        · -- neither the answer nor what was known before tells the height
          have hfind : ¬ (BlockTimes.find? (es.reverse ++ times) h).isSome := by
            rw [BlockTimes.find?_isSome_iff] at hit ⊢
            rintro ⟨e, he, heq⟩
            rcases List.mem_append.1 he with he | he
            · exact hnew ⟨e, List.mem_reverse.1 he, heq⟩
            · exact hit ⟨e, he, heq⟩
          rw [if_neg hfind]
          exact ⟨[h], .silent hes fun e he heq => hnew ⟨e, he, heq⟩, rfl⟩

namespace Dating

theorem sublist (hd : c.Dating t heights times before asked r) : asked.Sublist heights := by
  induction hd with
  | done => exact .slnil
  | known _ _ ih => exact ih.cons _
  | told _ _ _ ih => exact ih.cons_cons _
  | silent _ _ => exact (List.nil_sublist _).cons_cons _
  | failed _ => exact (List.nil_sublist _).cons_cons _

variable {final : BlockTimes}

theorem mem_of_mem (hd : c.Dating t heights times before asked r) (hr : r = .ok final)
    {e : Height × Timestamp} (he : e ∈ times) : e ∈ final := by
  induction hd with
  | done => cases hr; exact he
  | known _ _ ih => exact ih hr he
  | told _ _ _ ih => exact ih hr (List.mem_append_right _ he)
  | silent _ _ => cases hr
  | failed _ => cases hr

theorem finds (hd : c.Dating t heights times before asked r) (hr : r = .ok final) :
    ∀ h ∈ heights, (final.find? h).isSome := by
  induction hd with
  | done => simp
  | known hit hrest ih =>
    obtain ⟨e, he, heq⟩ := BlockTimes.find?_isSome_iff.1 hit
    have hfirst := BlockTimes.find?_isSome_iff.2 ⟨e, hrest.mem_of_mem hr he, heq⟩
    exact List.forall_mem_cons.2 ⟨hfirst, ih hr⟩
  | told _ hit hrest ih =>
    obtain ⟨e, he, heq⟩ := hit
    have hfirst := BlockTimes.find?_isSome_iff.2
      ⟨e, hrest.mem_of_mem hr (List.mem_append_left _ (List.mem_reverse.2 he)), heq⟩
    exact List.forall_mem_cons.2 ⟨hfirst, ih hr⟩
  | silent _ _ => cases hr
  | failed _ => cases hr

theorem mem_told (hd : c.Dating t heights times before asked r) (hr : r = .ok final)
    {e : Height × Timestamp} (he : e ∈ final) : e ∈ times ∨ e ∈ c.told t before asked := by
  induction hd with
  | done => cases hr; exact .inl he
  | known _ _ ih => exact ih hr
  | told answers _ _ ih =>
    rw [Client.told, answers]
    rcases ih hr with h | h
    · rcases List.mem_append.1 h with h | h
      · exact .inr (List.mem_append_left _ (List.mem_reverse.1 h))
      · exact .inl h
    · exact .inr (List.mem_append_right _ h)
  | silent _ _ => cases hr
  | failed _ => cases hr

theorem error_of_miss (hd : c.Dating t heights times before asked r) {earlier later : List Height}
    (hasked : asked = earlier ++ h :: later) :
    (∀ e, c.metas t (c.afterTimes before earlier) h = .error e → r = .error e) ∧
      ∀ es, c.metas t (c.afterTimes before earlier) h = .ok es → (∀ e ∈ es, e.1 ≠ h) →
        r = .error (.chain ("no block meta for height " ++ toString h)) := by
  -- on how the times were asked for; `earlier` is what was answered before the height
  induction hd generalizing earlier with
  | done => simp at hasked
  | known _ _ ih => exact ih hasked
  | told answers hit _ ih =>
    cases earlier with
    | nil =>
      obtain ⟨rfl, rfl⟩ := List.cons.inj hasked
      refine ⟨fun e he => ?_, fun es hes hmiss => ?_⟩
      · cases answers.symm.trans he
      · cases answers.symm.trans hes
        obtain ⟨e, he, heq⟩ := hit
        exact absurd heq (hmiss e he)
    | cons a earlier =>
      obtain ⟨rfl, hrest⟩ := List.cons.inj hasked
      rw [afterTimes_cons]
      exact ih hrest
  | silent answers miss =>
    cases earlier with
    | nil =>
      obtain ⟨rfl, rfl⟩ := List.cons.inj hasked
      refine ⟨fun e he => ?_, fun es hes hmiss => rfl⟩
      cases answers.symm.trans he
    | cons a earlier => simp at hasked
  | failed answers =>
    cases earlier with
    | nil =>
      obtain ⟨rfl, rfl⟩ := List.cons.inj hasked
      refine ⟨fun e he => ?_, fun es hes hmiss => ?_⟩
      · cases answers.symm.trans he
        rfl
      · cases answers.symm.trans hes
    | cons a earlier => simp at hasked

end Dating

end Client

def InOrder (a b : Transaction) : Prop :=
  a.height < b.height ∨ a.height = b.height ∧ a.index ≤ b.index

def blockOrder (a b : Transaction) : Bool :=
  a.height < b.height || (a.height = b.height && a.index ≤ b.index)

theorem blockOrder_iff {a b : Transaction} : blockOrder a b = true ↔ InOrder a b := by
  simp [blockOrder, InOrder]

theorem blockOrder_trans (a b c : Transaction) (hab : blockOrder a b) (hbc : blockOrder b c) :
    blockOrder a c := by
  simp only [blockOrder_iff, InOrder, Ranged.lt_def, Ranged.le_def, Ranged.ext_iff] at *
  omega

theorem blockOrder_total (a b : Transaction) : blockOrder a b || blockOrder b a := by
  simp only [Bool.or_eq_true, blockOrder_iff, InOrder, Ranged.lt_def, Ranged.le_def, Ranged.ext_iff]
  omega

theorem same_blockOrder (a b : Transaction) :
    StableSort.same blockOrder a b = true ↔ (b.height, b.index) = (a.height, a.index) := by
  simp only [StableSort.same, Bool.and_eq_true, blockOrder_iff, InOrder, Ranged.lt_def,
    Ranged.le_def, Prod.mk.injEq, Ranged.ext_iff]
  omega

theorem inBlockOrder_sorted (txs : List Transaction) : (inBlockOrder txs).Pairwise InOrder :=
  (List.pairwise_mergeSort blockOrder_trans blockOrder_total txs).imp blockOrder_iff.1

theorem inBlockOrder_reordered (txs : List Transaction) :
    Reordered (fun tx : Transaction => (tx.height, tx.index)) (inBlockOrder txs) txs :=
  StableSort.reordered_mergeSort blockOrder_trans blockOrder_total same_blockOrder txs

def OneTime (told : List (Height × Timestamp)) : Prop :=
  ∀ h time time', (h, time) ∈ told → (h, time') ∈ told → time = time'

namespace Course

/-- How the block times of a course are asked for, whatever comes of it. -/
structure Asks (k : Course) (s : Source) (t : Transport) (before : List Request)
    (offset : Height) (asked : List Height) : Prop where
  sent : (s.fetch offset t before).2 = s.client.afterTimes k.searched asked
  quiet : ∃ sent, k.searched = sent.reverse ++ before ∧ s.client.AsksNoTimes sent
  ascending : asked.Pairwise (· < ·)
  found : ∀ h ∈ asked, ∃ tx ∈ k.found, tx.height = h
  failed : ∀ earlier h later e, asked = earlier ++ h :: later →
    s.client.metas t (s.client.afterTimes k.searched earlier) h = .error e →
    (s.fetch offset t before).1 = .error e
  missed : ∀ earlier h later es, asked = earlier ++ h :: later →
    s.client.metas t (s.client.afterTimes k.searched earlier) h = .ok es → (∀ e ∈ es, e.1 ≠ h) →
    (s.fetch offset t before).1 = .error (.chain ("no block meta for height " ++ toString h))

/-- The transactions found, in block order, each at the one time told for its height. -/
structure Dates (k : Course) (told : List (Height × Timestamp)) (txs : List Transaction) :
    Prop where
  reordered : Reordered (fun tx : Transaction => (tx.height, tx.index)) (txs.map .untimed)
    (k.found.map .untimed)
  sorted : txs.Pairwise InOrder
  times : ∀ tx ∈ txs, ∀ time, (tx.height, time) ∈ told ↔ time = tx.timestamp
  same : ∀ a ∈ txs, ∀ b ∈ txs, a.height = b.height → a.timestamp = b.timestamp

variable {k : Course} {s : Source} {t : Transport} {before : List Request} {offset : Height}
  {asked : List Height} {times : BlockTimes}

def heights (k : Course) : List Height :=
  Ascending.ofList (fun a b : Height => a < b) (k.found.map Transaction.height)

theorem mem_heights {h : Height} : h ∈ k.heights ↔ ∃ tx ∈ k.found, tx.height = h := by
  rw [heights, Ascending.mem_ofList, List.mem_map]

theorem Taken.asks (hk : k.Taken s t before offset)
    (hd : s.client.Dating t k.heights [] k.searched asked
      (s.client.blockTimes (k.found.map Transaction.height) t k.searched).1)
    (hsent : (s.client.blockTimes (k.found.map Transaction.height) t k.searched).2 =
      s.client.afterTimes k.searched asked) : k.Asks s t before offset asked where
  sent := by rw [Source.fetch_of_taken hk, hsent]
  quiet := Source.exists_quiet_of_taken hk
  ascending := by
    refine ((Ascending.ofList_pairwise Height.linear _).sublist hd.sublist).imp fun {a b} h => ?_
    simpa using h
  found h hh := mem_heights.1 (hd.sublist.subset hh)
  failed earlier h later e hasked he := by
    rw [Source.fetch_of_taken hk, (hd.error_of_miss hasked).1 e he]
    rfl
  missed earlier h later es hasked hes hmiss := by
    rw [Source.fetch_of_taken hk, (hd.error_of_miss hasked).2 es hes hmiss]
    rfl

theorem mem_told_of_dating {c : Client} (hd : c.Dating t k.heights [] k.searched asked (.ok times))
    {tx : Transaction} (htx : tx ∈ (k.segment offset times).transactions) :
    (tx.height, tx.timestamp) ∈ c.told t k.searched asked ∧
      tx.timestamp = (times.find? tx.height).getD 0 := by
  obtain ⟨a, ha, rfl⟩ := List.mem_map.1 (List.mem_mergeSort.1 htx)
  have hfound := hd.finds rfl a.height (mem_heights.2 ⟨a, ha, rfl⟩)
  obtain ⟨time, htime⟩ := Option.isSome_iff_exists.1 hfound
  have htold := (hd.mem_told rfl (BlockTimes.mem_of_find? htime)).resolve_left (by simp)
  have hstamp : (withTime times a).timestamp = time := by
    rw [withTime, htime]
    rfl
  rw [hstamp]
  exact ⟨htold, by rw [withTime, htime]; rfl⟩

theorem dates_of_dating {c : Client} (hd : c.Dating t k.heights [] k.searched asked (.ok times))
    (hone : OneTime (c.told t k.searched asked)) :
    k.Dates (c.told t k.searched asked) (k.segment offset times).transactions where
  reordered := by
    rw [← map_untimed_withTime times k.found]
    exact (inBlockOrder_reordered _).map fun _ => rfl
  sorted := inBlockOrder_sorted _
  times tx htx time := by
    obtain ⟨htold, -⟩ := mem_told_of_dating hd htx
    exact ⟨fun h => hone _ _ _ h htold, fun h => h ▸ htold⟩
  same a ha b hb hheight := by
    rw [(mem_told_of_dating hd ha).2, (mem_told_of_dating hd hb).2, hheight]

end Course

/-- The transactions of a fetch that succeeds are those that its searches found,
in block order and at the times told for their heights. Times are asked for once
for each height at most, and only for heights of what was found. When the answer
for a height does not tell its time, the fetch fails, and a fetch whose searches
fail asks for no time. -/
theorem Source.fetch_dates_what_it_found (s : Source) (t : Transport) (before : List Request)
    (offset : Height) :
    (∀ k : Course, k.Taken s t before offset → ∃ asked, k.Asks s t before offset asked ∧
      ∀ segment, (s.fetch offset t before).1 = .ok segment →
        OneTime (s.client.told t k.searched asked) →
        k.Dates (s.client.told t k.searched asked) segment.transactions) ∧
    ((∀ k : Course, ¬ k.Taken s t before offset) →
      ∃ (e : IndexerError) (sent : List Request),
        s.fetch offset t before = (.error e, sent.reverse ++ before) ∧
          s.client.AsksNoTimes sent) := by
  refine ⟨fun k hk => ?_, fetch_of_not_taken⟩
  -- the requests are known before it is known how they end
  obtain ⟨asked, hd, hsent⟩ := s.client.exists_dating t k.heights [] k.searched
  refine ⟨asked, hk.asks hd hsent, fun segment hsegment hone => ?_⟩
  rw [fetch_of_taken hk] at hsegment
  cases htimes : (s.client.blockTimes (k.found.map Transaction.height) t k.searched).1 with
  | error e =>
    rw [htimes] at hsegment
    cases hsegment
  | ok times =>
    rw [htimes] at hsegment
    cases hsegment
    exact Course.dates_of_dating (htimes ▸ hd) hone

def blocksResult (headers : List (String × String)) : List (String × Json) := [
  ("block_metas", .list (headers.map fun m =>
    .object [("header", .object [("height", .text m.1), ("time", .text m.2)])]))]

theorem Client.metas_of_holds {c : Client} {t : Transport} {before : List Request} {h : Height}
    {result : List (String × Json)} {headers : List (String × String)}
    {es : List (Height × Timestamp)} (hholds : (t.reply before (c.timesRequest h)).Holds result)
    (hread : headers? (.object result) = some headers) (hes : headers.mapM readMeta = .ok es) :
    c.metas t before h = .ok es := by
  rw [metas, readReply_of_holds "blockchain" hholds hread]
  exact hes

theorem Client.mem_of_mem_told {c : Client} {t : Transport} {es : List (Height × Timestamp)}
    (h : ∀ before h, c.metas t before h = .ok es) {asked : List Height} {before : List Request}
    {e : Height × Timestamp} (he : e ∈ c.told t before asked) : e ∈ es := by
  induction asked generalizing before with
  | nil => cases he
  | cons a asked ih =>
    rw [told, h] at he
    rcases List.mem_append.1 he with he | he
    · exact he
    · exact ih he

def Transport.twoBlocks : Transport := ⟨fun _ q =>
  if q.params = [] then .wrapping (statusResult 110)
  else if q.path = "http://node/blockchain" then
    .wrapping (blocksResult [("101", "2024-03-01T12:00:00Z"), ("102", "2024-03-01T12:00:06.5Z")])
  else .wrapping (listing threeTransactions.reverse 3)⟩

def twoBlocksCourse : Course :=
  let status := Client.request ⟨"http://node"⟩ "status" []
  let search := Client.request ⟨"http://node"⟩ "tx_search" (searchParams ⟨100, 110⟩ 1)
  ⟨110, [⟨⟨100, 110⟩, [status], [], ⟨3, threeTransactions.reverse⟩⟩], [search, status]⟩

theorem twoBlocksCourse_taken :
    twoBlocksCourse.Taken (.of ⟨"http://node"⟩ 50 2) .twoBlocks [] 100 where
  latest := latestHeight_of_holds (Reply.wrapping_holds (statusResult 110) rfl) rfl
  windows := by decide
  searches := by
    have hreply (before : List Request) : Transport.twoBlocks.reply before
        (Client.request ⟨"http://node"⟩ "tx_search" (searchParams ⟨100, 110⟩ 1)) =
          .wrapping (listing threeTransactions.reverse 3) := by
      simp [Transport.twoBlocks, Client.request, searchParams]
    have hbrings (before : List Request) : Client.Brings ⟨"http://node"⟩ ⟨100, 110⟩ .twoBlocks 1
        before ⟨3, threeTransactions.reverse⟩ :=
      searchPage_of_holds (hreply before ▸ Reply.wrapping_holds _ (plain_listing _ _))
        (isPage_listing threeTransactions.reverse 3)
    have hran : Paging.Ran ⟨"http://node"⟩ .twoBlocks ⟨⟨100, 110⟩,
        [Client.request ⟨"http://node"⟩ "status" []], [], ⟨3, threeTransactions.reverse⟩⟩ :=
      .last (hbrings _) (.inr (by decide))
    exact .cons hran (.nil _)

theorem twoBlocks_metas (before : List Request) (h : Height) :
    Client.metas ⟨"http://node"⟩ .twoBlocks before h =
      .ok [(101, 1709294400), (102, 1709294406)] := by
  have hreply : Transport.twoBlocks.reply before (Client.timesRequest ⟨"http://node"⟩ h) =
      .wrapping (blocksResult
        [("101", "2024-03-01T12:00:00Z"), ("102", "2024-03-01T12:00:06.5Z")]) := by
    simp [Transport.twoBlocks, Client.timesRequest, Client.request]
  exact Client.metas_of_holds (hreply ▸ Reply.wrapping_holds _ rfl) rfl (by decide +kernel)

theorem twoBlocks_times : ((Source.of ⟨"http://node"⟩ 50 2).client.blockTimes
    (twoBlocksCourse.found.map Transaction.height) .twoBlocks twoBlocksCourse.searched).1 =
      .ok [(102, 1709294406), (101, 1709294400)] := by
  have hheights : Ascending.ofList (fun a b : Height => a < b)
      (twoBlocksCourse.found.map Transaction.height) = [101, 102] := by
    decide
  have hmetas := twoBlocks_metas twoBlocksCourse.searched 101
  change (Client.blockTimesFrom ⟨"http://node"⟩ [] _ _ _).1 = _
  rw [hheights, Client.blockTimesFrom_of_miss _ (by decide), hmetas]
  rfl

theorem twoBlocks_dated :
    twoBlocksCourse.Taken (.of ⟨"http://node"⟩ 50 2) .twoBlocks [] 100 ∧
      ∃ asked segment, twoBlocksCourse.Asks (.of ⟨"http://node"⟩ 50 2) .twoBlocks [] 100 asked ∧
        ((Source.of ⟨"http://node"⟩ 50 2).fetch 100 .twoBlocks []).1 = .ok segment ∧
        OneTime (Client.told ⟨"http://node"⟩ .twoBlocks twoBlocksCourse.searched asked) ∧
        twoBlocksCourse.Dates
          (Client.told ⟨"http://node"⟩ .twoBlocks twoBlocksCourse.searched asked)
          segment.transactions := by
  obtain ⟨hdates, -⟩ :=
    Source.fetch_dates_what_it_found (.of ⟨"http://node"⟩ 50 2) .twoBlocks [] 100
  obtain ⟨asked, hasks, hdated⟩ := hdates twoBlocksCourse twoBlocksCourse_taken
  have hfetch : ((Source.of ⟨"http://node"⟩ 50 2).fetch 100 .twoBlocks []).1 =
      .ok (twoBlocksCourse.segment 100 [(102, 1709294406), (101, 1709294400)]) := by
    rw [Source.fetch_of_taken twoBlocksCourse_taken, twoBlocks_times, Except.map]
  have hone : OneTime
      (Client.told ⟨"http://node"⟩ .twoBlocks twoBlocksCourse.searched asked) := by
    have hall : OneTime [(101, 1709294400), (102, 1709294406)] := by
      intro h time time' h₁ h₂
      simp only [List.mem_cons, List.not_mem_nil, or_false, Prod.mk.injEq] at h₁ h₂
      rcases h₁ with ⟨rfl, rfl⟩ | ⟨rfl, rfl⟩
      · exact (h₂.resolve_right fun h => absurd h.1 (by decide)).2.symm
      · exact (h₂.resolve_left fun h => absurd h.1 (by decide)).2.symm
    exact fun h time time' h₁ h₂ => hall h time time'
      (Client.mem_of_mem_told twoBlocks_metas h₁) (Client.mem_of_mem_told twoBlocks_metas h₂)
  exact ⟨twoBlocksCourse_taken, asked, _, hasks, hfetch, hone, hdated _ hfetch hone⟩

end Node

end PoolLedger
