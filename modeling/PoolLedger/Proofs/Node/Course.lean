import PoolLedger.Proofs.Node.Paging

/-! How a fetch comes to its segment: it searches each window page by page, then
asks for the times of the blocks. A search may end early, and does so when an
empty page comes before the count that the page tells. -/

namespace PoolLedger.Node

structure Paging where
  window : Window
  before : List Request
  earlier : List Page
  last : Page

namespace Paging

variable {c : Client} {w : Window} {t : Transport} {before : List Request} {p : Paging}
  {txs : List Transaction}

def brought (p : Paging) : List Transaction := (p.earlier ++ [p.last]).flatMap Page.found

def after (c : Client) (p : Paging) : List Request :=
  (c.pages p.window 1 (p.earlier.length + 1)).reverse ++ p.before

def Ran (c : Client) (t : Transport) (p : Paging) : Prop :=
  c.Reads p.window t 1 [] p.before p.earlier p.last

def Complete (p : Paging) : Prop := p.last.count.val ≤ p.brought.length

theorem Ran.search_eq (h : p.Ran c t) :
    c.search p.window t p.before = (.ok p.brought, p.after c) :=
  Client.Reads.searchFrom_eq h

theorem search_ok_iff :
    (c.search w t before).1 = .ok txs ↔
      ∃ p : Paging, p.Ran c t ∧ p.window = w ∧ p.before = before ∧ p.brought = txs := by
  constructor
  · intro h
    obtain ⟨earlier, last, hreads⟩ := Client.exists_reads h
    have hran : Ran c t ⟨w, before, earlier, last⟩ := hreads
    refine ⟨_, hran, rfl, rfl, ?_⟩
    rw [hran.search_eq] at h
    exact Except.ok.inj h
  · rintro ⟨p, hran, rfl, rfl, rfl⟩
    rw [hran.search_eq]

theorem Ran.complete_iff (h : p.Ran c t) :
    p.Complete ↔
      p.last.found ≠ [] ∨ p.last.count.val ≤ (p.earlier.flatMap Page.found).length := by
  have hends := Client.Reads.ends_last h
  have hbrought : p.brought = p.earlier.flatMap Page.found ++ p.last.found := by
    simp [brought]
  rw [Complete, hbrought]
  rw [List.nil_append, Page.Ends] at hends
  by_cases hlast : p.last.found = []
  · simp [hlast]
  · simp only [hlast, false_or] at hends
    simpa [hlast] using hends

end Paging

inductive Client.Searched (c : Client) (t : Transport) :
    List Request → List Paging → List Request → Prop
  | nil (before : List Request) : Searched c t before [] before
  | cons {p : Paging} {ps : List Paging} {sent : List Request} (ran : p.Ran c t)
    (rest : Searched c t (p.after c) ps sent) : Searched c t p.before (p :: ps) sent

namespace Client

variable {c : Client} {t : Transport} {before sent : List Request} {ps : List Paging}
  {ws : List Window} {found : List (List Transaction)}

theorem mapM_search_cons (w : Window) (ws : List Window) :
    (w :: ws).mapM c.search t before =
      ((c.search w t before).1 :: (ws.mapM c.search t (c.search w t before).2).1,
        (ws.mapM c.search t (c.search w t before).2).2) := by
  rw [List.mapM_cons]
  rfl

theorem Searched.mapM_eq (h : c.Searched t before ps sent) :
    (ps.map Paging.window).mapM c.search t before =
      (ps.map fun p => .ok p.brought, sent) := by
  induction h with
  | nil before => rfl
  | cons ran _ ih => rw [List.map_cons, mapM_search_cons, ran.search_eq, ih, List.map_cons]

theorem exists_searched (h : ((ws.mapM c.search t before).1).mapM id = .ok found) :
    ∃ ps, c.Searched t before ps (ws.mapM c.search t before).2 ∧ ps.map Paging.window = ws ∧
      ps.map Paging.brought = found := by
  rw [Traverse.mapM_eq_ok, List.map_id] at h
  induction ws generalizing before found with
  | nil =>
    cases found with
    | nil => exact ⟨[], .nil before, rfl, rfl⟩
    | cons txs found => cases h
  | cons w ws ih =>
    rw [mapM_search_cons] at h ⊢
    cases found with
    | nil => cases h
    | cons txs found =>
      obtain ⟨hfirst, hrest⟩ := List.cons.inj h
      obtain ⟨p, hran, rfl, rfl, rfl⟩ := Paging.search_ok_iff.1 hfirst
      rw [hran.search_eq] at hrest ⊢
      obtain ⟨ps, hps, rfl, rfl⟩ := ih hrest
      exact ⟨p :: ps, .cons hran hps, rfl, rfl⟩

def AsksNoTimes (c : Client) (sent : List Request) : Prop :=
  ∀ q ∈ sent, q.path ≠ c.base ++ "/" ++ "blockchain"

theorem asksNoTimes_cons (c : Client) {route : String} {params : List (String × String)}
    (hroute : route ≠ "blockchain") (h : c.AsksNoTimes sent) :
    c.AsksNoTimes (c.request route params :: sent) := by
  intro q hq
  rcases List.mem_cons.1 hq with rfl | hq
  · simpa [request] using hroute
  · exact h q hq

theorem asksNoTimes_pages (c : Client) (w : Window) (first : Index) (count : Nat) :
    c.AsksNoTimes (c.pages w first count) := by
  induction count generalizing first with
  | zero => simp [AsksNoTimes, pages]
  | succ count ih => exact c.asksNoTimes_cons (by decide) (ih _)

theorem asksNoTimes_searches {parts : List (List Request)}
    (h : List.Forall₂ c.IsSearch ws parts) : c.AsksNoTimes parts.flatten := by
  induction h with
  | nil => simp [AsksNoTimes]
  | cons hpart _ ih =>
    obtain ⟨more, rfl⟩ := hpart
    intro q hq
    rcases List.mem_append.1 hq with hq | hq
    · exact c.asksNoTimes_pages _ _ _ q hq
    · exact ih q hq

theorem sends_searches (c : Client) (ws : List Window) :
    (ws.mapM c.search).Sends c.AsksNoTimes := by
  intro t before
  obtain ⟨sent, ⟨parts, hparts, rfl⟩, hsent⟩ := Calling.Sends.mapM c.sends_search ws t before
  exact ⟨_, asksNoTimes_searches hparts, hsent⟩

theorem Searched.forall_ran (h : c.Searched t before ps sent) : ∀ p ∈ ps, p.Ran c t := by
  induction h with
  | nil _ => simp
  | cons ran _ ih => simpa using ⟨ran, ih⟩

end Client

/-- What a fetch learns before it asks for block times. -/
structure Course where
  latest : Height
  pagings : List Paging
  searched : List Request

theorem map_untimed_withTime (times : BlockTimes) (txs : List Transaction) :
    (txs.map (withTime times)).map Transaction.untimed = txs.map .untimed := by
  rw [List.map_map]
  rfl

namespace Course

def found (k : Course) : List Transaction := k.pagings.flatMap Paging.brought

def next (k : Course) (offset : Height) : Height :=
  (k.pagings.getLast?.map fun p => p.window.last.satAdd 1).getD offset

def segment (k : Course) (offset : Height) (times : BlockTimes) : Segment :=
  ⟨inBlockOrder (k.found.map (withTime times)), k.next offset⟩

/-- A fetch takes this course: it learns the latest height, and each window is
searched. -/
structure Taken (k : Course) (s : Source) (t : Transport) (before : List Request)
    (offset : Height) : Prop where
  latest : (s.client.latestHeight t before).1 = .ok k.latest
  windows : k.pagings.map Paging.window =
    PoolLedger.windows offset k.latest s.limit s.windowCount.toNat
  searches : s.client.Searched t (s.client.request "status" [] :: before) k.pagings k.searched

end Course

namespace Source

variable {s : Source} {t : Transport} {before : List Request} {offset next : Height}
  {ws : List Window} {segment : Segment} {ps : List Paging} {sent : List Request} {k : Course}

theorem gather_of_searched (h : s.client.Searched t before ps sent) :
    s.gather (ps.map Paging.window) next t before =
      (((s.client.blockTimes ((ps.flatMap Paging.brought).map Transaction.height) t sent).1.map
        fun times => ⟨inBlockOrder ((ps.flatMap Paging.brought).map (withTime times)), next⟩),
      (s.client.blockTimes ((ps.flatMap Paging.brought).map Transaction.height) t sent).2) := by
  have hfound : (ps.map fun p => (.ok p.brought : Except IndexerError _)).mapM id =
      .ok (ps.map Paging.brought) := by
    rw [Traverse.mapM_eq_ok, List.map_id, List.map_map]
    rfl
  rw [gather, Calling.bind_run, h.mapM_eq]
  simp only [hfound]
  rw [Calling.bind_run, ← List.flatMap_def]
  cases htimes : (s.client.blockTimes ((ps.flatMap Paging.brought).map Transaction.height) t
      sent).1 with
  | error e => rfl
  | ok times => rfl

theorem gather_nil : s.gather [] next t before = (.ok ⟨[], next⟩, before) := by
  rw [← List.map_nil (f := Paging.window), gather_of_searched (.nil before)]
  change (Except.ok (⟨inBlockOrder [], next⟩ : Segment), before) = _
  rw [inBlockOrder, List.mergeSort_nil]

theorem fetch_of_latest {latest : Height} (h : (s.client.latestHeight t before).1 = .ok latest) :
    s.fetch offset t before =
      s.gather (windows offset latest s.limit s.windowCount.toNat)
        (((windows offset latest s.limit s.windowCount.toNat).getLast?.map
          fun w => w.last.satAdd 1).getD offset)
        t (s.client.request "status" [] :: before) := by
  have hstatus : (s.client.latestHeight t before).2 = s.client.request "status" [] :: before := rfl
  rw [fetch_eq, Calling.bind_run, hstatus, h]
  cases hlast : (windows offset latest s.limit s.windowCount.toNat).getLast? with
  | none =>
    simp only [hlast]
    rw [List.getLast?_eq_none_iff.1 hlast, gather_nil]
    rfl
  | some w =>
    simp only [hlast]
    rfl

theorem fetch_of_taken (h : k.Taken s t before offset) :
    s.fetch offset t before =
      ((s.client.blockTimes (k.found.map Transaction.height) t k.searched).1.map (k.segment offset),
        (s.client.blockTimes (k.found.map Transaction.height) t k.searched).2) := by
  rw [fetch_of_latest h.latest, ← h.windows, gather_of_searched h.searches, List.getLast?_map,
    Option.map_map]
  rfl

theorem exists_quiet_of_taken (h : k.Taken s t before offset) :
    ∃ sent, k.searched = sent.reverse ++ before ∧ s.client.AsksNoTimes sent := by
  obtain ⟨sent, hquiet, hsent⟩ := s.client.sends_searches (k.pagings.map Paging.window) t
    (s.client.request "status" [] :: before)
  rw [h.searches.mapM_eq] at hsent
  refine ⟨s.client.request "status" [] :: sent, ?_, s.client.asksNoTimes_cons (by decide) hquiet⟩
  rw [List.reverse_cons, List.append_assoc]
  exact hsent

theorem fetch_of_not_taken (h : ∀ k : Course, ¬ k.Taken s t before offset) :
    ∃ (e : IndexerError) (sent : List Request),
      s.fetch offset t before = (.error e, sent.reverse ++ before) ∧
        s.client.AsksNoTimes sent := by
  have hstatus : (s.client.latestHeight t before).2 = s.client.request "status" [] :: before := rfl
  cases hlatest : (s.client.latestHeight t before).1 with
  | error e =>
    refine ⟨e, [s.client.request "status" []], ?_,
      s.client.asksNoTimes_cons (by decide) (by simp [Client.AsksNoTimes])⟩
    rw [fetch_eq, Calling.bind_run, hstatus, hlatest]
    rfl
  | ok latest =>
    rw [fetch_of_latest hlatest, gather, Calling.bind_run]
    cases hfound : (((windows offset latest s.limit s.windowCount.toNat).mapM s.client.search t
        (s.client.request "status" [] :: before)).1).mapM id with
    | error e =>
      obtain ⟨sent, hquiet, hsent⟩ := s.client.sends_searches
        (windows offset latest s.limit s.windowCount.toNat) t
        (s.client.request "status" [] :: before)
      refine ⟨e, s.client.request "status" [] :: sent, ?_,
        s.client.asksNoTimes_cons (by decide) hquiet⟩
      simp only [hsent, List.reverse_cons, List.append_assoc, List.singleton_append]
      rfl
    | ok found =>
      obtain ⟨ps, hps, hwindows, -⟩ := Client.exists_searched hfound
      exact absurd ⟨hlatest, hwindows, hps⟩ (h ⟨latest, ps, _⟩)

theorem exists_taken (h : (s.fetch offset t before).1 = .ok segment) :
    ∃ (k : Course) (times : BlockTimes), k.Taken s t before offset ∧
      (s.client.blockTimes (k.found.map Transaction.height) t k.searched).1 = .ok times ∧
        segment = k.segment offset times := by
  by_cases hk : ∃ k : Course, k.Taken s t before offset
  · obtain ⟨k, hk⟩ := hk
    rw [fetch_of_taken hk] at h
    cases htimes : (s.client.blockTimes (k.found.map Transaction.height) t k.searched).1 with
    | error e =>
      rw [htimes] at h
      cases h
    | ok times =>
      rw [htimes] at h
      exact ⟨k, times, hk, htimes, (Except.ok.inj h).symm⟩
  · obtain ⟨e, sent, herror, -⟩ := fetch_of_not_taken fun k h => hk ⟨k, h⟩
    rw [herror] at h
    cases h

end Source

end PoolLedger.Node
