import Mathlib.Data.List.Forall2
import PoolLedger.Proofs.Node.Tiling

/-! What a source asks the node for. A fetch asks for the status, then searches
its windows one after the other, each from its first page on, then asks for
block times. A run of fetches, each from where the last one ended, searches
every height between its ends once and in order, whatever heights the node
reports. -/

namespace PoolLedger.Node

def Calling.Sends {α : Type} (p : Calling α) (P : List Request → Prop) : Prop :=
  ∀ t before, ∃ sent, P sent ∧ (p t before).2 = sent.reverse ++ before

namespace Calling

variable {α β : Type} {P Q R : List Request → Prop}

theorem bind_run (p : Calling α) (f : α → Calling β) (t : Transport) (before : List Request) :
    (p >>= f) t before = f (p t before).1 t (p t before).2 :=
  rfl

theorem sends_pure (a : α) (h : P []) : Sends (pure a) P := fun _ _ => ⟨[], h, rfl⟩

theorem Sends.bind {p : Calling α} {f : α → Calling β} (hp : p.Sends P) (hf : ∀ a, (f a).Sends Q)
    (h : ∀ xs ys, P xs → Q ys → R (xs ++ ys)) : (p >>= f).Sends R := by
  intro t before
  obtain ⟨xs, hxs, hp⟩ := hp t before
  obtain ⟨ys, hys, hf⟩ := hf (p t before).1 t (p t before).2
  refine ⟨xs ++ ys, h xs ys hxs hys, ?_⟩
  rw [bind_run, hf, hp, List.reverse_append, List.append_assoc]

theorem Sends.map {p : Calling α} (hp : p.Sends P) (f : α → β) :
    Sends (p >>= fun a => pure (f a)) P :=
  hp.bind (Q := (· = [])) (fun _ => sends_pure _ rfl) (by rintro xs _ hxs rfl; simpa using hxs)

theorem Sends.mapM {f : α → Calling β} {P : α → List Request → Prop} (hf : ∀ a, (f a).Sends (P a))
    (as : List α) : Sends (as.mapM f) fun sent =>
      ∃ parts, List.Forall₂ P as parts ∧ sent = parts.flatten := by
  induction as with
  | nil => exact sends_pure _ ⟨[], .nil, rfl⟩
  | cons a as ih =>
    rw [List.mapM_cons]
    refine (hf a).bind (fun b => ih.map fun bs => b :: bs) ?_
    rintro part _ hpart ⟨parts, hparts, rfl⟩
    exact ⟨part :: parts, .cons hpart hparts, rfl⟩

end Calling

namespace Client

def pages (c : Client) (w : Window) (first : Index) : Nat → List Request
  | 0 => []
  | count + 1 =>
    c.request "tx_search" (searchParams w first) :: c.pages w (first.satAdd 1) count

variable (c : Client) (w : Window)

theorem pages_succ (first : Index) (count : Nat) :
    c.pages w first (count + 1) =
      c.request "tx_search" (searchParams w first) :: c.pages w (first.satAdd 1) count :=
  rfl

theorem sends_get {α : Type} (route : String) (params : List (String × String))
    (read : Json → Option α) :
    (c.get route params read).Sends (· = [c.request route params]) :=
  fun _ _ => ⟨_, rfl, rfl⟩

theorem sent_of_searchPage {page : Index} {t : Transport} {before sent : List Request}
    {result : Except IndexerError (Height × List Transaction)}
    (h : c.searchPage w page t before = (result, sent)) :
    sent = c.request "tx_search" (searchParams w page) :: before :=
  (congrArg Prod.snd h).symm

theorem sends_searchFrom (page : Index) (collected : List Transaction) :
    (c.searchFrom w page collected).Sends fun sent => ∃ more, sent = c.pages w page (more + 1) := by
  intro t before
  induction page, collected, before using Client.searchFrom.induct c w t with
  | case1 page collected before e sent h =>
    refine ⟨_, ⟨0, rfl⟩, ?_⟩
    rw [searchFrom, h]
    exact c.sent_of_searchPage w h
  | case2 page collected before total found sent h hlast =>
    refine ⟨_, ⟨0, rfl⟩, ?_⟩
    rw [searchFrom, h]
    simp only [dif_pos hlast]
    exact c.sent_of_searchPage w h
  | case3 page collected before total found sent h _ hlast ih =>
    obtain ⟨_, ⟨more, rfl⟩, hrest⟩ := ih
    refine ⟨_, ⟨more + 1, rfl⟩, ?_⟩
    rw [searchFrom, h]
    simp only [dif_neg hlast]
    rw [hrest, c.sent_of_searchPage w h, c.pages_succ w page, List.reverse_cons, List.append_assoc]
    rfl

def IsSearch (w : Window) (sent : List Request) : Prop := ∃ more, sent = c.pages w 1 (more + 1)

theorem sends_search : (c.search w).Sends (c.IsSearch w) := c.sends_searchFrom w 1 []

def AsksTimes (sent : List Request) : Prop := ∀ q ∈ sent, q.path = c.base ++ "/" ++ "blockchain"

theorem sends_blockTimesFrom (times : BlockTimes) (heights : List Height) :
    (c.blockTimesFrom times heights).Sends c.AsksTimes := by
  induction heights generalizing times with
  | nil => exact Calling.sends_pure _ (by simp [AsksTimes])
  | cons h rest ih =>
    rw [blockTimesFrom]
    split
    · exact ih times
    · refine (c.sends_get "blockchain" _ headers?).bind (Q := c.AsksTimes) (fun headers => ?_) ?_
      · split
        · exact Calling.sends_pure _ (by simp [AsksTimes])
        · split
          · exact ih _
          · exact Calling.sends_pure _ (by simp [AsksTimes])
      · rintro _ sent rfl hsent q hq
        rcases List.mem_append.1 hq with hq | hq
        · rw [List.mem_singleton.1 hq]
          rfl
        · exact hsent q hq

theorem sends_blockTimes (heights : List Height) : (c.blockTimes heights).Sends c.AsksTimes :=
  c.sends_blockTimesFrom _ _

def Searches (ws : List Window) (sent : List Request) : Prop :=
  ∃ parts times, List.Forall₂ c.IsSearch ws parts ∧ c.AsksTimes times ∧
    sent = parts.flatten ++ times

theorem searches_nil : c.Searches [] [] := ⟨[], [], .nil, by simp [AsksTimes], rfl⟩

end Client

namespace Source

variable {s : Source} {t : Transport} {before : List Request} {offset next : Height}

def gather (s : Source) (ws : List Window) (next : Height) :
    Calling (Except IndexerError Segment) := do
  match (← ws.mapM s.client.search).mapM id with
  | .error e => return .error e
  | .ok found =>
    let txs := found.flatten
    match ← s.client.blockTimes (txs.map Transaction.height) with
    | .error e => return .error e
    | .ok times => return .ok ⟨inBlockOrder (txs.map (withTime times)), next⟩

theorem fetch_eq (offset : Height) : s.fetch offset = (do
    match ← s.client.latestHeight with
    | .error e => return .error e
    | .ok latest =>
      let ws := windows offset latest s.limit s.windowCount.toNat
      match ws.getLast? with
      | none => return .ok ⟨[], offset⟩
      | some w => s.gather ws (w.last.satAdd 1)) :=
  rfl

theorem sends_gather (next : Height) (ws : List Window) :
    (s.gather ws next).Sends (s.client.Searches ws) := by
  refine (Calling.Sends.mapM s.client.sends_search ws).bind (Q := s.client.AsksTimes)
    (fun results => ?_) ?_
  · split
    · exact Calling.sends_pure _ (by simp [Client.AsksTimes])
    · refine (s.client.sends_blockTimes _).bind (Q := (· = [])) (fun times => ?_) ?_
      · split <;> exact Calling.sends_pure _ rfl
      · rintro times _ htimes rfl
        simpa using htimes
  · rintro _ times ⟨parts, hparts, rfl⟩ htimes
    exact ⟨parts, times, hparts, htimes, rfl⟩

theorem gather_next {ws : List Window} {segment : Segment}
    (h : (s.gather ws next t before).1 = .ok segment) : segment.next = next := by
  rw [gather, Calling.bind_run] at h
  cases hfound : ((ws.mapM s.client.search t before).1).mapM id with
  | error e =>
    simp only [hfound] at h
    cases h
  | ok found =>
    simp only [hfound] at h
    rw [Calling.bind_run] at h
    cases htimes : (s.client.blockTimes (found.flatten.map Transaction.height) t
        (ws.mapM s.client.search t before).2).1 with
    | error e =>
      simp only [htimes] at h
      cases h
    | ok times =>
      simp only [htimes] at h
      cases h
      rfl

theorem fetch_ok {segment : Segment} (h : (s.fetch offset t before).1 = .ok segment) :
    ∃ latest sent, (s.client.latestHeight t before).1 = .ok latest ∧
      (s.fetch offset t before).2 =
        sent.reverse ++ s.client.request "status" [] :: before ∧
      s.client.Searches (windows offset latest s.limit s.windowCount.toNat) sent ∧
      segment.next = ((windows offset latest s.limit s.windowCount.toNat).getLast?.map
        fun w => w.last.satAdd 1).getD offset := by
  rw [fetch_eq, Calling.bind_run] at h ⊢
  have hstatus : (s.client.latestHeight t before).2 = s.client.request "status" [] :: before := rfl
  cases hlatest : (s.client.latestHeight t before).1 with
  | error e =>
    simp only [hlatest] at h
    cases h
  | ok latest =>
    simp only [hlatest, hstatus] at h ⊢
    cases hlast : (windows offset latest s.limit s.windowCount.toNat).getLast? with
    | none =>
      simp only [hlast] at h ⊢
      cases h
      refine ⟨latest, [], rfl, rfl, ?_, by rw [hlast]; rfl⟩
      rw [List.getLast?_eq_none_iff.1 hlast]
      exact s.client.searches_nil
    | some w =>
      simp only [hlast] at h ⊢
      obtain ⟨sent, hsent, hbefore⟩ := s.sends_gather (w.last.satAdd 1)
        (windows offset latest s.limit s.windowCount.toNat) t
        (s.client.request "status" [] :: before)
      exact ⟨latest, sent, rfl, hbefore, hsent, by rw [hlast, gather_next h]; rfl⟩

structure Fetched (s : Source) where
  node : Transport
  before : List Request
  offset : Height
  latest : Height
  next : Height
  reported : (s.client.latestHeight node before).1 = .ok latest
  fetched : (s.fetch offset node before).1.map Segment.next = .ok next

/-- Fetches one after the other, each from where the one before ended. -/
inductive Follows (s : Source) : Height → List s.Fetched → Height → Prop
  | stop (h : Height) : s.Follows h [] h
  | go (f : s.Fetched) {fs : List s.Fetched} {last : Height} (rest : s.Follows f.next fs last) :
    s.Follows f.offset (f :: fs) last

/-- What a fetch asks for when it searches the windows `ws`, and where it ends. -/
structure Fetched.Tiles (f : s.Fetched) (ws : List Window) : Prop where
  searched : ∃ sent, s.client.Searches ws sent ∧
    (s.fetch f.offset f.node f.before).2 =
      sent.reverse ++ s.client.request "status" [] :: f.before
  length_le : ws.length ≤ s.windowCount.val
  first_le : ∀ w ∈ ws, w.first ≤ w.last
  limited : ∀ w ∈ ws, w.last.val - w.first.val + 1 ≤ s.limit.val
  le_latest : ∀ w ∈ ws, w.last ≤ f.latest
  stays_iff : f.next = f.offset ↔ f.latest < f.offset
  next_val : f.offset ≤ f.latest →
    f.next.val = min (f.latest.val + 1) (f.offset.val + s.limit.val * s.windowCount.val)
  heights : ws.flatMap Window.heights =
    List.range' f.offset.toNat (f.next.toNat - f.offset.toNat)

variable {f : s.Fetched}

theorem Fetched.exists_segment :
    ∃ segment, (s.fetch f.offset f.node f.before).1 = .ok segment ∧ segment.next = f.next := by
  have h := f.fetched
  cases hresult : (s.fetch f.offset f.node f.before).1 with
  | error e =>
    rw [hresult] at h
    cases h
  | ok segment =>
    rw [hresult] at h
    exact ⟨segment, rfl, Except.ok.inj h⟩

theorem Fetched.tiles (hlatest : f.latest.val < 18446744073709551615) (hlimit : 1 ≤ s.limit.val)
    (hcount : 1 ≤ s.windowCount.val) : ∃ ws, f.Tiles ws ∧ f.offset ≤ f.next := by
  obtain ⟨segment, hsegment, hnext⟩ := f.exists_segment
  obtain ⟨latest, sent, hreported, hsent, hsearches, hend⟩ := fetch_ok hsegment
  cases f.reported.symm.trans hreported
  have hcount' : (s.windowCount.toNat : Int) = s.windowCount.val := Ranged.toNat_val _
  have hval : f.next.val = afterWindows f.offset f.latest s.limit s.windowCount.toNat := by
    rw [← hnext, hend, windows_end hlatest hlimit (by omega)]
  obtain ⟨hle, hheights⟩ := windows_heights f.offset s.windowCount.toNat hlatest hlimit
  rw [← hval] at hle hheights
  have hroom : 1 ≤ s.limit.val * s.windowCount.val := by
    simpa using Int.mul_le_mul hlimit hcount (by decide) s.limit.lo_le
  rw [afterWindows, hcount'] at hval
  refine ⟨_, {
    searched := ⟨sent, hsearches, hsent⟩
    length_le := hcount' ▸ Int.ofNat_le.2 windows_length
    first_le := fun w hw => (mem_windows hlatest hlimit hw).1
    limited := fun w hw => (mem_windows hlatest hlimit hw).2.2
    le_latest := fun w hw => (mem_windows hlatest hlimit hw).2.1
    stays_iff := ?_
    next_val := fun h => ?_
    heights := hheights }, hle⟩
  · rw [Ranged.ext_iff, hval]
    split
    · simp [*]
    · rename_i h
      simp only [h, iff_false]
      rw [Ranged.lt_def] at h
      omega
  · have hnot : ¬ f.latest < f.offset := Int.not_lt.2 h
    rw [hval, if_neg hnot]

theorem Follows.tiles {first last : Height} {run : List s.Fetched} (hrun : s.Follows first run last)
    (hlatest : ∀ f ∈ run, f.latest.val < 18446744073709551615) (hlimit : 1 ≤ s.limit.val)
    (hcount : 1 ≤ s.windowCount.val) :
    ∃ searched, List.Forall₂ Fetched.Tiles run searched ∧ first ≤ last ∧
      searched.flatten.flatMap Window.heights =
        List.range' first.toNat (last.toNat - first.toNat) := by
  induction hrun with
  | stop h => exact ⟨[], .nil, Int.le_refl _, by simp⟩
  | @go f fs last rest ih =>
    obtain ⟨ws, hws, hstep⟩ := f.tiles (hlatest f List.mem_cons_self) hlimit hcount
    obtain ⟨searched, hsearched, hle, hheights⟩ :=
      ih fun g hg => hlatest g (List.mem_cons_of_mem f hg)
    refine ⟨ws :: searched, .cons hws hsearched, Int.le_trans hstep hle, ?_⟩
    have hnext : f.next.toNat = f.offset.toNat + (f.next.toNat - f.offset.toNat) := by
      have : f.offset.toNat ≤ f.next.toNat := Int.toNat_le_toNat hstep
      omega
    have hlast : f.next.toNat ≤ last.toNat := Int.toNat_le_toNat hle
    rw [List.flatten_cons, List.flatMap_append, hws.heights, hheights, hnext,
      Nat.add_sub_cancel_left, List.range'_append_1]
    congr 1
    omega

theorem of_limit (client : Client) (limit windowCount : Height) :
    (Source.of client limit windowCount).limit.val = max 1 limit.val := by
  simp only [Source.of, Ranged.larger, Height.one_val]
  split
  · omega
  · rw [Height.one_val]
    omega

theorem of_windowCount (client : Client) (limit windowCount : Height) :
    (Source.of client limit windowCount).windowCount.val = max 1 windowCount.val :=
  of_limit client windowCount limit

/-- Consecutive fetches search every height from the first offset up to the last
one once, in order. -/
theorem fetches_tile (client : Client) (limit windowCount : Height) {first last : Height}
    {run : List (Source.of client limit windowCount).Fetched}
    (hrun : (Source.of client limit windowCount).Follows first run last)
    (hlatest : ∀ f ∈ run, f.latest.val < 18446744073709551615) :
    (Source.of client limit windowCount).limit.val = max 1 limit.val ∧
      (Source.of client limit windowCount).windowCount.val = max 1 windowCount.val ∧
      ∃ searched, List.Forall₂ Fetched.Tiles run searched ∧ first ≤ last ∧
        searched.flatten.flatMap Window.heights =
          List.range' first.toNat (last.toNat - first.toNat) := by
  have hlimit := of_limit client limit windowCount
  have hcount := of_windowCount client limit windowCount
  exact ⟨hlimit, hcount, hrun.tiles hlatest (by omega) (by omega)⟩

def pairwise : Source := .of ⟨"http://node"⟩ 2 2

end Source

def Transport.quiet (latest : Nat) : Transport := ⟨fun _ q =>
  let result : Json :=
    if q.params = [] then
      .object [("sync_info", .object [("latest_block_height", .text (toString latest))])]
    else .object [("txs", .list []), ("total_count", .text "0")]
  .response 200 (Json.object [("result", result)]).compact.toUTF8.toList⟩

namespace Source

def ahead : pairwise.Fetched :=
  ⟨.quiet 110, [], 100, 110, 104, by decide +kernel, by decide +kernel⟩

def within : pairwise.Fetched :=
  ⟨.quiet 104, [], 104, 104, 105, by decide +kernel, by decide +kernel⟩

def behind : pairwise.Fetched :=
  ⟨.quiet 90, [], 105, 90, 105, by decide +kernel, by decide +kernel⟩

theorem pairwise_follows : pairwise.Follows 100 [ahead, within, behind] 105 :=
  .go ahead (.go within (.go behind (.stop 105)))

theorem pairwise_tiles :
    pairwise.Follows 100 [ahead, within, behind] 105 ∧
      (∀ f ∈ [ahead, within, behind], f.latest.val < 18446744073709551615) ∧
      ∃ searched, List.Forall₂ Fetched.Tiles [ahead, within, behind] searched ∧
        searched.flatten.flatMap Window.heights = [100, 101, 102, 103, 104] := by
  have hlatest : ∀ f ∈ [ahead, within, behind], f.latest.val < 18446744073709551615 := by
    simp only [List.forall_mem_cons]
    decide
  obtain ⟨-, -, searched, htiles, -, hheights⟩ :=
    fetches_tile ⟨"http://node"⟩ 2 2 pairwise_follows hlatest
  exact ⟨pairwise_follows, hlatest, searched, htiles, hheights⟩

end Source

end PoolLedger.Node
