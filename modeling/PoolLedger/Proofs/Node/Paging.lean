import Mathlib.Algebra.Order.Floor.Div
import PoolLedger.Proofs.Node.Fetching
import PoolLedger.Proofs.Node.Listing

/-! Paging through a window. A search reads one page after the other until a page
is empty or the count it tells is reached. At a node that serves a list in pages
of one size it reads every page of the list and no other. -/

namespace PoolLedger.Node

structure Page where
  count : Height
  found : List Transaction

def Page.Ends (p : Page) (collected : List Transaction) : Prop :=
  p.found = [] ∨ p.count.val ≤ (collected ++ p.found).length

namespace Client

variable {c : Client} {w : Window} {t : Transport} {page : Index} {before : List Request}
  {collected txs : List Transaction} {p last : Page} {earlier : List Page}

def Brings (c : Client) (w : Window) (t : Transport) (page : Index) (before : List Request)
    (p : Page) : Prop :=
  (c.searchPage w page t before).1 = .ok (p.count, p.found)

theorem searchPage_of_brings (h : c.Brings w t page before p) :
    c.searchPage w page t before =
      (.ok (p.count, p.found), c.request "tx_search" (searchParams w page) :: before) :=
  Prod.ext h rfl

theorem searchFrom_last (h : c.Brings w t page before p) (hends : p.Ends collected) :
    c.searchFrom w page collected t before =
      (.ok (collected ++ p.found), c.request "tx_search" (searchParams w page) :: before) := by
  rw [searchFrom, searchPage_of_brings h]
  rw [Page.Ends, ← List.length_eq_zero_iff] at hends
  simp only [dif_pos hends]

theorem searchFrom_more (h : c.Brings w t page before p) (hmore : ¬ p.Ends collected) :
    c.searchFrom w page collected t before =
      c.searchFrom w (page.satAdd 1) (collected ++ p.found) t
        (c.request "tx_search" (searchParams w page) :: before) := by
  rw [searchFrom, searchPage_of_brings h]
  rw [Page.Ends, ← List.length_eq_zero_iff] at hmore
  simp only [dif_neg hmore]

/-- A search from `page` on, after `collected` was found: the pages after which
it goes on, and the last one. -/
inductive Reads (c : Client) (w : Window) (t : Transport) :
    Index → List Transaction → List Request → List Page → Page → Prop
  | last {page : Index} {collected : List Transaction} {before : List Request} {p : Page}
    (brings : c.Brings w t page before p) (ends : p.Ends collected) :
    Reads c w t page collected before [] p
  | more {page : Index} {collected : List Transaction} {before : List Request} {p last : Page}
    {earlier : List Page} (brings : c.Brings w t page before p) (goesOn : ¬ p.Ends collected)
    (rest : Reads c w t (page.satAdd 1) (collected ++ p.found)
      (c.request "tx_search" (searchParams w page) :: before) earlier last) :
    Reads c w t page collected before (p :: earlier) last

theorem Reads.searchFrom_eq (h : c.Reads w t page collected before earlier last) :
    c.searchFrom w page collected t before =
      (.ok (collected ++ (earlier ++ [last]).flatMap Page.found),
        (c.pages w page (earlier.length + 1)).reverse ++ before) := by
  induction h with
  | last brings ends =>
    rw [searchFrom_last brings ends]
    simp [pages]
  | more brings goesOn _ ih =>
    rw [searchFrom_more brings goesOn, ih, List.length_cons, pages_succ _ _ _ (_ + 1)]
    simp

theorem exists_reads (h : (c.searchFrom w page collected t before).1 = .ok txs) :
    ∃ earlier last, c.Reads w t page collected before earlier last := by
  -- the ways a page can go: it fails, it is the last one, or the search goes on
  induction page, collected, before using Client.searchFrom.induct c w t with
  | case1 page collected before e sent hpage =>
    rw [searchFrom, hpage] at h
    cases h
  | case2 page collected before total found sent hpage hends =>
    have hbrings : c.Brings w t page before ⟨total, found⟩ := congrArg Prod.fst hpage
    rw [List.length_eq_zero_iff] at hends
    exact ⟨[], _, .last hbrings hends⟩
  | case3 page collected before total found sent hpage _ hmore ih =>
    have hbrings : c.Brings w t page before ⟨total, found⟩ := congrArg Prod.fst hpage
    rw [List.length_eq_zero_iff] at hmore
    rw [searchFrom_more hbrings hmore] at h
    rw [c.sent_of_searchPage w hpage] at ih
    obtain ⟨earlier, last, hrest⟩ := ih h
    exact ⟨_, last, .more hbrings hmore hrest⟩

theorem Reads.ends_last (h : c.Reads w t page collected before earlier last) :
    last.Ends (collected ++ earlier.flatMap Page.found) := by
  induction h with
  | last _ ends => simpa using ends
  | more _ _ _ ih => simpa using ih

end Client

def pageCount (length size : Nat) : Nat := max 1 (length ⌈/⌉ size)

theorem pageCount_le_iff {length size k : Nat} (hsize : 0 < size) (hk : 1 ≤ k) :
    pageCount length size ≤ k ↔ length ≤ size * k := by
  rw [pageCount, max_le_iff, ceilDiv_le_iff_le_mul hsize]
  exact and_iff_right hk

def listPage (txs : List Transaction) (size k : Nat) : List Transaction :=
  (txs.drop (size * (k - 1))).take size

theorem take_append_listPage (txs : List Transaction) (size : Nat) {k : Nat} (hk : 1 ≤ k) :
    txs.take (size * (k - 1)) ++ listPage txs size k = txs.take (size * k) := by
  obtain ⟨k, rfl⟩ := Nat.exists_eq_add_of_le' hk
  rw [listPage, Nat.add_sub_cancel, ← List.take_add, Nat.mul_succ]

/-- A node serves the transactions of a window in pages of one size, and tells
with each page how many there are. -/
def Transport.Serves (t : Transport) (c : Client) (w : Window) (txs : List Transaction)
    (size : Nat) (count : Height) : Prop :=
  ∀ before (page : Index), 1 ≤ page.toNat → page.toNat ≤ pageCount txs.length size →
    ∃ result, (t.reply before (c.request "tx_search" (searchParams w page))).Holds result ∧
      IsPage result (listPage txs size page.toNat) count

namespace Client

variable {c : Client} {w : Window} {t : Transport} {txs : List Transaction} {size : Nat}
  {count : Height}

theorem ends_listPage_iff {k : Nat} (hsize : 0 < size) (hk : 1 ≤ k)
    (hcount : count.val = txs.length) :
    Page.Ends ⟨count, (listPage txs size k).map .untimed⟩
        ((txs.take (size * (k - 1))).map .untimed) ↔
      pageCount txs.length size ≤ k := by
  have hreached : (txs.take (size * (k - 1))).length + (listPage txs size k).length =
      min (size * k) txs.length := by
    rw [← List.length_append, take_append_listPage txs size hk, List.length_take]
  have hbefore : (txs.take (size * (k - 1))).length = min (size * (k - 1)) txs.length :=
    List.length_take
  have hstep : size * (k - 1) + size = size * k := by
    rw [← Nat.mul_succ, Nat.succ_eq_add_one, Nat.sub_add_cancel hk]
  rw [pageCount_le_iff hsize hk, Page.Ends, List.length_append, List.length_map, List.length_map,
    hreached, List.map_eq_nil_iff, ← List.length_eq_zero_iff, hcount]
  omega

theorem brings_of_serves (h : t.Serves c w txs size count) {page : Index} (hpage : 1 ≤ page.toNat)
    (hle : page.toNat ≤ pageCount txs.length size) (before : List Request) :
    c.Brings w t page before ⟨count, (listPage txs size page.toNat).map .untimed⟩ := by
  obtain ⟨result, hholds, hresult⟩ := h before page hpage hle
  exact searchPage_of_holds hholds hresult

theorem toNat_satAdd_one (page : Index) (h : page.toNat < 4294967295) :
    (page.satAdd 1).toNat = page.toNat + 1 := by
  have hlo := page.lo_le
  have hone : (1 : Index).val = 1 := by decide
  simp only [Ranged.toNat, Ranged.satAdd, Ranged.pull_val, hone] at h ⊢
  omega

theorem searchFrom_of_serves (h : t.Serves c w txs size count) (hsize : 0 < size)
    (hcount : count.val = txs.length) (hpages : pageCount txs.length size < 4294967295)
    (left : Nat) (page : Index) (hpage : 1 ≤ page.toNat)
    (hleft : page.toNat + left = pageCount txs.length size) (before : List Request) :
    c.searchFrom w page ((txs.take (size * (page.toNat - 1))).map .untimed) t before =
      (.ok (txs.map .untimed), (c.pages w page (left + 1)).reverse ++ before) := by
  -- on the pages left after this one; what is collected is always a prefix of the list
  induction left generalizing page before with
  | zero =>
    have hle : pageCount txs.length size ≤ page.toNat := Nat.le_of_eq hleft.symm
    rw [searchFrom_last (brings_of_serves h hpage (by omega) before)
        ((ends_listPage_iff hsize hpage hcount).2 hle),
      ← List.map_append, take_append_listPage txs size hpage,
      List.take_of_length_le ((pageCount_le_iff hsize hpage).1 hle)]
    rfl
  | succ left ih =>
    have hnext := toNat_satAdd_one page (by omega)
    have hrest := ih (page.satAdd 1) (by omega) (by omega)
      (c.request "tx_search" (searchParams w page) :: before)
    rw [hnext, Nat.add_sub_cancel] at hrest
    rw [searchFrom_more (brings_of_serves h hpage (by omega) before)
        (mt (ends_listPage_iff hsize hpage hcount).1 (by omega)),
      ← List.map_append, take_append_listPage txs size hpage, hrest, pages_succ c w page,
      List.reverse_cons, List.append_assoc, List.singleton_append]

theorem length_pages {first : Index} (n : Nat) : (c.pages w first n).length = n := by
  induction n generalizing first with
  | zero => rfl
  | succ n ih => rw [pages_succ, List.length_cons, ih]

/-- A search at a node that serves a list in pages reads as many pages as the
list fills, and at least one, and gives the list. -/
theorem search_gives_served_list (h : t.Serves c w txs size count) (hsize : 0 < size)
    (hcount : count.val = txs.length) (hpages : pageCount txs.length size < 4294967295)
    (before : List Request) :
    c.search w t before =
        (.ok (txs.map .untimed), (c.pages w 1 (pageCount txs.length size)).reverse ++ before) ∧
      (c.pages w 1 (pageCount txs.length size)).length = pageCount txs.length size := by
  have hone : (1 : Index).toNat = 1 := by decide
  have hpos : 1 ≤ pageCount txs.length size := le_max_left 1 _
  refine ⟨?_, length_pages _⟩
  have hall := searchFrom_of_serves h hsize hcount hpages (pageCount txs.length size - 1) 1
    (by rw [hone]) (by rw [hone]; omega) before
  rw [hone, Nat.sub_self, Nat.mul_zero, List.take_zero, Nat.sub_add_cancel hpos] at hall
  exact hall

end Client

def threeTransactions : List Transaction := [
  ⟨"A0", 101, 0, 0, "[]", [10, 1, 255], 0⟩,
  ⟨"B7", 101, 3, 5, "out of gas", [10], 0⟩,
  ⟨"C1", 102, 1, 0, "[\"x\"]", [], 0⟩]

def Transport.inPairs (c : Client) (w : Window) : Transport := ⟨fun _ q =>
  if q = c.request "tx_search" (searchParams w 1) then
    .wrapping (listing (listPage threeTransactions 2 1) 3)
  else .wrapping (listing (listPage threeTransactions 2 2) 3)⟩

theorem inPairs_serves :
    (Transport.inPairs ⟨"http://node"⟩ ⟨100, 109⟩).Serves ⟨"http://node"⟩ ⟨100, 109⟩
      threeTransactions 2 3 := by
  intro before page hpage hle
  have hcount : pageCount threeTransactions.length 2 = 2 := by decide
  have hother : Client.request ⟨"http://node"⟩ "tx_search" (searchParams ⟨100, 109⟩ 2) ≠
      Client.request ⟨"http://node"⟩ "tx_search" (searchParams ⟨100, 109⟩ 1) := by
    decide +kernel
  have hreply : (Transport.inPairs ⟨"http://node"⟩ ⟨100, 109⟩).reply before
      (Client.request ⟨"http://node"⟩ "tx_search" (searchParams ⟨100, 109⟩ page)) =
        .wrapping (listing (listPage threeTransactions 2 page.toNat) 3) := by
    have hval : page.val = 1 ∨ page.val = 2 := by
      have := page.lo_le
      simp only [Ranged.toNat] at hpage hle
      omega
    rcases hval with h | h
    · cases (Ranged.ext h : page = 1)
      simp only [Transport.inPairs, if_true]
      rfl
    · cases (Ranged.ext h : page = 2)
      simp only [Transport.inPairs, if_neg hother]
      rfl
  refine ⟨listing (listPage threeTransactions 2 page.toNat) 3, ?_, isPage_listing _ _⟩
  rw [hreply]
  exact Reply.wrapping_holds _ (plain_listing _ _)

theorem inPairs_gives_three :
    (Transport.inPairs ⟨"http://node"⟩ ⟨100, 109⟩).Serves ⟨"http://node"⟩ ⟨100, 109⟩
        threeTransactions 2 3 ∧
      (0 < 2 ∧ (3 : Height).val = threeTransactions.length ∧
        pageCount threeTransactions.length 2 < 4294967295) ∧
      Client.search ⟨"http://node"⟩ ⟨100, 109⟩ (.inPairs ⟨"http://node"⟩ ⟨100, 109⟩) [] =
        (.ok threeTransactions, [
          Client.request ⟨"http://node"⟩ "tx_search" (searchParams ⟨100, 109⟩ 2),
          Client.request ⟨"http://node"⟩ "tx_search" (searchParams ⟨100, 109⟩ 1)]) :=
  ⟨inPairs_serves, by decide,
    (Client.search_gives_served_list inPairs_serves (by decide) (by decide) (by decide) []).1⟩

end PoolLedger.Node
