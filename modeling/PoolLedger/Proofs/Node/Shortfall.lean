import PoolLedger.Proofs.Node.Course

/-! Transactions that a node counts but does not list. A search that meets an
empty page ends there and succeeds, whatever count the page tells. So the
segment goes on after heights of which transactions are missing. -/

namespace PoolLedger.Node

theorem Course.segment_perm (k : Course) (offset : Height) (times : BlockTimes) :
    ((k.segment offset times).transactions.map Transaction.untimed).Perm
      (k.found.map Transaction.untimed) := by
  rw [← map_untimed_withTime times k.found]
  exact (List.mergeSort_perm _ _).map _

structure Transport.Withholds (t : Transport) (c : Client) (latest count : Height) : Prop where
  status : ∀ before, (c.latestHeight t before).1 = .ok latest
  empty : ∀ w before, c.Brings w t 1 before ⟨count, []⟩
  pos : 0 < count.val

namespace Transport.Withholds

variable {t : Transport} {c : Client} {s : Source} {latest count offset : Height}

theorem exists_searched (h : t.Withholds c latest count) (ws : List Window)
    (before : List Request) :
    ∃ ps sent, c.Searched t before ps sent ∧ ps.map Paging.window = ws ∧
      (∀ p ∈ ps, ¬ p.Complete) ∧ ps.flatMap Paging.brought = [] := by
  induction ws generalizing before with
  | nil => exact ⟨[], before, .nil before, rfl, by simp, rfl⟩
  | cons w ws ih =>
    have hran : Paging.Ran c t ⟨w, before, [], ⟨count, []⟩⟩ := .last (h.empty w before) (.inl rfl)
    have hshort : ¬ Paging.Complete ⟨w, before, [], ⟨count, []⟩⟩ := by
      have := h.pos
      simp only [Paging.Complete, Paging.brought]
      simpa using this
    obtain ⟨ps, sent, hps, rfl, hnone, hbrought⟩ := ih (Paging.after c ⟨w, before, [], ⟨count, []⟩⟩)
    refine ⟨_ :: ps, sent, .cons hran hps, rfl, by simpa using ⟨hshort, hnone⟩, ?_⟩
    rw [List.flatMap_cons, hbrought]
    rfl

theorem passes_over (h : t.Withholds s.client latest count) (hoffset : offset ≤ latest)
    (hlatest : latest.val < 18446744073709551615) (hlimit : 1 ≤ s.limit.val)
    (hcount : 1 ≤ s.windowCount.val) (before : List Request) :
    ∃ k : Course, k.Taken s t before offset ∧ k.found = [] ∧ offset < k.next offset ∧
      k.pagings ≠ [] ∧ ∀ p ∈ k.pagings, ¬ p.Complete := by
  obtain ⟨ps, sent, hps, hwindows, hshort, hbrought⟩ := h.exists_searched
    (windows offset latest s.limit s.windowCount.toNat) (s.client.request "status" [] :: before)
  have hnext : offset < (ps.getLast?.map fun p => p.window.last.satAdd 1).getD offset := by
    have hcount' : (s.windowCount.toNat : Int) = s.windowCount.val := Ranged.toNat_val _
    have hroom : 1 ≤ s.limit.val * s.windowCount.val := by
      simpa using Int.mul_le_mul hlimit hcount (by decide) s.limit.lo_le
    have hend : _ = afterWindows offset latest s.limit s.windowCount.toNat :=
      windows_end hlatest hlimit (by omega)
    have hnot : ¬ latest < offset := Int.not_lt.2 hoffset
    rw [← hwindows, List.getLast?_map, Option.map_map, afterWindows, if_neg hnot, hcount'] at hend
    rw [Ranged.le_def] at hoffset
    change offset.val < Ranged.val (Option.getD (ps.getLast?.map _) offset)
    exact hend ▸ (by omega)
  have hne : ps ≠ [] := by
    rintro rfl
    exact Int.lt_irrefl _ hnext
  exact ⟨⟨latest, ps, sent⟩, ⟨h.status before, hwindows, hps⟩, hbrought, hnext, hne, hshort⟩

end Transport.Withholds

/-- A search succeeds with whatever its pages brought, and falls short of the
count that its last page tells exactly when that page is empty and comes before
the count is reached. A fetch succeeds over any such searches, so it goes on
after the windows of a node that tells of transactions and lists none. -/
theorem Source.fetch_passes_over_empty_pages (s : Source) (t : Transport) :
    (∀ w before txs, (s.client.search w t before).1 = .ok txs ↔
      ∃ p : Paging, p.Ran s.client t ∧ p.window = w ∧ p.before = before ∧ p.brought = txs) ∧
    (∀ p : Paging, p.Ran s.client t → (p.Complete ↔
      p.last.found ≠ [] ∨ p.last.count.val ≤ (p.earlier.flatMap Page.found).length)) ∧
    (∀ before offset segment, (s.fetch offset t before).1 = .ok segment →
      ∃ k : Course, k.Taken s t before offset ∧ (∀ p ∈ k.pagings, p.Ran s.client t) ∧
        (segment.transactions.map Transaction.untimed).Perm (k.found.map .untimed) ∧
        segment.next = k.next offset) ∧
    (∀ latest count offset before, t.Withholds s.client latest count → offset ≤ latest →
      latest.val < 18446744073709551615 → 1 ≤ s.limit.val → 1 ≤ s.windowCount.val →
      ∃ k : Course, k.Taken s t before offset ∧ (∀ p ∈ k.pagings, ¬ p.Complete) ∧
        k.pagings ≠ [] ∧ offset < k.next offset ∧
        (s.fetch offset t before).1 = .ok ⟨[], k.next offset⟩) := by
  refine ⟨fun _ _ _ => Paging.search_ok_iff, fun _ hp => hp.complete_iff, ?_, ?_⟩
  · intro before offset segment h
    obtain ⟨k, times, hk, -, rfl⟩ := exists_taken h
    exact ⟨k, hk, hk.searches.forall_ran, k.segment_perm offset times, rfl⟩
  · intro latest count offset before h hoffset hlatest hlimit hcount
    obtain ⟨k, hk, hfound, hnext, hne, hshort⟩ :=
      h.passes_over hoffset hlatest hlimit hcount before
    refine ⟨k, hk, hshort, hne, hnext, ?_⟩
    have htimes : (s.client.blockTimes (k.found.map Transaction.height) t k.searched).1 =
        .ok [] := by
      rw [hfound]
      rfl
    have hsegment : k.segment offset [] = ⟨[], k.next offset⟩ := by
      rw [Course.segment, hfound, List.map_nil, inBlockOrder, List.mergeSort_nil]
    rw [fetch_of_taken hk, htimes, ← hsegment]
    rfl

def Transport.withholding (latest count : Height) : Transport := ⟨fun _ q =>
  if q.params = [] then .wrapping (statusResult latest) else .wrapping (listing [] count)⟩

theorem withholding_withholds (c : Client) (latest count : Height) (h : 0 < count.val) :
    (Transport.withholding latest count).Withholds c latest count where
  status _ := latestHeight_of_holds (Reply.wrapping_holds (statusResult latest) rfl) rfl
  empty _ _ := searchPage_of_holds
    (Reply.wrapping_holds (listing [] count) (plain_listing [] count)) (isPage_listing [] count)
  pos := h

theorem five_withheld_are_passed_over :
    (Transport.withholding 110 5).Withholds ⟨"http://node"⟩ 110 5 ∧
      (100 : Height) ≤ 110 ∧ (110 : Height).val < 18446744073709551615 ∧
      1 ≤ (Source.of ⟨"http://node"⟩ 100 1).limit.val ∧
      1 ≤ (Source.of ⟨"http://node"⟩ 100 1).windowCount.val ∧
      ∃ k : Course, k.Taken (.of ⟨"http://node"⟩ 100 1) (.withholding 110 5) [] 100 ∧
        (∀ p ∈ k.pagings, ¬ p.Complete) ∧ k.pagings ≠ [] ∧ 100 < k.next 100 ∧
        ((Source.of ⟨"http://node"⟩ 100 1).fetch 100 (.withholding 110 5) []).1 =
          .ok ⟨[], k.next 100⟩ := by
  have hnode := withholding_withholds ⟨"http://node"⟩ 110 5 (by decide)
  obtain ⟨-, -, -, hpasses⟩ :=
    Source.fetch_passes_over_empty_pages (.of ⟨"http://node"⟩ 100 1) (.withholding 110 5)
  exact ⟨hnode, by decide, by decide, by decide, by decide,
    hpasses 110 5 100 [] hnode (by decide) (by decide) (by decide) (by decide)⟩

end PoolLedger.Node
