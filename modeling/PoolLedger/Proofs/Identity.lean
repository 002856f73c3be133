import PoolLedger.Proofs.Reordering

/-! Identity by keys. Rows are dropped, replaced and counted by their keys alone, so a key must
not name two things. The keys of snapshots, candles and yields never do, those of events only
where a dash stands in a denom. -/

namespace PoolLedger

theorem Snapshot.of_key_eq_iff {a b : String} {x y z x' y' z' : Balance} {g h : Height}
    {t u : Timestamp} :
    (of a x y z g t).uniqueKey = (of b x' y' z' h u).uniqueKey ↔ t = u ∧ a = b :=
  timeKey_inj

theorem Apr.record_key_eq_iff {m n : Market} {g h : Height} {t u : Timestamp} {p q : Pair}
    {i j : Inputs} :
    (record m g t p i).uniqueKey = (record n h u q j).uniqueKey ↔ g = h ∧ p.address = q.address :=
  heightKey_inj

namespace Candle

variable {xs ys : List Swap} {cs ds : List Candle} {c d : Candle}

theorem uniqueKey_of_build? (h : build? xs = some cs) (hc : c ∈ cs) :
    c.uniqueKey = timeKey c.timestamp c.pairKey := by
  obtain ⟨b, hb⟩ := ((build?_eq_some h).2 c).1 hc
  obtain ⟨rfl, -⟩ := counts_of_bucket hb
  exact (ofBucket?_eq_some hb List.mem_cons_self).2

theorem key_eq_iff (hcs : build? xs = some cs) (hds : build? ys = some ds) (hc : c ∈ cs)
    (hd : d ∈ ds) :
    c.uniqueKey = d.uniqueKey ↔ c.timestamp = d.timestamp ∧ c.pairKey = d.pairKey := by
  rw [uniqueKey_of_build? hcs hc, uniqueKey_of_build? hds hd, timeKey_inj]

end Candle

/-- What a key names can be read off the key: an event without a dash in its first denom, and
its height in any case; a pair without a dash in its base; and any snapshot, candle and yield,
whatever their pairs are called and whenever they are from. -/
theorem keys_tell_what_they_name :
    (∀ (g h : Height) (c c' d d' : String) (a a' b b' : Amount),
      '-' ∉ c.toList → '-' ∉ c'.toList →
        (eventKey g c a d b = eventKey h c' a' d' b' ↔
          g = h ∧ c = c' ∧ a = a' ∧ d = d' ∧ b = b')) ∧
    (∀ (g h : Height) (c c' d d' : String) (a a' b b' : Amount),
      eventKey g c a d b = eventKey h c' a' d' b' → g = h) ∧
    (∀ p q : Pair, '-' ∉ p.base.denom.toList → '-' ∉ q.base.denom.toList →
      (p.key = q.key ↔ p.base.denom = q.base.denom ∧ p.quote.denom = q.quote.denom)) ∧
    (∀ (a b : String) (x y z x' y' z' : Balance) (g h : Height) (t u : Timestamp),
      (Snapshot.of a x y z g t).uniqueKey = (Snapshot.of b x' y' z' h u).uniqueKey ↔
        t = u ∧ a = b) ∧
    (∀ (xs ys : List Swap) (cs ds : List Candle), Candle.build? xs = some cs →
      Candle.build? ys = some ds → ∀ c ∈ cs, ∀ d ∈ ds,
        (c.uniqueKey = d.uniqueKey ↔ c.timestamp = d.timestamp ∧ c.pairKey = d.pairKey)) ∧
    ∀ (m n : Market) (g h : Height) (t u : Timestamp) (p q : Pair) (i j : Apr.Inputs),
      (Apr.record m g t p i).uniqueKey = (Apr.record n h u q j).uniqueKey ↔
        g = h ∧ p.address = q.address := by
  refine ⟨fun _ _ _ _ _ _ _ _ _ _ => eventKey_eq_iff, fun g h c c' d d' a a' b b' heq => ?_,
    fun _ _ => Pair.key_eq_iff, fun _ _ _ _ _ _ _ _ _ _ _ _ => Snapshot.of_key_eq_iff,
    fun _ _ _ _ hcs hds _ hc _ hd => Candle.key_eq_iff hcs hds hc hd,
    fun _ _ _ _ _ _ _ _ _ _ => Apr.record_key_eq_iff⟩
  rw [eventKey_eq_heightKey, eventKey_eq_heightKey] at heq
  exact (heightKey_inj.1 heq).1

def longAgo : Timestamp := ⟨-60, by decide, by decide⟩

theorem Candle.exists_of_build? {x : Swap} (h : (build? [x]).map (List.map Candle.timestamp) =
    some [x.timestamp]) : ∃ c, build? [x] = some [c] ∧ c.timestamp = x.timestamp := by
  obtain ⟨cs, hcs, htimes⟩ := Option.map_eq_some_iff.1 h
  obtain ⟨c, rfl, hc⟩ := List.map_eq_singleton_iff.1 htimes
  exact ⟨c, hcs, hc⟩

open Sample in
theorem dashed_names_told_apart :
    '-' ∉ "orai".toList ∧
      eventKey 7 "orai" 1 "a-2" 3 ≠ eventKey 7 "orai" 1 "a" 23 ∧
      eventKey 7 "a-1-b" 2 "c" 3 ≠ eventKey 8 "a" 1 "b-2-c" 3 ∧
      Pair.key (.unlisted (.native "orai") (.token "a-b") "" "") ≠
        Pair.key (.unlisted (.native "orai") (.token "a") "" "") ∧
      (Snapshot.of "1-pool" 1 2 3 9 longAgo).uniqueKey ≠
        (Snapshot.of "pool" 1 2 3 9 601).uniqueKey ∧
      (∃ c d, Candle.build? [sold 0] = some [c] ∧
        Candle.build? [{ sold 0 with timestamp := longAgo }] = some [d] ∧
        c.uniqueKey ≠ d.uniqueKey) ∧
      (Apr.record ⟨indexer.registry, []⟩ 7 0 { pair with address := "1-pool" }
          .none).uniqueKey ≠
        (Apr.record ⟨indexer.registry, []⟩ 71 0 pair .none).uniqueKey := by
  obtain ⟨hevents, hheights, hpairs, hsnapshots, hcandles, hyields⟩ := keys_tell_what_they_name
  have horai : '-' ∉ "orai".toList := by decide +kernel
  obtain ⟨c, hc, hctime⟩ := Candle.exists_of_build? (x := sold 0) (by decide +kernel)
  obtain ⟨d, hd, hdtime⟩ := Candle.exists_of_build?
    (x := { sold 0 with timestamp := longAgo }) (by decide +kernel)
  refine ⟨horai, fun h => ?_, fun h => ?_, fun h => ?_, fun h => ?_, ⟨c, d, hc, hd, fun h => ?_⟩,
    fun h => ?_⟩
  · exact absurd ((hevents _ _ _ _ _ _ _ _ _ _ horai horai).1 h) (by decide)
  · exact absurd (hheights _ _ _ _ _ _ _ _ _ _ h) (by decide)
  · exact absurd ((hpairs _ _ (by decide +kernel) (by decide +kernel)).1 h).2 (by decide)
  · exact absurd ((hsnapshots _ _ _ _ _ _ _ _ _ _ _ _).1 h).1 (by decide)
  · have htimes := ((hcandles _ _ _ _ hc hd c List.mem_cons_self d List.mem_cons_self).1 h).1
    rw [hctime, hdtime] at htimes
    exact absurd htimes (by decide)
  · exact absurd ((hyields _ _ _ _ _ _ _ _ _ _).1 h).1 (by decide)

end PoolLedger
