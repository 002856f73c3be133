import PoolLedger.Proofs.Asking
import PoolLedger.Proofs.History
import PoolLedger.Proofs.Traverse

/-! Where pools start. A pool with a past starts from its stored state, any other
one from what its contract held before its first change. -/

namespace PoolLedger

open Asking

namespace PoolChange

def leastHeight? (changes : List PoolChange) : Option Height :=
  match changes.map fun c => c.position.height with
  | [] => none
  | h :: hs => some (hs.foldl Ranged.smaller h)

theorem smaller_spec (g h : Height) :
    (g.smaller h = g ∨ g.smaller h = h) ∧ g.smaller h ≤ g ∧ g.smaller h ≤ h := by
  simp only [Ranged.smaller, Ranged.le_def]
  split
  · exact ⟨Or.inr rfl, by omega, by omega⟩
  · exact ⟨Or.inl rfl, by omega, by omega⟩

theorem foldl_smaller (h : Height) (hs : List Height) :
    hs.foldl Ranged.smaller h ∈ h :: hs ∧ ∀ g ∈ h :: hs, hs.foldl Ranged.smaller h ≤ g := by
  induction hs generalizing h with
  | nil => simp [Ranged.le_def]
  | cons g hs ih =>
    obtain ⟨hm, hl⟩ := ih (h.smaller g)
    obtain ⟨hone, hleft, hright⟩ := smaller_spec h g
    have hle := hl _ List.mem_cons_self
    rw [List.foldl_cons]
    constructor
    · rcases List.mem_cons.1 hm with hm | hm
      · rw [hm]
        rcases hone with he | he <;> rw [he] <;> simp
      · exact List.mem_cons_of_mem _ (List.mem_cons_of_mem _ hm)
    · intro x hx
      simp only [List.mem_cons] at hx
      simp only [Ranged.le_def] at *
      rcases hx with rfl | rfl | hx
      · omega
      · omega
      · exact hl x (List.mem_cons_of_mem _ hx)

theorem leastHeight?_eq_some {changes : List PoolChange} {h : Height} :
    leastHeight? changes = some h ↔
      (∃ c ∈ changes, c.position.height = h) ∧ ∀ c ∈ changes, h ≤ c.position.height := by
  cases changes with
  | nil => simp [leastHeight?]
  | cons c changes =>
    obtain ⟨hm, hl⟩ := foldl_smaller c.position.height (changes.map fun c => c.position.height)
    have hm' : ∃ d ∈ c :: changes, d.position.height =
        (changes.map fun c => c.position.height).foldl Ranged.smaller c.position.height := by
      rw [← List.map_cons (f := fun c : PoolChange => c.position.height)] at hm
      exact List.mem_map.1 hm
    have hl' : ∀ d ∈ c :: changes,
        (changes.map fun c => c.position.height).foldl Ranged.smaller c.position.height ≤
          d.position.height := by
      intro d hd
      apply hl
      rw [← List.map_cons (f := fun c : PoolChange => c.position.height)]
      exact List.mem_map_of_mem hd
    simp only [leastHeight?, List.map_cons, Option.some.injEq]
    constructor
    · rintro rfl
      exact ⟨hm', hl'⟩
    · rintro ⟨⟨d, hd, rfl⟩, h⟩
      obtain ⟨e, he, hem⟩ := hm'
      have h₁ := hl' d hd
      have h₂ := h e he
      rw [hem] at h₂
      simp only [Ranged.le_def] at h₁ h₂
      exact Ranged.ext (by omega)

theorem leastHeight?_eq_none {changes : List PoolChange} :
    leastHeight? changes = none ↔ changes = [] := by
  cases changes <;> simp [leastHeight?]

theorem exists_leastHeight {changes : List PoolChange} (h : changes ≠ []) :
    ∃ g, leastHeight? changes = some g :=
  Option.ne_none_iff_exists'.1 fun hn => h (leastHeight?_eq_none.1 hn)

theorem leastHeight?_congr {xs ys : List PoolChange} (h : ∀ c, c ∈ xs ↔ c ∈ ys) :
    leastHeight? xs = leastHeight? ys := by
  apply Option.ext
  intro g
  rw [leastHeight?_eq_some, leastHeight?_eq_some]
  simp only [h]

theorem leastHeight?_ofPool_append {swaps swaps' : List Swap}
    {liquidity liquidity' : List LiquidityChange} {o : Height} {a : String}
    (hb : ∀ c ∈ all swaps liquidity, c.position.height < o)
    (ha : ∀ c ∈ all swaps' liquidity', o ≤ c.position.height) :
    leastHeight? (ofPool (swaps ++ swaps') (liquidity ++ liquidity') a) =
      (leastHeight? (ofPool swaps liquidity a)).or (leastHeight? (ofPool swaps' liquidity' a)) := by
  by_cases he : ofPool swaps liquidity a = []
  · rw [leastHeight?_eq_none.2 he, Option.none_or]
    exact leastHeight?_congr fun c => by simp [mem_ofPool_append, he]
  · obtain ⟨h, hl⟩ := exists_leastHeight he
    rw [hl, Option.some_or]
    rw [leastHeight?_eq_some] at hl ⊢
    obtain ⟨⟨c, hc, hch⟩, hmin⟩ := hl
    refine ⟨⟨c, mem_ofPool_append.2 (.inl hc), hch⟩, fun d hd => ?_⟩
    rcases mem_ofPool_append.1 hd with hd | hd
    · exact hmin d hd
    · have h₁ := hb c (mem_ofPool.1 hc).1
      have h₂ := ha d (mem_ofPool.1 hd).1
      rw [hch] at h₁
      simp only [Ranged.le_def, Ranged.lt_def] at *
      omega

end PoolChange

/-- What the contract of a pool held before a height, as far as it tells. -/
def Querier.reservesBefore (k : Querier) (pair : Pair) (address : String) (first : Height) :
    Reserves :=
  match k.answer [] (.pool address (some (Snapshot.seedHeight first))) with
  | .ok report => .ofReport pair report
  | .error _ => .none

/-- The same, as told after some questions. -/
def Querier.reservesTold (k : Querier) (asked : List Query) (pair : Pair) (address : String)
    (first : Height) : Reserves :=
  match k.answer asked (.pool address (some (Snapshot.seedHeight first))) with
  | .ok report => .ofReport pair report
  | .error _ => .none

theorem Querier.Steady.reservesTold_eq {k : Querier} (hk : k.Steady) (asked : List Query)
    (pair : Pair) (address : String) (first : Height) :
    k.reservesTold asked pair address first = k.reservesBefore pair address first := by
  rw [reservesTold, reservesBefore, hk asked []]

namespace Snapshot

variable {k : Querier} {r : Registry}

theorem mem_minHeights {swaps : List Swap} {liquidity : List LiquidityChange} {a : String}
    {h : Height} :
    (a, h) ∈ minHeights r swaps liquidity ↔
      (r.byAddress? a).isSome ∧
        PoolChange.leastHeight? (PoolChange.ofPool swaps liquidity a) = some h := by
  have hleast (changes : List PoolChange) (b : String) :
      (match changes.map fun c => c.position.height with
        | [] => none
        | h :: hs => some (b, hs.foldl Ranged.smaller h)) = some (a, h) ↔
        b = a ∧ PoolChange.leastHeight? changes = some h := by
    cases changes <;> simp [PoolChange.leastHeight?]
  simp only [minHeights, List.mem_filterMap, Ascending.mem_ofList, List.mem_map, List.mem_filter]
  constructor
  · rintro ⟨b, ⟨c, ⟨-, hc⟩, rfl⟩, hb⟩
    obtain ⟨rfl, hl⟩ := (hleast _ _).1 hb
    rw [filter_registered hc] at hl
    exact ⟨hc, hl⟩
  · rintro ⟨ha, hl⟩
    obtain ⟨c, hc, -⟩ := (PoolChange.leastHeight?_eq_some.1 hl).1
    obtain ⟨hca, rfl⟩ := PoolChange.mem_ofPool.1 hc
    refine ⟨_, ⟨c, ⟨hca, ha⟩, rfl⟩, (hleast _ _).2 ⟨rfl, ?_⟩⟩
    rwa [filter_registered ha]

def ofReserves (address : String) (first : Height) (reserves : Reserves) : Snapshot :=
  let s := PoolState.ofReserves reserves
  .of address s.base s.quote s.totalShare (seedHeight first) 0

theorem coldSeed_fst (a : String) (h : Height) (asked : List Query) :
    (coldSeed r a h k asked).1 =
      (r.byAddress? a).map fun pair => (a, ofReserves a h (k.reservesTold asked pair a h)) := by
  unfold coldSeed
  rw [bind_fst]
  cases r.byAddress? a with
  | none => rfl
  | some pair =>
    have hanswer : (ask (.pool a (some (seedHeight h))) k asked).1 =
        k.answer asked (.pool a (some (seedHeight h))) := rfl
    rw [Option.map_some, ofReserves, Querier.reservesTold, hanswer]
    cases k.answer asked (.pool a (some (seedHeight h))) <;> rfl

theorem coldSeed_settled (hk : k.Steady) (a : String) (h : Height) : Settled k (coldSeed r a h) := by
  unfold coldSeed
  refine (settled_ask hk _).bind ?_
  split
  · exact settled_pure _
  · exact settled_pure _

end Snapshot

theorem Seeds.exists_find? {seeds : Seeds} {a : String} {x : Snapshot} (hm : (a, x) ∈ seeds) :
    ∃ y, (a, y) ∈ seeds ∧ seeds.find? a = some y := by
  cases hf : seeds.reverse.find? fun s => s.1 = a with
  | none => simpa using List.find?_eq_none.1 hf _ (List.mem_reverse.2 hm)
  | some e =>
    obtain rfl : e.1 = a := by simpa using List.find?_some hf
    exact ⟨e.2, List.mem_reverse.1 (List.mem_of_find?_eq_some hf), by rw [find?, hf]; rfl⟩

namespace Snapshot

section Resolve

variable {stored : String → Height → Except IndexerError (Option Snapshot)}
  {first : List (String × Height)} {seeds : Seeds}

theorem resolveSeeds_settled (hk : k.Steady) : Settled k (resolveSeeds r stored first) := by
  unfold resolveSeeds
  split
  · exact settled_pure _
  · exact (Settled.mapM _ fun e _ => coldSeed_settled hk e.1 e.2.1).1.bind (settled_pure _)

def known (stored : String → Height → Except IndexerError (Option Snapshot))
    (first : List (String × Height)) :
    Except IndexerError (List (String × Height × Option Snapshot)) :=
  first.mapM fun (a, h) => (stored a h).map fun s => (a, h, s)

theorem resolveSeeds_of_known {found : List (String × Height × Option Snapshot)}
    (hf : known stored first = .ok found) :
    resolveSeeds r stored first = do
      let cold ← (found.filter fun (_, _, s) => s.isNone).mapM fun (a, h, _) => coldSeed r a h
      return .ok ((found.filterMap fun (a, _, s) => s.map fun s => (a, s)) ++
        cold.filterMap id) := by
  unfold known at hf
  unfold resolveSeeds
  rw [hf]

theorem resolveSeeds_of_unread {e : IndexerError} (hf : known stored first = .error e) :
    resolveSeeds r stored first = return .error e := by
  unfold known at hf
  unfold resolveSeeds
  rw [hf]

theorem resolveSeeds_congr {stored' : String → Height → Except IndexerError (Option Snapshot)}
    (h : ∀ a g, (a, g) ∈ first → stored' a g = stored a g) :
    resolveSeeds r stored' first = resolveSeeds r stored first := by
  have hknown : known stored' first = known stored first := by
    apply Traverse.mapM_congr
    rintro ⟨a, g⟩ hm
    simp only
    rw [h a g hm]
  cases hf : known stored first with
  | error e => rw [resolveSeeds_of_unread hf, resolveSeeds_of_unread (hknown.trans hf)]
  | ok found => rw [resolveSeeds_of_known hf, resolveSeeds_of_known (hknown.trans hf)]

theorem mem_known {found : List (String × Height × Option Snapshot)}
    (hf : known stored first = .ok found) {a : String} {h : Height} {s : Option Snapshot} :
    (a, h, s) ∈ found ↔ (a, h) ∈ first ∧ stored a h = .ok s := by
  rw [Traverse.mem_of_mapM_ok hf]
  constructor
  · rintro ⟨⟨b, g⟩, hm, he⟩
    cases hs : stored b g with
    | error e => simp [hs, Except.map] at he
    | ok s' =>
      simp only [hs, Except.map, Except.ok.injEq, Prod.mk.injEq] at he
      obtain ⟨rfl, rfl, rfl⟩ := he
      exact ⟨hm, hs⟩
  · rintro ⟨hm, hs⟩
    exact ⟨(a, h), hm, by simp [hs, Except.map]⟩

section Told

variable {asked : List Query} (hv : (resolveSeeds r stored first k asked).1 = .ok seeds)
  {a : String} {h : Height}
include hv

theorem exists_seeds : ∃ found : List (String × Height × Option Snapshot),
    known stored first = .ok found ∧
      seeds = (found.filterMap fun e => e.2.2.map fun s => (e.1, s)) ++
        ((found.filter fun e => e.2.2.isNone).mapM (fun e => coldSeed r e.1 e.2.1) k
          asked).1.filterMap id := by
  cases hf : known stored first with
  | error e =>
    rw [resolveSeeds_of_unread hf] at hv
    cases hv
  | ok found =>
    rw [resolveSeeds_of_known hf, bind_fst] at hv
    exact ⟨found, rfl, (Except.ok.inj hv).symm⟩

theorem mem_seeds {x : Snapshot} (hx : (a, x) ∈ seeds) : ∃ h, (a, h) ∈ first ∧
    (stored a h = .ok (some x) ∨ stored a h = .ok none ∧ ∃ before pair,
      r.byAddress? a = some pair ∧ x = ofReserves a h (k.reservesTold before pair a h)) := by
  obtain ⟨found, hf, rfl⟩ := exists_seeds hv
  rcases List.mem_append.1 hx with hx | hx
  · obtain ⟨⟨b, h, s⟩, hm, hs⟩ := List.mem_filterMap.1 hx
    obtain ⟨y, rfl, hy⟩ := Option.map_eq_some_iff.1 hs
    cases hy
    obtain ⟨hm, hs⟩ := (mem_known hf).1 hm
    exact ⟨h, hm, .inl hs⟩
  · obtain ⟨v, hv, rfl⟩ := List.mem_filterMap.1 hx
    obtain ⟨⟨b, h, s⟩, hm, before, hcold⟩ := exists_of_mem_mapM hv
    obtain ⟨hm, hs⟩ := List.mem_filter.1 hm
    obtain rfl := Option.isNone_iff_eq_none.1 hs
    obtain ⟨pair, hp, hx⟩ := Option.map_eq_some_iff.1 ((coldSeed_fst b h before).symm.trans hcold.symm)
    cases hx
    obtain ⟨hm, hs⟩ := (mem_known hf).1 hm
    exact ⟨h, hm, .inr ⟨hs, before, pair, hp, rfl⟩⟩

theorem exists_stored (hm : (a, h) ∈ first) : ∃ s, stored a h = .ok s := by
  obtain ⟨found, hf, -⟩ := exists_seeds hv
  obtain ⟨y, hy⟩ := Traverse.exists_ok_of_mapM hf hm
  cases hs : stored a h with
  | error e => simp [hs, Except.map] at hy
  | ok s => exact ⟨s, rfl⟩

theorem exists_mem_seeds (hm : (a, h) ∈ first) {pair : Pair} (hp : r.byAddress? a = some pair) :
    ∃ x, (a, x) ∈ seeds := by
  obtain ⟨s, hs⟩ := exists_stored hv hm
  obtain ⟨found, hf, rfl⟩ := exists_seeds hv
  have hfound : (a, h, s) ∈ found := (mem_known hf).2 ⟨hm, hs⟩
  cases s with
  | some x => exact ⟨x, List.mem_append_left _ (List.mem_filterMap.2 ⟨_, hfound, rfl⟩)⟩
  | none =>
    have hm : (a, h, none) ∈ found.filter fun e => e.2.2.isNone := List.mem_filter.2 ⟨hfound, rfl⟩
    obtain ⟨before, hcold⟩ := exists_mem_mapM (k := k) (f := fun e => coldSeed r e.1 e.2.1) hm asked
    rw [coldSeed_fst, hp] at hcold
    exact ⟨_, List.mem_append_right _ (List.mem_filterMap.2 ⟨_, hcold, rfl⟩)⟩

theorem exists_state_resolveSeeds (hm : (a, h) ∈ first) (hone : ∀ g, (a, g) ∈ first → g = h)
    {pair : Pair} (hp : r.byAddress? a = some pair) :
    ∃ s before, stored a h = .ok s ∧ seeds.state a =
      (s.map PoolState.ofSnapshot).getD (.ofReserves (k.reservesTold before pair a h)) := by
  obtain ⟨x, hx⟩ := exists_mem_seeds hv hm hp
  obtain ⟨y, hy, hfind⟩ := Seeds.exists_find? hx
  obtain ⟨g, hg, hstored⟩ := mem_seeds hv hy
  obtain rfl := hone g hg
  rw [Seeds.state, hfind]
  rcases hstored with hs | ⟨hs, before, pair', hp', rfl⟩
  · exact ⟨some y, [], hs, rfl⟩
  · obtain rfl := Option.some.inj (hp.symm.trans hp')
    exact ⟨none, before, hs, rfl⟩

end Told

end Resolve

end Snapshot

end PoolLedger
