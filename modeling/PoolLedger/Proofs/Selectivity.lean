import Mathlib.Algebra.BigOperators.Group.List.Basic
import Mathlib.Data.List.Nodup
import PoolLedger.Proofs.Ingestion
import PoolLedger.Proofs.Renewal

/-! Which yields a batch renews, and what it asks for them. Where addresses and LP
tokens tell pairs apart, the events of a batch renew exactly the pairs they
concern, and each of these is asked once for each input they made stale, whatever
is answered. The pools are asked once for each address when a pair is renewed, and
else nothing is asked. -/

namespace PoolLedger

open Asking

namespace Asking

theorem Asks.asked_eq {α : Type} {P : Query → Prop} {p : Asking α} (h : Asks P p) (k : Querier)
    (before : List Query) :
    (p k before).2 = ((said k before p).map Said.question).reverse ++ before := by
  have htold : k.told (p k before).2 = k.told before ++ said k before p := h.told.1
  have hquestions := congrArg (fun said => (said.map Said.question).reverse) htold
  simpa [Querier.questions_told] using hquestions

end Asking

namespace Registry

/-- No address and no LP token that is known belongs to two pairs. -/
structure Distinct (r : Registry) : Prop where
  addresses : ((r.pairs.map Pair.address).filter (· ≠ "")).Nodup
  lpTokens : ((r.pairs.map Pair.lpToken).filter (· ≠ "")).Nodup

variable {r : Registry} {p q : Pair} {name : String}

theorem nodup_named {f : Pair → String} {pairs : List Pair}
    (h : ((pairs.map f).filter (· ≠ "")).Nodup) :
    ((pairs.filter fun p => f p ≠ "").map f).Nodup := by
  rwa [List.filter_map] at h

theorem eq_of_named {f : Pair → String} {pairs : List Pair}
    (h : ((pairs.map f).filter (· ≠ "")).Nodup) (hp : p ∈ pairs) (hq : q ∈ pairs)
    (hne : f p ≠ "") (heq : f p = f q) : p = q := by
  have hmem (x : Pair) (hx : x ∈ pairs) (hxne : f x ≠ "") : x ∈ pairs.filter fun p => f p ≠ "" :=
    List.mem_filter.2 ⟨hx, decide_eq_true hxne⟩
  exact List.inj_on_of_nodup_map (nodup_named h) (hmem p hp hne) (hmem q hq (heq ▸ hne)) heq

theorem isSome_byAddress? : (r.byAddress? name).isSome ↔
    name ≠ "" ∧ ∃ p ∈ r.pairs, p.address = name := by
  unfold byAddress?
  split
  · rename_i hempty
    simp [hempty]
  · rename_i hne
    simp [hne]

theorem of_byLpToken? (h : r.byLpToken? name = some p) :
    name ≠ "" ∧ p ∈ r.pairs ∧ p.lpToken = name := by
  unfold byLpToken? at h
  split at h
  · cases h
  · rename_i hne
    exact ⟨hne, List.mem_reverse.1 (List.mem_of_find?_eq_some h), by simpa using List.find?_some h⟩

theorem Distinct.byLpToken?_eq (h : r.Distinct) (hp : p ∈ r.pairs) (hne : p.lpToken ≠ "") :
    r.byLpToken? p.lpToken = some p := by
  cases hq : r.byLpToken? p.lpToken with
  | none =>
    rw [byLpToken?, if_neg hne, List.find?_eq_none] at hq
    exact absurd (decide_eq_true rfl) (hq p (List.mem_reverse.2 hp))
  | some q =>
    obtain ⟨-, hqmem, heq⟩ := of_byLpToken? hq
    rw [eq_of_named h.lpTokens hp hqmem hne heq.symm]

end Registry

namespace Apr

section Triggers

variable (liquidity : List LiquidityChange) (staking : List StakingChange)

def newRate : Bool := staking.any fun e => e.action = .updateRewards

def liquidityMoved (p : Pair) : Bool := liquidity.any fun e => e.pairAddress = p.address

def stakesMoved (p : Pair) : Bool :=
  staking.any fun e => e.action ≠ .updateRewards && e.lpToken = p.lpToken

/-- Both contracts of the pair are known, and an input of its yield is stale. -/
def concerned (p : Pair) : Bool :=
  p.isAddressed && (newRate staking || liquidityMoved liquidity p || stakesMoved staking p)

/-- The questions for the inputs that the events made stale, or for all of them
where there is no record. -/
def stale (p : Pair) (known : Bool) : List Query :=
  let all := newRate staking || !known
  (if all || liquidityMoved liquidity p then [.totalSupply p.lpToken] else []) ++
    (if all || stakesMoved staking p then [.totalBond p.lpToken] else []) ++
    if all then [.rewards p.lpToken] else []

variable {liquidity staking} {r : Registry} {p : Pair}

theorem isAddressed_iff : p.isAddressed = true ↔ p.address ≠ "" ∧ p.lpToken ≠ "" := by
  simp [Pair.isAddressed]

theorem mem_addresses {name : String} {names : List String} :
    name ∈ AprTriggers.addresses names ↔ name ∈ names :=
  Ascending.mem_ofList

theorem collect_totalSupply (hp : p ∈ r.pairs) (hne : p.address ≠ "") :
    (AprTriggers.collect r liquidity staking).totalSupply.contains p.address =
      liquidityMoved liquidity p := by
  rw [Bool.eq_iff_iff, List.contains_iff_mem, liquidityMoved, List.any_eq_true]
  simp only [AprTriggers.collect, mem_addresses, List.mem_map, List.mem_filter, decide_eq_true_eq]
  constructor
  · rintro ⟨e, ⟨he, -⟩, haddress⟩
    exact ⟨e, he, haddress⟩
  · rintro ⟨e, he, haddress⟩
    refine ⟨e, ⟨he, ?_⟩, haddress⟩
    rw [haddress]
    exact Registry.isSome_byAddress?.2 ⟨hne, p, hp, rfl⟩

theorem collect_totalBond (hr : r.Distinct) (hp : p ∈ r.pairs) (ha : p.isAddressed = true) :
    (AprTriggers.collect r liquidity staking).totalBond.contains p.address =
      stakesMoved staking p := by
  obtain ⟨hne, htoken⟩ := isAddressed_iff.1 ha
  rw [Bool.eq_iff_iff, List.contains_iff_mem, stakesMoved, List.any_eq_true]
  simp only [AprTriggers.collect, mem_addresses, List.mem_filterMap, List.mem_filter,
    Option.map_eq_some_iff, Bool.and_eq_true, decide_eq_true_eq]
  constructor
  · rintro ⟨e, ⟨he, haction⟩, q, hq, haddress⟩
    obtain ⟨-, hqmem, hlp⟩ := Registry.of_byLpToken? hq
    obtain rfl := Registry.eq_of_named hr.addresses hp hqmem hne haddress.symm
    exact ⟨e, he, haction, hlp.symm⟩
  · rintro ⟨e, he, haction, hlp⟩
    refine ⟨e, ⟨he, haction⟩, p, ?_, rfl⟩
    rw [hlp]
    exact hr.byLpToken?_eq hp htoken

theorem touched_collect (hr : r.Distinct) : (AprTriggers.collect r liquidity staking).touched r =
    r.pairs.filter (concerned liquidity staking) := by
  apply List.filter_congr
  intro p hp
  rw [concerned]
  by_cases ha : p.isAddressed = true
  · rw [collect_totalSupply hp (isAddressed_iff.1 ha).1, collect_totalBond hr hp ha]
    rfl
  · rw [Bool.not_eq_true] at ha
    rw [ha, Bool.false_and, Bool.false_and]

theorem toRenew_eq_touched (t : AprTriggers) (r : Registry) : toRenew t r = t.touched r := by
  unfold toRenew
  split
  · rename_i hempty
    simp only [AprTriggers.isEmpty, Bool.and_eq_true, Bool.not_eq_true', List.isEmpty_iff] at hempty
    obtain ⟨⟨heverything, hsupply⟩, hbond⟩ := hempty
    simp [AprTriggers.touched, heverything, hsupply, hbond]
  · rfl

theorem toRenew_collect (hr : r.Distinct) : toRenew (AprTriggers.collect r liquidity staking) r =
    r.pairs.filter (concerned liquidity staking) := by
  rw [toRenew_eq_touched, touched_collect hr]

theorem wanted_collect (hr : r.Distinct) (hp : p ∈ r.pairs) (ha : p.isAddressed = true)
    (known : Bool) : wanted (AprTriggers.collect r liquidity staking) p known =
      stale liquidity staking p known := by
  rw [wanted, stale, collect_totalSupply hp (isAddressed_iff.1 ha).1, collect_totalBond hr hp ha]
  rfl

end Triggers

section Asked

variable {k : Querier} {before : List Query} {t : AprTriggers} {known : String → Bool}
  {pairs : List Pair}

theorem Accounted.questions_eq {said : List Said} (h : Accounted t known pairs said) :
    said.map Said.question = pairs.flatMap fun p => wanted t p (known p.address) := by
  have hquestions : (stretches t known pairs said).flatMap (fun e => e.2.map Said.question) =
      (stretches t known pairs said).flatMap fun e => wanted t e.1 (known e.1.address) :=
    List.flatMap_congr h.questions
  calc said.map Said.question
      = ((stretches t known pairs said).flatMap Prod.snd).map Said.question := by rw [h.all]
    _ = (stretches t known pairs said).flatMap fun e => e.2.map Said.question := by
        rw [List.map_flatMap]
    _ = ((stretches t known pairs said).map Prod.fst).flatMap fun p =>
          wanted t p (known p.address) := by
        rw [hquestions, List.flatMap_map]
    _ = pairs.flatMap fun p => wanted t p (known p.address) := by rw [h.each]

def poolQuestions (r : Registry) : List Query :=
  (r.pairs.filter fun p => p.address ≠ "").map fun p => .pool p.address none

theorem questions_mapM {α β : Type} {P : Query → Prop} {f : β → Asking α} (question : β → Query)
    (hasks : ∀ x, Asks P (f x))
    (hone : ∀ x before, (said k before (f x)).map Said.question = [question x]) (xs : List β)
    (before : List Query) :
    (said k before (xs.mapM f)).map Said.question = xs.map question := by
  induction xs generalizing before with
  | nil =>
    have hnil : said k before (List.mapM f []) = [] := said_pure []
    rw [hnil]
    rfl
  | cons x xs ih =>
    have hrest : Asks P (xs.mapM f) := Asks.mapM xs fun y _ => hasks y
    rw [List.mapM_cons, said_bind (hasks x) (hrest.bind fun _ => asks_pure _), said_map hrest,
      List.map_append, hone, ih]
    rfl

theorem questions_load (r : Registry) :
    (said k before (Market.load r)).map Said.question = poolQuestions r := by
  have hasks (p : Pair) : Quiet (ask (.pool p.address none)) := quiet_pool _ _
  unfold Market.load
  rw [said_map (P := fun q => q.isYield = false)]
  · refine questions_mapM (P := fun q => q.isYield = false) (fun p : Pair => .pool p.address none)
      (fun p => ?_) (fun p before => ?_) _ before
    · refine (hasks p).bind fun answer => ?_
      split <;> exact asks_pure _
    · rw [said_bind_pure (hasks p), said_ask]
      · rfl
      · split <;> exact ⟨_, rfl⟩
  · refine Asks.mapM _ fun p _ => (hasks p).bind fun answer => ?_
    split <;> exact asks_pure _

theorem refresh_eq {r : Registry} {latest : String → Except IndexerError (Option AprRecord)}
    {h : Height} {u : Timestamp}
    (hreads : ∀ p ∈ toRenew t r, ∃ past, latest p.address = .ok past) :
    refresh r latest t h u = if (toRenew t r).isEmpty then pure (.ok []) else
      renewEach t ((toRenew t r).map fun p => (p, pastInputs latest p)) >>= fun inputs =>
        Market.load r >>= fun m =>
          pure (.ok (inputs.map fun e => record m h u e.1 e.2)) := by
  have hpasts : ((toRenew t r).mapM fun p => (latest p.address).map fun past =>
      (p, past.map Inputs.ofRecord)) = .ok ((toRenew t r).map fun p => (p, pastInputs latest p)) := by
    refine Traverse.mapM_ok_of_forall fun p hp => ?_
    obtain ⟨past, hpast⟩ := hreads p hp
    rw [pastInputs, pastOf, hpast]
    rfl
  unfold refresh
  change (if (toRenew t r).isEmpty then _ else _) = _
  split
  · rfl
  · rw [toRenew] at hpasts
    simp only [hpasts]
    rfl

theorem refresh_asked {r : Registry} {latest : String → Except IndexerError (Option AprRecord)}
    {h : Height} {u : Timestamp}
    (hreads : ∀ p ∈ toRenew t r, ∃ past, latest p.address = .ok past) (k : Querier)
    (before : List Query) :
    (∃ records, (refresh r latest t h u k before).1 = .ok records ∧
      records.map AprRecord.pairAddress = (toRenew t r).map Pair.address) ∧
    (said k before (refresh r latest t h u)).map Said.question =
      ((toRenew t r).flatMap fun p => wanted t p (hasRecord latest p.address)) ++
        if (toRenew t r).isEmpty then [] else poolQuestions r := by
  rw [refresh_eq hreads]
  split
  · rename_i hempty
    rw [List.isEmpty_iff.1 hempty, said_pure]
    exact ⟨⟨[], rfl, rfl⟩, rfl⟩
  · have heach := renewEach_asks t ((toRenew t r).map fun p => (p, pastInputs latest p))
    have hload (inputs : List (Pair × Inputs)) : Quiet (Market.load r >>= fun m =>
        pure (Except.ok (ε := IndexerError) (inputs.map fun e => record m h u e.1 e.2))) :=
      (Market.load_quiet r).bind fun _ => asks_pure _
    have hsome (p : Pair) : (pastInputs latest p).isSome = hasRecord latest p.address :=
      Option.isSome_map
    obtain ⟨haccounted, hvalue⟩ := renewEach_heard hsome k before t (toRenew t r)
    constructor
    · rw [bind_fst, bind_fst, hvalue]
      refine ⟨_, rfl, ?_⟩
      have haddresses := congrArg (List.map Pair.address) haccounted.each
      rw [List.map_map] at haddresses ⊢
      rw [List.map_map]
      exact haddresses
    · rw [said_bind heach (hload _), said_map (Market.load_quiet r), List.map_append,
        haccounted.questions_eq, questions_load]

end Asked

section Counts

variable {liquidity : List LiquidityChange} {staking : List StakingChange} {r : Registry}
  {p : Pair} {q : Query} {known : Bool}

theorem isAddressed_of_concerned (h : concerned liquidity staking p = true) :
    p.isAddressed = true :=
  (Bool.and_eq_true_iff.1 h).1

theorem nodup_concerned (hr : r.Distinct) :
    ((r.pairs.filter (concerned liquidity staking)).map Pair.address).Nodup := by
  refine (Registry.nodup_named hr.addresses).sublist (List.Sublist.map _ ?_)
  refine List.monotone_filter_right _ fun p h => ?_
  exact decide_eq_true (isAddressed_iff.1 (isAddressed_of_concerned h)).1

theorem count_concerned (hr : r.Distinct) (hp : p ∈ r.pairs) :
    (r.pairs.filter (concerned liquidity staking)).count p =
      if concerned liquidity staking p then 1 else 0 := by
  split
  · rename_i hc
    exact List.count_eq_one_of_mem ((nodup_concerned hr).of_map _) (List.mem_filter.2 ⟨hp, hc⟩)
  · rename_i hc
    exact List.count_eq_zero_of_not_mem fun hm => hc (List.mem_filter.1 hm).2

theorem count_address_concerned (hr : r.Distinct) (hp : p ∈ r.pairs) :
    ((r.pairs.filter (concerned liquidity staking)).map Pair.address).count p.address =
      if concerned liquidity staking p then 1 else 0 := by
  split
  · rename_i hc
    exact List.count_eq_one_of_mem (nodup_concerned hr) (List.mem_map_of_mem (List.mem_filter.2 ⟨hp, hc⟩))
  · rename_i hc
    refine List.count_eq_zero_of_not_mem fun hm => hc ?_
    obtain ⟨q, hq, heq⟩ := List.mem_map.1 hm
    obtain ⟨hq, hqc⟩ := List.mem_filter.1 hq
    have hne := (isAddressed_iff.1 (isAddressed_of_concerned hqc)).1
    rwa [← Registry.eq_of_named hr.addresses hq hp hne heq]

def lpTokenOf? : Query → Option String
  | .totalSupply lpToken | .totalBond lpToken | .rewards lpToken => some lpToken
  | .pool _ _ | .listing _ _ _ => none

theorem lpTokenOf?_of_mem_stale (h : q ∈ stale liquidity staking p known) :
    lpTokenOf? q = some p.lpToken := by
  simp only [stale, List.mem_append, List.mem_ite_nil_right, List.mem_singleton] at h
  rcases h with (⟨-, rfl⟩ | ⟨-, rfl⟩) | ⟨-, rfl⟩ <;> rfl

theorem count_renewals (hr : r.Distinct) (hp : p ∈ r.pairs) (hq : lpTokenOf? q = some p.lpToken)
    (known : String → Bool) :
    ((r.pairs.filter (concerned liquidity staking)).flatMap fun p =>
        stale liquidity staking p (known p.address)).count q =
      if concerned liquidity staking p then
        (stale liquidity staking p (known p.address)).count q else 0 := by
  have hother : ∀ p' : Pair, p' ≠ p → p' ∈ r.pairs.filter (concerned liquidity staking) →
      (stale liquidity staking p' (known p'.address)).count q = 0 := by
    intro p' hne hmem
    obtain ⟨hmem, hc⟩ := List.mem_filter.1 hmem
    refine List.count_eq_zero_of_not_mem fun hstale => hne ?_
    have htoken := Option.some.inj ((lpTokenOf?_of_mem_stale hstale).symm.trans hq)
    exact Registry.eq_of_named hr.lpTokens hmem hp
      (isAddressed_iff.1 (isAddressed_of_concerned hc)).2 htoken
  rw [List.count_flatMap]
  refine (List.sum_map_eq_nsmul_single p _ hother).trans ?_
  rw [count_concerned hr hp]
  split
  · exact one_nsmul _
  · exact zero_nsmul _

theorem count_stale (liquidity : List LiquidityChange) (staking : List StakingChange) (p : Pair)
    (known : Bool) :
    (stale liquidity staking p known).count (.totalSupply p.lpToken) =
        (if newRate staking || !known || liquidityMoved liquidity p then 1 else 0) ∧
      (stale liquidity staking p known).count (.totalBond p.lpToken) =
        (if newRate staking || !known || stakesMoved staking p then 1 else 0) ∧
      (stale liquidity staking p known).count (.rewards p.lpToken) =
        if newRate staking || !known then 1 else 0 := by
  rw [stale]
  generalize liquidityMoved liquidity p = supply
  generalize stakesMoved staking p = bond
  generalize (newRate staking || !known) = all
  cases all <;> cases supply <;> cases bond <;> simp

theorem lpTokenOf?_of_mem_poolQuestions (h : q ∈ poolQuestions r) : lpTokenOf? q = none := by
  obtain ⟨p, -, rfl⟩ := List.mem_map.1 h
  rfl

theorem count_poolQuestions (hr : r.Distinct) (hp : p ∈ r.pairs) (hne : p.address ≠ "") :
    (poolQuestions r).count (.pool p.address none) = 1 := by
  have hinjective : Function.Injective fun a : String => Query.pool a none := fun a b h => by
    cases h
    rfl
  refine List.count_eq_one_of_mem ?_ (List.mem_map.2 ⟨p, ?_, rfl⟩)
  · have hnodup := (Registry.nodup_named hr.addresses).map hinjective
    rwa [List.map_map] at hnodup
  · exact List.mem_filter.2 ⟨hp, decide_eq_true hne⟩

def selected (liquidity : List LiquidityChange) (staking : List StakingChange) (r : Registry)
    (known : String → Bool) : List Query :=
  ((r.pairs.filter (concerned liquidity staking)).flatMap fun p =>
    stale liquidity staking p (known p.address)) ++
  if (r.pairs.filter (concerned liquidity staking)).isEmpty then [] else poolQuestions r

theorem count_selected (liquidity : List LiquidityChange) (staking : List StakingChange)
    (hr : r.Distinct) (hp : p ∈ r.pairs) (hq : lpTokenOf? q = some p.lpToken)
    (known : String → Bool) : (selected liquidity staking r known).count q =
      if concerned liquidity staking p then
        (stale liquidity staking p (known p.address)).count q else 0 := by
  have hpools : (if (r.pairs.filter (concerned liquidity staking)).isEmpty then []
      else poolQuestions r).count q = 0 := by
    split
    · rfl
    · refine List.count_eq_zero_of_not_mem fun hm => ?_
      rw [lpTokenOf?_of_mem_poolQuestions hm] at hq
      cases hq
  rw [selected, List.count_append, hpools, count_renewals hr hp hq, Nat.add_zero]

theorem count_pool_selected (hr : r.Distinct) (hp : p ∈ r.pairs) (hne : p.address ≠ "")
    (known : String → Bool) : (selected liquidity staking r known).count (.pool p.address none) =
      if (r.pairs.filter (concerned liquidity staking)).isEmpty then 0 else 1 := by
  have hyields : ((r.pairs.filter (concerned liquidity staking)).flatMap fun p =>
      stale liquidity staking p (known p.address)).count (.pool p.address none) = 0 := by
    refine List.count_eq_zero_of_not_mem fun hm => ?_
    obtain ⟨p', -, hstale⟩ := List.mem_flatMap.1 hm
    cases lpTokenOf?_of_mem_stale hstale
  rw [selected, List.count_append, hyields, Nat.zero_add]
  split
  · rfl
  · exact count_poolQuestions hr hp hne

end Counts

/-- The events of a batch renew exactly the pairs with both contracts that they
concern, each once and in the order of the registry. Such a pair is asked once for
its supply, its bond and its rewards where these are stale or there is no record,
and any other pair for none of them. The pools are asked, once for each address,
when there is something to renew, and nothing else is asked. -/
theorem refresh_selective {r : Registry} (hr : r.Distinct) (s : Store) (k : Querier)
    (before : List Query) (liquidity : List LiquidityChange) (staking : List StakingChange)
    (h : Height) (u : Timestamp)
    (hreads : ∀ p ∈ r.pairs, concerned liquidity staking p = true →
      ∃ past, s.latestApr p.address = .ok past) :
    ∃ records asked,
      refresh r s.latestApr (AprTriggers.collect r liquidity staking) h u k before =
        (.ok records, asked.reverse ++ before) ∧
      records.map AprRecord.pairAddress =
        (r.pairs.filter (concerned liquidity staking)).map Pair.address ∧
      asked = selected liquidity staking r (hasRecord s.latestApr) ∧
      (∀ p ∈ r.pairs,
        (records.map AprRecord.pairAddress).count p.address =
          (if concerned liquidity staking p then 1 else 0) ∧
        asked.count (.totalSupply p.lpToken) = (if concerned liquidity staking p &&
          (newRate staking || !hasRecord s.latestApr p.address || liquidityMoved liquidity p)
          then 1 else 0) ∧
        asked.count (.totalBond p.lpToken) = (if concerned liquidity staking p &&
          (newRate staking || !hasRecord s.latestApr p.address || stakesMoved staking p)
          then 1 else 0) ∧
        asked.count (.rewards p.lpToken) = (if concerned liquidity staking p &&
          (newRate staking || !hasRecord s.latestApr p.address) then 1 else 0)) ∧
      ∀ p ∈ r.pairs, p.address ≠ "" →
        asked.count (.pool p.address none) = if records.isEmpty then 0 else 1 := by
  have hrenew : toRenew (AprTriggers.collect r liquidity staking) r = _ := toRenew_collect hr
  have hreads' : ∀ p ∈ toRenew (AprTriggers.collect r liquidity staking) r,
      ∃ past, s.latestApr p.address = .ok past := by
    intro p hp
    rw [hrenew, List.mem_filter] at hp
    exact hreads p hp.1 hp.2
  obtain ⟨⟨records, hvalue, haddresses⟩, hsaid⟩ := refresh_asked (h := h) (u := u) hreads' k before
  have hasked := (refresh_speaks r s.latestApr (AprTriggers.collect r liquidity staking) h u).1.asked_eq
    k before
  have hwanted : ((r.pairs.filter (concerned liquidity staking)).flatMap fun p =>
      wanted (AprTriggers.collect r liquidity staking) p (hasRecord s.latestApr p.address)) =
      (r.pairs.filter (concerned liquidity staking)).flatMap fun p =>
        stale liquidity staking p (hasRecord s.latestApr p.address) := by
    refine List.flatMap_congr fun p hp => ?_
    obtain ⟨hp, hc⟩ := List.mem_filter.1 hp
    exact wanted_collect hr hp (isAddressed_of_concerned hc) _
  rw [hrenew] at haddresses hsaid
  rw [hwanted] at hsaid
  have hempty : records.isEmpty = (r.pairs.filter (concerned liquidity staking)).isEmpty := by
    have hmap := congrArg List.isEmpty haddresses
    rwa [List.isEmpty_map, List.isEmpty_map] at hmap
  -- a question is put once to a pair that is renewed and has the input stale
  have hboth (a b : Bool) : (if a then if b then 1 else 0 else 0) = if a && b then 1 else 0 := by
    cases a <;> rfl
  refine ⟨records, _, Prod.ext hvalue hasked, haddresses, hsaid, fun p hp => ?_, fun p hp hne => ?_⟩
  · have hcount (q : Query) (hq : lpTokenOf? q = some p.lpToken) :=
      count_selected liquidity staking hr hp hq (hasRecord s.latestApr)
    obtain ⟨hsupply, hbond, hrewards⟩ :=
      count_stale liquidity staking p (hasRecord s.latestApr p.address)
    rw [haddresses, count_address_concerned hr hp, hsaid, ← hboth, ← hboth, ← hboth, ← hsupply,
      ← hbond, ← hrewards]
    exact ⟨rfl, hcount _ rfl, hcount _ rfl, hcount _ rfl⟩
  · rw [hsaid, hempty]
    exact count_pool_selected hr hp hne _

end Apr

namespace TwoPools

open Sample TwoSwaps

def otherPair : Pair :=
  { Pair.unlisted (.native "orai") (.token "usdc") "ORAI" "USDC" with
    address := "pool2", lpToken := "lp2" }

def registry : Registry := .ofPairs [pair, otherPair]

def bonding : StakingChange := ⟨.bond, "lp", 5, "A", 110⟩

theorem distinct : registry.Distinct := by
  constructor <;> decide

theorem latestApr_afterFirst : ∀ p ∈ registry.pairs, afterFirst.latestApr p.address = .ok none := by
  decide +kernel

end TwoPools

namespace Apr

open Sample TwoSwaps

theorem refresh_selects_bonded :
    ∃ (records : List AprRecord) (asked : List Query),
      refresh TwoPools.registry afterFirst.latestApr
        (AprTriggers.collect TwoPools.registry [] [TwoPools.bonding]) 110 60 querier [] =
          (.ok records, asked.reverse) ∧
      records.map AprRecord.pairAddress = ["pool"] ∧
      asked.count (.totalSupply "lp") = 1 ∧ asked.count (.totalBond "lp") = 1 ∧
      asked.count (.rewards "lp") = 1 ∧ asked.count (.totalBond "lp2") = 0 ∧
      asked.count (.pool "pool2" none) = 1 := by
  have hreads : ∀ p ∈ TwoPools.registry.pairs, concerned [] [TwoPools.bonding] p = true →
      ∃ past, afterFirst.latestApr p.address = .ok past :=
    fun p hp _ => ⟨none, TwoPools.latestApr_afterFirst p hp⟩
  obtain ⟨records, asked, hrefresh, haddresses, -, hpairs, hpools⟩ := refresh_selective
    TwoPools.distinct afterFirst querier [] [] [TwoPools.bonding] 110 60 hreads
  have hpair : pair ∈ TwoPools.registry.pairs := by decide
  have hother : TwoPools.otherPair ∈ TwoPools.registry.pairs := by decide
  have hsome : records.isEmpty = false := by
    rw [← List.isEmpty_map (f := AprRecord.pairAddress), haddresses]
    decide
  have hknown : hasRecord afterFirst.latestApr pair.address = false := by
    rw [hasRecord, TwoPools.latestApr_afterFirst _ hpair]
    rfl
  obtain ⟨-, hsupply, hbond, hrewards⟩ := hpairs _ hpair
  obtain ⟨-, -, hnone, -⟩ := hpairs _ hother
  have hpool := hpools _ hother (by decide)
  rw [hknown] at hsupply hbond hrewards
  rw [hsome] at hpool
  rw [List.append_nil] at hrefresh
  exact ⟨records, asked, hrefresh, haddresses, hsupply, hbond, hrewards, hnone, hpool⟩

end Apr

end PoolLedger
