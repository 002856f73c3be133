import Mathlib.Data.List.SplitLengths
import PoolLedger.Proofs.Transcript
import PoolLedger.Proofs.Yield

/-! Renewing the inputs of yields, whoever answers. What is said about yields in a
pass falls into stretches, one for each renewed pair, that hold the questions for its
stale inputs. The last answer of each kind counts, and without one the past. -/

namespace PoolLedger

open Asking

namespace Said

def supply? : Said → Option Amount
  | ⟨.totalSupply _, .ok supply⟩ => some supply
  | _ => none

def bond? : Said → Option Amount
  | ⟨.totalBond _, .ok bond⟩ => some bond
  | _ => none

def rewards? : Said → Option (List Asset)
  | ⟨.rewards _, .ok rewards⟩ => some rewards
  | _ => none

end Said

namespace Apr

namespace Inputs

def heard (i : Inputs) (said : List Said) : Inputs where
  totalSupply := (said.filterMap Said.supply?).getLast?.getD i.totalSupply
  totalBond := (said.filterMap Said.bond?).getLast?.getD i.totalBond
  rewards := (said.filterMap Said.rewards?).getLast?.getD i.rewards

theorem heard_nil (i : Inputs) : i.heard [] = i := rfl

theorem heard_append (i : Inputs) (xs ys : List Said) :
    i.heard (xs ++ ys) = (i.heard xs).heard ys := by
  have hlast {α : Type} (as bs : List α) (a : α) :
      (as ++ bs).getLast?.getD a = bs.getLast?.getD (as.getLast?.getD a) := by
    rw [List.getLast?_append]
    cases bs.getLast? <;> rfl
  simp only [heard, List.filterMap_append, hlast]

theorem heard_supply (i : Inputs) (lpToken : String) (answer : Except IndexerError Amount) :
    i.heard [⟨.totalSupply lpToken, answer⟩] =
      { i with totalSupply := answer.toOption.getD i.totalSupply } := by
  cases answer <;> rfl

theorem heard_bond (i : Inputs) (lpToken : String) (answer : Except IndexerError Amount) :
    i.heard [⟨.totalBond lpToken, answer⟩] =
      { i with totalBond := answer.toOption.getD i.totalBond } := by
  cases answer <;> rfl

theorem heard_rewards (i : Inputs) (lpToken : String)
    (answer : Except IndexerError (List Asset)) :
    i.heard [⟨.rewards lpToken, answer⟩] =
      { i with rewards := answer.toOption.getD i.rewards } := by
  cases answer <;> rfl

end Inputs

def wanted (t : AprTriggers) (p : Pair) (known : Bool) : List Query :=
  let all := t.everything || !known
  (if all || t.totalSupply.contains p.address then [.totalSupply p.lpToken] else []) ++
    (if all || t.totalBond.contains p.address then [.totalBond p.lpToken] else []) ++
    if all then [.rewards p.lpToken] else []

variable {k : Querier} {before : List Query}

section Renew

variable {q : Query} (stale : Bool) (old : q.Answer)

theorem renew_asks (hq : q.isYield = true) :
    Asks (fun q => q.isYield = true) (renew stale old (ask q)) := by
  unfold renew
  split
  · refine (asks_ask hq).bind fun answer => ?_
    split
    · exact asks_pure _
    · exact asks_pure _
  · exact asks_pure _

theorem renew_fst : (renew stale old (ask q) k before).1 =
    if stale then (k.answer before q).toOption.getD old else old := by
  unfold renew
  cases stale with
  | false => rfl
  | true =>
    have hanswer : (ask q k before).1 = k.answer before q := rfl
    simp only [if_true]
    rw [bind_fst, hanswer]
    cases k.answer before q <;> rfl

theorem said_renew : said k before (renew stale old (ask q)) =
    if stale then [⟨q, k.answer before q⟩] else [] := by
  unfold renew
  cases stale with
  | false => exact said_pure old
  | true =>
    simp only [if_true]
    rw [said_bind_pure (asks_ask (P := fun _ => True) trivial), said_ask]
    split
    · exact ⟨_, rfl⟩
    · exact ⟨_, rfl⟩

end Renew

theorem renewInputs_asks (t : AprTriggers) (p : Pair) (past : Option Inputs) :
    Asks (fun q => q.isYield = true) (renewInputs t p past) := by
  unfold renewInputs
  refine (renew_asks (q := .totalSupply p.lpToken) _ _ rfl).bind fun supply => ?_
  refine (renew_asks (q := .totalBond p.lpToken) _ _ rfl).bind fun bond => ?_
  exact (renew_asks (q := .rewards p.lpToken) _ _ rfl).bind fun rewards => asks_pure _

theorem renewInputs_heard (k : Querier) (before : List Query) (t : AprTriggers) (p : Pair)
    (past : Option Inputs) :
    (said k before (renewInputs t p past)).map Said.question = wanted t p past.isSome ∧
      (renewInputs t p past k before).1 =
        (past.getD .none).heard (said k before (renewInputs t p past)) := by
  have hnone : past.isNone = !past.isSome := by cases past <;> rfl
  simp only [renewInputs, wanted, hnone]
  generalize (t.everything || !past.isSome) = all
  generalize (all || t.totalSupply.contains p.address) = supply
  generalize (all || t.totalBond.contains p.address) = bond
  generalize past.getD .none = old
  have hbond := renew_asks (q := .totalBond p.lpToken) bond old.totalBond rfl
  have hrewards := renew_asks (q := .rewards p.lpToken) all old.rewards rfl
  -- one question after the other, each with what came of it
  rw [said_bind (renew_asks (q := .totalSupply p.lpToken) supply old.totalSupply rfl)
      (hbond.bind fun b => hrewards.bind fun c => asks_pure _),
    said_bind hbond (hrewards.bind fun c => asks_pure _), said_map hrewards,
    said_renew (q := .totalSupply p.lpToken), said_renew (q := .totalBond p.lpToken),
    said_renew (q := .rewards p.lpToken), bind_fst, bind_fst, bind_fst, pure_fst,
    renew_fst (q := .totalSupply p.lpToken), renew_fst (q := .totalBond p.lpToken),
    renew_fst (q := .rewards p.lpToken)]
  constructor
  · cases supply <;> cases bond <;> cases all <;> rfl
  · rw [Inputs.heard_append, Inputs.heard_append]
    cases supply <;> cases bond <;> cases all <;>
      simp [Inputs.heard_nil, Inputs.heard_supply, Inputs.heard_bond, Inputs.heard_rewards]

def stretches (t : AprTriggers) (known : String → Bool) (pairs : List Pair) (said : List Said) :
    List (Pair × List Said) :=
  pairs.zip ((pairs.map fun p => (wanted t p (known p.address)).length).splitLengths said)

/-- The stretches hold all that was said, and for each pair the questions for its
stale inputs. -/
structure Accounted (t : AprTriggers) (known : String → Bool) (pairs : List Pair)
    (said : List Said) : Prop where
  each : (stretches t known pairs said).map Prod.fst = pairs
  all : (stretches t known pairs said).flatMap Prod.snd = said
  questions : ∀ e ∈ stretches t known pairs said,
    e.2.map Said.question = wanted t e.1 (known e.1.address)

def renewEach (t : AprTriggers) (entries : List (Pair × Option Inputs)) :
    Asking (List (Pair × Inputs)) :=
  entries.mapM fun e => renewInputs t e.1 e.2 >>= fun i => pure (e.1, i)

section Batch

variable {t : AprTriggers} {known : String → Bool} {pairs : List Pair} {p : Pair}
  {xs ys : List Said}

theorem stretches_cons (h : xs.map Said.question = wanted t p (known p.address)) :
    stretches t known (p :: pairs) (xs ++ ys) = (p, xs) :: stretches t known pairs ys := by
  have hlength : (wanted t p (known p.address)).length = xs.length := by
    rw [← h, List.length_map]
  rw [stretches, List.map_cons, List.splitLengths_cons, hlength, List.take_left, List.drop_left,
    List.zip_cons_cons]
  rfl

theorem accounted_nil : Accounted t known [] [] :=
  ⟨rfl, rfl, fun _ he => absurd he List.not_mem_nil⟩

theorem Accounted.cons (hx : xs.map Said.question = wanted t p (known p.address))
    (hy : Accounted t known pairs ys) : Accounted t known (p :: pairs) (xs ++ ys) := by
  constructor
  · rw [stretches_cons hx, List.map_cons, hy.each]
  · rw [stretches_cons hx, List.flatMap_cons, hy.all]
  · rw [stretches_cons hx]
    exact List.forall_mem_cons.2 ⟨hx, hy.questions⟩

theorem renewEach_asks (t : AprTriggers) (entries : List (Pair × Option Inputs)) :
    Asks (fun q => q.isYield = true) (renewEach t entries) :=
  Asks.mapM _ fun e _ => (renewInputs_asks t e.1 e.2).bind fun _ => asks_pure _

theorem renewEach_cons (e : Pair × Option Inputs) (entries : List (Pair × Option Inputs)) :
    renewEach t (e :: entries) =
      renewInputs t e.1 e.2 >>= fun i => renewEach t entries >>= fun is => pure ((e.1, i) :: is) :=
  List.mapM_cons

theorem renewEach_heard {past : Pair → Option Inputs}
    (hknown : ∀ p, (past p).isSome = known p.address) (k : Querier) (before : List Query)
    (t : AprTriggers) (pairs : List Pair) :
    Accounted t known pairs (said k before (renewEach t (pairs.map fun p => (p, past p)))) ∧
      (renewEach t (pairs.map fun p => (p, past p)) k before).1 =
        (stretches t known pairs
          (said k before (renewEach t (pairs.map fun p => (p, past p))))).map fun e =>
            (e.1, ((past e.1).getD .none).heard e.2) := by
  induction pairs generalizing before with
  | nil =>
    have hnil : said k before (renewEach t []) = [] := said_pure []
    rw [List.map_nil, hnil]
    exact ⟨accounted_nil, rfl⟩
  | cons p pairs ih =>
    obtain ⟨hquestions, hvalue⟩ := renewInputs_heard k before t p (past p)
    rw [hknown] at hquestions
    -- the questions of the first pair tell where its stretch ends
    obtain ⟨haccounted, hrest⟩ := ih (renewInputs t p (past p) k before).2
    have heach := renewEach_asks t (pairs.map fun p => (p, past p))
    rw [List.map_cons, renewEach_cons,
      said_bind (renewInputs_asks t p (past p)) (heach.bind fun _ => asks_pure _), said_map heach,
      stretches_cons hquestions]
    refine ⟨haccounted.cons hquestions, ?_⟩
    rw [bind_fst, bind_fst, hrest, hvalue]
    rfl

end Batch

section Refresh

variable {r : Registry} {latest : String → Except IndexerError (Option AprRecord)}
  {t : AprTriggers} {h : Height} {u : Timestamp}

def hasRecord (latest : String → Except IndexerError (Option AprRecord)) (a : String) : Bool :=
  ((latest a).toOption.getD none).isSome

def pastInputs (latest : String → Except IndexerError (Option AprRecord)) (p : Pair) :
    Option Inputs :=
  (pastOf latest p).map Inputs.ofRecord

theorem pasts_eq {pairs : List Pair} {known : List (Pair × Option Inputs)}
    (hk : (pairs.mapM fun p => (latest p.address).map fun past =>
      (p, past.map Inputs.ofRecord)) = .ok known) :
    known = pairs.map fun p => (p, pastInputs latest p) := by
  have hall : (pairs.mapM fun p => (latest p.address).map fun past =>
      (p, past.map Inputs.ofRecord)) = .ok (pairs.map fun p => (p, pastInputs latest p)) := by
    refine Traverse.mapM_ok_of_forall fun p hp => ?_
    obtain ⟨e, he⟩ := Traverse.exists_ok_of_mapM hk hp
    rw [pastInputs, pastOf]
    cases hl : latest p.address with
    | error e => simp [hl, Except.map] at he
    | ok past => rfl
  exact Except.ok.inj (hk.symm.trans hall)

/-- What the pasts of the renewed pairs come to after all that was said. -/
structure Renewed (r : Registry) (latest : String → Except IndexerError (Option AprRecord))
    (t : AprTriggers) (h : Height) (u : Timestamp) (records : List AprRecord)
    (said : List Said) : Prop where
  accounted : Accounted t (hasRecord latest) (toRenew t r) said
  records : ∃ m, records = (stretches t (hasRecord latest) (toRenew t r) said).map fun e =>
    record m h u e.1 (((pastInputs latest e.1).getD .none).heard e.2)

theorem renewEach_speaks (r : Registry)
    (latest : String → Except IndexerError (Option AprRecord)) (t : AprTriggers) (h : Height)
    (u : Timestamp) :
    Speaks (renewEach t ((toRenew t r).map fun p => (p, pastInputs latest p)) >>= fun inputs =>
        Market.load r >>= fun m =>
          pure (Except.ok (ε := IndexerError) (inputs.map fun e => record m h u e.1 e.2)))
      fun v said => ∀ records, v = .ok records → Renewed r latest t h u records said := by
  have heach := renewEach_asks t ((toRenew t r).map fun p => (p, pastInputs latest p))
  have hload (inputs : List (Pair × Inputs)) : Quiet (Market.load r >>= fun m =>
      pure (Except.ok (ε := IndexerError) (inputs.map fun e => record m h u e.1 e.2))) :=
    (Market.load_quiet r).bind fun _ => asks_pure _
  refine ⟨(heach.mono fun _ _ => trivial).bind fun inputs =>
    (hload inputs).mono fun _ _ => trivial, fun k before records hrecords => ?_⟩
  rw [yields_bind heach (hload _), (hload _).yields, List.append_nil, heach.yields_eq]
  have hsome (p : Pair) : (pastInputs latest p).isSome = hasRecord latest p.address :=
    Option.isSome_map
  obtain ⟨haccounted, hvalue⟩ := renewEach_heard hsome k before t (toRenew t r)
  rw [bind_fst, bind_fst, hvalue] at hrecords
  have heq := (Except.ok.inj hrecords).symm
  rw [List.map_map] at heq
  exact ⟨haccounted, _, heq⟩

theorem refresh_speaks (r : Registry) (latest : String → Except IndexerError (Option AprRecord))
    (t : AprTriggers) (h : Height) (u : Timestamp) :
    Speaks (refresh r latest t h u) fun v said =>
      ∀ records, v = .ok records → Renewed r latest t h u records said := by
  unfold refresh
  change Speaks (if (toRenew t r).isEmpty then _ else _) _
  split
  · rename_i he
    refine speaks_pure fun records hrecords => ?_
    have hnone := List.isEmpty_iff.1 he
    constructor
    · rw [hnone]
      exact accounted_nil
    · rw [hnone]
      exact ⟨⟨r, []⟩, (Except.ok.inj hrecords).symm⟩
  · split
    · exact speaks_pure nofun
    · rename_i known hknown
      have hpasts : known = (toRenew t r).map _ := pasts_eq hknown
      rw [hpasts]
      exact renewEach_speaks r latest t h u

end Refresh

end Apr

end PoolLedger
