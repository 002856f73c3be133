import PoolLedger.Apr
import PoolLedger.Proofs.Asking
import PoolLedger.Proofs.Assets

/-! Yields under a steady querier. An input that was asked for once comes out the
same when it is asked for again, with or without an answer. -/

namespace PoolLedger

open Asking

variable {k : Querier}

theorem Market.load_settled (hk : k.Steady) (r : Registry) : Settled k (Market.load r) := by
  unfold Market.load
  refine (Settled.mapM _ fun p _ => (settled_ask hk _).bind ?_).1.bind (settled_pure _)
  split
  · exact settled_pure _
  · exact settled_pure _

namespace Apr

variable {α : Type} {program : Asking (Except IndexerError α)}

theorem renew_settled (h : Settled k program) (wanted : Bool) (old : α) :
    Settled k (renew wanted old program) := by
  unfold renew
  split
  · refine h.bind ?_
    split
    · exact settled_pure _
    · exact settled_pure _
  · exact settled_pure _

theorem value_renew (wanted : Bool) (old : α) :
    value k (renew wanted old program) =
      if wanted then (value k program).toOption.getD old else old := by
  unfold renew
  cases wanted with
  | false => rfl
  | true =>
    simp only [if_true]
    rw [value_bind]
    · cases value k program <;> rfl
    · split
      · exact settled_pure _
      · exact settled_pure _

theorem renew_again {wanted wanted' : Bool} (h : wanted' = true → wanted = true) (old : α)
    (answer : Option α) :
    (if wanted' then answer.getD (if wanted then answer.getD old else old)
      else if wanted then answer.getD old else old) =
        if wanted then answer.getD old else old := by
  cases hw : wanted' with
  | false => rfl
  | true =>
    rw [h hw]
    cases answer <;> rfl

theorem renewInputs_settled (hk : k.Steady) (t : AprTriggers) (p : Pair) (past : Option Inputs) :
    Settled k (renewInputs t p past) := by
  unfold renewInputs
  refine (renew_settled (settled_ask hk _) _ _).bind ?_
  refine (renew_settled (settled_ask hk _) _ _).bind ?_
  exact (renew_settled (settled_ask hk _) _ _).bind (settled_pure _)

theorem value_renewInputs (hk : k.Steady) (t : AprTriggers) (p : Pair) (past : Option Inputs) :
    value k (renewInputs t p past) =
      ⟨value k (renew (t.everything || past.isNone || t.totalSupply.contains p.address)
          (past.getD .none).totalSupply (ask (.totalSupply p.lpToken))),
        value k (renew (t.everything || past.isNone || t.totalBond.contains p.address)
          (past.getD .none).totalBond (ask (.totalBond p.lpToken))),
        value k (renew (t.everything || past.isNone) (past.getD .none).rewards
          (ask (.rewards p.lpToken)))⟩ := by
  have hrest (a b : Amount) : Settled k (renew (t.everything || past.isNone)
      (past.getD .none).rewards (ask (.rewards p.lpToken)) >>= fun c => pure (Inputs.mk a b c)) :=
    (renew_settled (settled_ask hk _) _ _).bind (settled_pure _)
  unfold renewInputs
  rw [value_bind, value_bind, value_bind_pure]
  · exact hrest _ _
  · exact (renew_settled (settled_ask hk _) _ _).bind (hrest _ _)

theorem renewInputs_again (hk : k.Steady) (t : AprTriggers) (p : Pair) (past : Option Inputs) :
    value k (renewInputs t p (some (value k (renewInputs t p past)))) =
      value k (renewInputs t p past) := by
  simp only [value_renewInputs hk, value_renew, Option.isNone_some, Option.getD_some,
    Bool.or_false]
  have hw (b c : Bool) : (t.everything || c) = true → (t.everything || b || c) = true := by
    cases t.everything <;> cases b <;> simp
  have hall (b : Bool) : t.everything = true → (t.everything || b) = true := by
    cases t.everything <;> simp
  rw [renew_again (hw _ _), renew_again (hw _ _), renew_again (hall _)]

theorem refresh_settled (hk : k.Steady) (r : Registry)
    (latest : String → Except IndexerError (Option AprRecord)) (t : AprTriggers) (h : Height)
    (u : Timestamp) : Settled k (refresh r latest t h u) := by
  unfold refresh
  extract_lets pairs
  split
  · exact settled_pure _
  · split
    · exact settled_pure _
    · refine (Settled.mapM _ fun e _ => ?_).1.bind ?_
      · exact (renewInputs_settled hk t e.1 e.2).bind (settled_pure _)
      · exact (Market.load_settled hk r).bind (settled_pure _)

def toRenew (t : AprTriggers) (r : Registry) : List Pair := if t.isEmpty then [] else t.touched r

def renewed (k : Querier) (r : Registry) (t : AprTriggers) (h : Height) (u : Timestamp) (p : Pair)
    (past : Option AprRecord) : AprRecord :=
  record (value k (Market.load r)) h u p (value k (renewInputs t p (past.map Inputs.ofRecord)))

theorem ofRecord_record (m : Market) (h : Height) (u : Timestamp) (p : Pair) (i : Inputs)
    (x : Float) : Inputs.ofRecord { record m h u p i with apr := x } = i := by
  rw [Inputs.ofRecord, record, Asset.readList?_writeList]
  rfl

theorem renewed_again (hk : k.Steady) (r : Registry) (t : AprTriggers) (h : Height) (u : Timestamp)
    (p : Pair) (past : Option AprRecord) (x : Float) :
    renewed k r t h u p (some { renewed k r t h u p past with apr := x }) =
      renewed k r t h u p past := by
  rw [renewed, Option.map_some, renewed, ofRecord_record, renewInputs_again hk]

theorem value_refresh (hk : k.Steady) (r : Registry)
    (latest : String → Except IndexerError (Option AprRecord)) (t : AprTriggers) (h : Height)
    (u : Timestamp) :
    value k (refresh r latest t h u) =
      (toRenew t r).mapM fun p => (latest p.address).map (renewed k r t h u p) := by
  unfold refresh
  change value k (if (toRenew t r).isEmpty then _ else _) = _
  split
  · rename_i he
    rw [List.isEmpty_iff.1 he]
    rfl
  · have hm : ((toRenew t r).mapM fun p => (latest p.address).map (renewed k r t h u p)) =
        ((toRenew t r).mapM fun p => (latest p.address).map fun past =>
          (p, past.map Inputs.ofRecord)).map (List.map fun e =>
            record (value k (Market.load r)) h u e.1 (value k (renewInputs t e.1 e.2))) := by
      rw [Traverse.map_mapM]
      congr 1
      funext p
      cases latest p.address <;> rfl
    rw [hm]
    split
    · rename_i e he
      have he' : ((toRenew t r).mapM fun p => (latest p.address).map fun past =>
          (p, past.map Inputs.ofRecord)) = .error e := he
      rw [he']
      rfl
    · rename_i known hknown
      have hknown' : ((toRenew t r).mapM fun p => (latest p.address).map fun past =>
          (p, past.map Inputs.ofRecord)) = .ok known := hknown
      obtain ⟨-, hv⟩ := Settled.mapM (k := k) (f := fun (e : Pair × Option Inputs) =>
        renewInputs t e.1 e.2 >>= fun i => pure (e.1, i)) known fun e _ =>
          (renewInputs_settled hk t e.1 e.2).bind (settled_pure _)
      have hload (inputs : List (Pair × Inputs)) : Settled k (Market.load r >>= fun market =>
          pure (Except.ok (ε := IndexerError)
            (inputs.map fun e => record market h u e.1 e.2))) :=
        (Market.load_settled hk r).bind (settled_pure _)
      rw [hknown']
      refine (value_bind (hload _)).trans ?_
      rw [value_bind_pure, hv, List.map_map]
      rfl

def pastOf (latest : String → Except IndexerError (Option AprRecord)) (p : Pair) :
    Option AprRecord :=
  (latest p.address).toOption.getD none

theorem refresh_ok (hk : k.Steady) {r : Registry}
    {latest : String → Except IndexerError (Option AprRecord)} {t : AprTriggers} {h : Height}
    {u : Timestamp} {records : List AprRecord} :
    value k (refresh r latest t h u) = .ok records ↔
      (∀ p ∈ toRenew t r, ∃ past, latest p.address = .ok past) ∧
        records = (toRenew t r).map fun p => renewed k r t h u p (pastOf latest p) := by
  have hall (hp : ∀ p ∈ toRenew t r, ∃ past, latest p.address = .ok past) :
      ((toRenew t r).mapM fun p => (latest p.address).map (renewed k r t h u p)) =
        .ok ((toRenew t r).map fun p => renewed k r t h u p (pastOf latest p)) := by
    refine Traverse.mapM_ok_of_forall fun p hm => ?_
    obtain ⟨past, hpast⟩ := hp p hm
    rw [pastOf, hpast]
    rfl
  rw [value_refresh hk]
  constructor
  · intro hm
    have hp : ∀ p ∈ toRenew t r, ∃ past, latest p.address = .ok past := by
      intro p hp
      obtain ⟨a, ha⟩ := Traverse.exists_ok_of_mapM hm hp
      cases hl : latest p.address with
      | error e => simp [hl, Except.map] at ha
      | ok past => exact ⟨past, rfl⟩
    exact ⟨hp, (Except.ok.inj ((hall hp).symm.trans hm)).symm⟩
  · rintro ⟨hp, rfl⟩
    exact hall hp

end Apr

end PoolLedger
