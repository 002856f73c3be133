import PoolLedger.Apr
import PoolLedger.Proofs.Extraction

/-! What is said. A program adds its questions to those asked before, and each of
them has the answer that the querier gave at that moment. -/

namespace PoolLedger

structure Said where
  question : Query
  answer : Except IndexerError question.Answer

namespace Querier

variable (k : Querier)

def told : List Query → List Said
  | [] => []
  | q :: before => told before ++ [⟨q, k.answer before q⟩]

theorem questions_told (asked : List Query) : (k.told asked).map Said.question = asked.reverse := by
  induction asked with
  | nil => rfl
  | cons q before ih => rw [told, List.map_append, ih, List.reverse_cons]; rfl

theorem length_told (asked : List Query) : (k.told asked).length = asked.length := by
  rw [← List.length_map Said.question, questions_told, List.length_reverse]

theorem told_append (new before : List Query) :
    ∃ said, k.told (new ++ before) = k.told before ++ said ∧
      said.map Said.question = new.reverse := by
  induction new with
  | nil => exact ⟨[], by simp, rfl⟩
  | cons q new ih =>
    obtain ⟨said, htold, hquestions⟩ := ih
    refine ⟨said ++ [⟨q, k.answer (new ++ before) q⟩], ?_, ?_⟩
    · rw [List.cons_append, told, htold, List.append_assoc]
    · rw [List.map_append, hquestions, List.reverse_cons]
      rfl

end Querier

namespace Asking

variable {α β : Type} {P Q : Query → Prop} {k : Querier} {before : List Query}

/-- What a program adds to what was said before. -/
def said (k : Querier) (before : List Query) (p : Asking α) : List Said :=
  (k.told (p k before).2).drop before.length

/-- A program that asks only questions with a property, whoever answers. -/
def Asks (P : Query → Prop) (p : Asking α) : Prop :=
  ∀ k before, ∃ new, (p k before).2 = new ++ before ∧ ∀ q ∈ new, P q

theorem asks_pure (a : α) : Asks P (pure a) := fun _ _ => ⟨[], rfl, by simp⟩

theorem asks_ask {q : Query} (h : P q) : Asks P (ask q) := fun _ _ => ⟨[q], rfl, by simpa⟩

theorem Asks.mono {p : Asking α} (h : Asks P p) (hPQ : ∀ q, P q → Q q) : Asks Q p :=
  fun k before => (h k before).imp fun _ hnew => ⟨hnew.1, fun q hq => hPQ q (hnew.2 q hq)⟩

theorem Asks.bind {p : Asking α} {f : α → Asking β} (hp : Asks P p) (hf : ∀ a, Asks P (f a)) :
    Asks P (p >>= f) := by
  intro k before
  obtain ⟨new, hnew, hPnew⟩ := hp k before
  obtain ⟨more, hmore, hPmore⟩ := hf (p k before).1 k (p k before).2
  refine ⟨more ++ new, ?_, fun q hq => (List.mem_append.1 hq).elim (hPmore q) (hPnew q)⟩
  change (f (p k before).1 k (p k before).2).2 = _
  rw [hmore, hnew, List.append_assoc]

theorem Asks.mapM {f : β → Asking α} (xs : List β) (hf : ∀ x ∈ xs, Asks P (f x)) :
    Asks P (xs.mapM f) := by
  induction xs with
  | nil => exact asks_pure _
  | cons x xs ih =>
    rw [List.mapM_cons]
    refine (hf x List.mem_cons_self).bind fun a => ?_
    exact (ih fun y hy => hf y (List.mem_cons_of_mem x hy)).bind fun as => asks_pure _

theorem Asks.told {p : Asking α} (h : Asks P p) :
    k.told (p k before).2 = k.told before ++ said k before p ∧
      ∀ e ∈ said k before p, P e.question := by
  obtain ⟨new, hnew, hP⟩ := h k before
  obtain ⟨more, htold, hquestions⟩ := k.told_append new before
  have hsaid : said k before p = more := by
    rw [said, hnew, htold, ← k.length_told before, List.drop_left]
  rw [hsaid, hnew, htold]
  refine ⟨rfl, fun e he => hP e.question ?_⟩
  rw [← List.mem_reverse, ← hquestions]
  exact List.mem_map_of_mem he

theorem pure_fst (a : α) : ((pure a : Asking α) k before).1 = a := rfl

theorem said_pure (a : α) : said k before (pure a) = [] := by
  rw [said]
  change (k.told before).drop before.length = []
  rw [← k.length_told before, List.drop_length]

theorem said_ask (q : Query) : said k before (ask q) = [⟨q, k.answer before q⟩] := by
  change (k.told before ++ [Said.mk q (k.answer before q)]).drop before.length =
    [Said.mk q (k.answer before q)]
  rw [← k.length_told before, List.drop_left]

theorem said_bind {p : Asking α} {f : α → Asking β} (hp : Asks P p)
    (hf : Asks Q (f (p k before).1)) :
    said k before (p >>= f) =
      said k before p ++ said k (p k before).2 (f (p k before).1) := by
  have hafter : k.told ((p >>= f) k before).2 =
      k.told before ++ (said k before p ++ said k (p k before).2 (f (p k before).1)) := by
    rw [← List.append_assoc, ← hp.told.1, ← hf.told.1]
    rfl
  rw [said, hafter, ← k.length_told before, List.drop_left]

theorem said_bind_pure {p : Asking α} (hp : Asks P p) {f : α → Asking β}
    (hf : ∃ b, f (p k before).1 = pure b) : said k before (p >>= f) = said k before p := by
  obtain ⟨b, hb⟩ := hf
  rw [said_bind (Q := P) hp (by rw [hb]; exact asks_pure b), hb, said_pure, List.append_nil]

theorem said_map {p : Asking α} (hp : Asks P p) (g : α → β) :
    said k before (p >>= fun a => pure (g a)) = said k before p :=
  said_bind_pure hp ⟨_, rfl⟩

end Asking

def Query.isYield : Query → Bool
  | .totalSupply _ | .totalBond _ | .rewards _ => true
  | .pool _ _ | .listing _ _ _ => false

namespace Asking

variable {α β : Type} {P Q : Query → Prop} {k : Querier} {before : List Query}

def yields (k : Querier) (before : List Query) (p : Asking α) : List Said :=
  (said k before p).filter fun e => e.question.isYield

abbrev Quiet (p : Asking α) : Prop := Asks (fun q => q.isYield = false) p

theorem quiet_pool (address : String) (height : Option Height) :
    Quiet (ask (.pool address height)) :=
  asks_ask rfl

theorem Quiet.yields {p : Asking α} (h : Quiet p) : yields k before p = [] := by
  rw [Asking.yields, List.filter_eq_nil_iff]
  intro e he
  simpa using h.told.2 e he

theorem Asks.yields_eq {p : Asking α} (h : Asks (fun q => q.isYield = true) p) :
    yields k before p = said k before p := by
  rw [yields, List.filter_eq_self]
  exact h.told.2

theorem yields_bind {p : Asking α} {f : α → Asking β} (hp : Asks P p)
    (hf : Asks Q (f (p k before).1)) :
    yields k before (p >>= f) =
      yields k before p ++ yields k (p k before).2 (f (p k before).1) := by
  rw [yields, said_bind hp hf, List.filter_append]
  rfl

theorem Quiet.yields_bind {p : Asking α} {f : α → Asking β} (hp : Quiet p)
    (hf : Asks Q (f (p k before).1)) :
    Asking.yields k before (p >>= f) = Asking.yields k (p k before).2 (f (p k before).1) := by
  rw [Asking.yields_bind hp hf, hp.yields, List.nil_append]

theorem yields_bind_pure {p : Asking α} (hp : Asks P p) {f : α → Asking β}
    (hf : ∃ b, f (p k before).1 = pure b) : yields k before (p >>= f) = yields k before p := by
  rw [yields, said_bind_pure hp hf]
  rfl

/-- The result of a program with what it says about yields, whoever answers. -/
def Speaks (p : Asking α) (R : α → List Said → Prop) : Prop :=
  Asks (fun _ => True) p ∧ ∀ k before, R (p k before).1 (yields k before p)

variable {R : α → List Said → Prop} {S : β → List Said → Prop}

theorem Quiet.speaks {p : Asking α} (hp : Quiet p) (h : ∀ k before, R (p k before).1 []) :
    Speaks p R := by
  refine ⟨hp.mono fun _ _ => trivial, fun k before => ?_⟩
  rw [hp.yields]
  exact h k before

theorem speaks_pure {a : α} (h : R a []) : Speaks (pure a) R :=
  Quiet.speaks (asks_pure a) fun _ _ => h

theorem Quiet.speaks_bind {p : Asking α} {f : α → Asking β} (hp : Quiet p)
    (hf : ∀ a, Speaks (f a) S) : Speaks (p >>= f) S := by
  refine ⟨(hp.mono fun _ _ => trivial).bind fun a => (hf a).1, fun k before => ?_⟩
  rw [hp.yields_bind (hf _).1]
  exact (hf _).2 k _

theorem Speaks.bind_pure {p : Asking α} {f : α → Asking β} (hp : Speaks p R)
    (hf : ∀ a, ∃ b, f a = pure b ∧ ∀ said, R a said → S b said) : Speaks (p >>= f) S := by
  refine ⟨hp.1.bind fun a => ?_, fun k before => ?_⟩
  · obtain ⟨b, hb, -⟩ := hf a
    rw [hb]
    exact asks_pure b
  · obtain ⟨b, hb, hRS⟩ := hf (p k before).1
    rw [yields_bind_pure hp.1 ⟨b, hb⟩, bind_fst, hb]
    exact hRS _ (hp.2 k before)

end Asking

open Asking

namespace Extraction

variable {r : Registry} {tx : Transaction}

theorem ofGroup_quiet (creator : String) (msg : Nat) (op : LiquidityOp) (sent : Option Amount)
    (g : LiquidityGroup) : Quiet (ofGroup r tx creator msg op sent g) := by
  unfold ofGroup
  split
  · exact asks_pure _
  · refine Asks.bind ?_ fun pool => asks_pure _
    unfold reservesAt
    refine (quiet_pool _ _).bind fun answer => ?_
    split
    · exact asks_pure _
    · exact asks_pure _

theorem parts_quiet (r : Registry) (tx : Transaction) : HoldsOfParts r tx Quiet where
  skip _ := asks_pure _
  empty := asks_pure _
  staking _ _ _ := asks_pure _
  swaps _ _ _ := asks_pure _
  group := ofGroup_quiet
  together _ xs h := (Asks.mapM xs h).bind fun _ => asks_pure _

theorem ofTransaction_quiet (r : Registry) (tx : Transaction) : Quiet (ofTransaction r tx) :=
  (parts_quiet r tx).ofTransaction

end Extraction

theorem Snapshot.resolveSeeds_quiet (r : Registry)
    (stored : String → Height → Except IndexerError (Option Snapshot))
    (first : List (String × Height)) : Quiet (resolveSeeds r stored first) := by
  have hcold (a : String) (h : Height) : Quiet (coldSeed r a h) := by
    unfold coldSeed
    refine (quiet_pool _ _).bind fun answer => ?_
    split
    · exact asks_pure _
    · exact asks_pure _
  unfold resolveSeeds
  split
  · exact asks_pure _
  · exact (Asks.mapM _ fun e _ => hcold e.1 e.2.1).bind fun cold => asks_pure _

theorem Market.load_quiet (r : Registry) : Quiet (Market.load r) := by
  unfold Market.load
  refine (Asks.mapM _ fun p _ => (quiet_pool _ _).bind fun answer => ?_).bind fun pools => asks_pure _
  split
  · exact asks_pure _
  · exact asks_pure _

end PoolLedger
