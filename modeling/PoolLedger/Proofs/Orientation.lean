import Mathlib.Data.List.Forall2
import PoolLedger.Proofs.Coins
import PoolLedger.Proofs.Emitters
import PoolLedger.Proofs.Messages
import PoolLedger.Proofs.Movements

/-! Orientation. A pair is found by its denoms in either order, and what is made of an
event does not depend on the order in which the chain lists its coins: amounts stand on the
side of the pair whose denom they are of. -/

namespace PoolLedger

open Asking

variable {r : Registry} {pair : Pair} {o : Orientation} {a b : String}

namespace Pair

def legs (p : Pair) : Orientation → String × String
  | .canonical => (p.base.denom, p.quote.denom)
  | .reversed => (p.quote.denom, p.base.denom)

theorem legs_of_orientation? (h : pair.orientation? a b = some o) : pair.legs o = (a, b) := by
  unfold orientation? at h
  split at h
  · rename_i hab
    cases h
    rw [legs, hab.1, hab.2]
  · split at h
    · rename_i hab
      cases h
      rw [legs, hab.1, hab.2]
    · cases h

theorem orientation?_of_legs (hne : a ≠ b) (h : pair.legs o = (a, b)) :
    pair.orientation? a b = some o := by
  cases o with
  | canonical =>
    obtain ⟨rfl, rfl⟩ := Prod.mk.inj h
    exact if_pos ⟨rfl, rfl⟩
  | reversed =>
    obtain ⟨rfl, rfl⟩ := Prod.mk.inj h
    rw [orientation?, if_neg fun h => hne h.1, if_pos ⟨rfl, rfl⟩]

theorem legs_flip (p : Pair) (o : Orientation) : p.legs o.flip = (p.legs o).swap := by
  cases o <;> rfl

theorem orientation?_swap (hne : a ≠ b) :
    pair.orientation? b a = (pair.orientation? a b).map Orientation.flip := by
  have hflip (o : Orientation) : o.flip.flip = o := by cases o <;> rfl
  ext o
  rw [Option.map_eq_some_iff]
  constructor
  · intro h
    refine ⟨o.flip, orientation?_of_legs hne ?_, hflip o⟩
    rw [legs_flip, legs_of_orientation? h, Prod.swap_prod_mk]
  · rintro ⟨o, h, rfl⟩
    refine orientation?_of_legs hne.symm ?_
    rw [legs_flip, legs_of_orientation? h, Prod.swap_prod_mk]

end Pair

namespace Registry

theorem find?_swap (r : Registry) (hne : a ≠ b) :
    r.find? b a = (r.find? a b).map fun m => (m.1, m.2.flip) := by
  rw [find?, find?, List.map_findSome?]
  congr 1
  funext p
  rw [Function.comp_apply, Pair.orientation?_swap hne, Option.map_map, Option.map_map]
  rfl

theorem legs_of_find? (h : r.find? a b = some (pair, o)) : pair.legs o = (a, b) := by
  obtain ⟨p, -, hp⟩ := List.exists_of_findSome?_eq_some h
  obtain ⟨o', ho, he⟩ := Option.map_eq_some_iff.1 hp
  cases he
  exact Pair.legs_of_orientation? ho

end Registry

namespace LiquidityGroup

def turned (g : LiquidityGroup) : LiquidityGroup := { g with first := g.second, second := g.first }

def amountOf? (g : LiquidityGroup) (denom : String) : Option Amount :=
  if g.first.2 = denom then some g.first.1
  else if g.second.2 = denom then some g.second.1
  else none

/-- The same group, or the same coins of distinct denoms in the other order. -/
def SameCoins (g g' : LiquidityGroup) : Prop :=
  g' = g ∨ (g' = g.turned ∧ g.first.2 ≠ g.second.2)

variable {g g' : LiquidityGroup}

theorem amountOf?_of_found (hne : g.first.2 ≠ g.second.2)
    (h : r.find? g.first.2 g.second.2 = some (pair, o)) :
    g.amountOf? pair.base.denom = some (g.amounts o).1 ∧
      g.amountOf? pair.quote.denom = some (g.amounts o).2 := by
  have hlegs := Registry.legs_of_find? h
  cases o with
  | canonical =>
    obtain ⟨hbase, hquote⟩ := Prod.mk.inj hlegs
    rw [hbase, hquote]
    exact ⟨if_pos rfl, (if_neg hne).trans (if_pos rfl)⟩
  | reversed =>
    obtain ⟨hquote, hbase⟩ := Prod.mk.inj hlegs
    rw [hbase, hquote]
    exact ⟨(if_neg hne).trans (if_pos rfl), if_pos rfl⟩

end LiquidityGroup

/-- The change of liquidity counts what a group names under the denoms of a pair. -/
structure LiquidityChange.Reports (e : LiquidityChange) (g : LiquidityGroup) (pair : Pair) :
    Prop where
  baseDenom : e.baseDenom = pair.base.denom
  quoteDenom : e.quoteDenom = pair.quote.denom
  baseAmount : g.amountOf? pair.base.denom = some e.baseAmount
  quoteAmount : g.amountOf? pair.quote.denom = some e.quoteAmount
  basePrice : e.basePrice = Extraction.basePrice e.baseAmount e.quoteAmount
  uniqueKey : e.uniqueKey = eventKey e.height e.baseDenom e.baseAmount e.quoteDenom e.quoteAmount

namespace Extraction

variable {tx tx' : Transaction} {msg : Nat} {creator : String} {op : LiquidityOp}
  {sent : Option Amount} {g g' : LiquidityGroup}

def SameEvents (x y : Extraction) : Prop := x.events = y.events

theorem related_same (p : Asking Extraction) : Related SameEvents p p := fun _ _ => ⟨rfl, rfl⟩

theorem ofGroup_turned (hne : g.first.2 ≠ g.second.2) :
    Related SameEvents (ofGroup r tx creator msg op sent g)
      (ofGroup r tx creator msg op sent g.turned) := by
  have hfind : r.find? g.turned.first.2 g.turned.second.2 =
      (r.find? g.first.2 g.second.2).map fun m => (m.1, m.2.flip) := r.find?_swap hne
  unfold ofGroup
  rw [hfind]
  cases r.find? g.first.2 g.second.2 with
  | none => exact related_pure rfl
  | some m =>
    obtain ⟨pair, o⟩ := m
    cases o with
    | canonical => exact related_same _
    | reversed => exact related_same _

theorem ofGroup_related (h : g.SameCoins g') :
    Related SameEvents (ofGroup r tx creator msg op sent g)
      (ofGroup r tx creator msg op sent g') := by
  obtain rfl | ⟨rfl, hne⟩ := h
  · exact related_same _
  · exact ofGroup_turned hne

theorem Grouped.reports {x : Extraction} (h : Grouped r tx creator msg op sent g x)
    {e : LiquidityChange} (he : .liquidity e ∈ x.events) :
    e.op = op ∧ ∃ pair o, r.find? g.first.2 g.second.2 = some (pair, o) ∧
      (g.first.2 ≠ g.second.2 → e.Reports g pair) := by
  cases h with
  | @change pair o pool found =>
    cases List.mem_singleton.1 he
    refine ⟨rfl, pair, o, found, fun hne => ?_⟩
    obtain ⟨hbase, hquote⟩ := LiquidityGroup.amountOf?_of_found hne found
    exact ⟨rfl, rfl, hbase, hquote, rfl, rfl⟩
  | unmatched => cases he

end Extraction

def Turned (v v' : String) : Prop :=
  ∃ x y, readCoinPair? v = some (x, y) ∧ readCoinPair? v' = some (y, x) ∧ x.2 ≠ y.2

theorem turned_of_listed {first second : String} {x y : Amount × String}
    (h : readCoinPair? (first ++ "," ++ second) = some (x, y)) (hne : x.2 ≠ y.2) :
    Turned (first ++ "," ++ second) (second ++ "," ++ first) := by
  refine ⟨x, y, h, ?_, hne⟩
  have hpieces (l l' : String) : Text.pieces ',' (l ++ "," ++ l').toList =
      l.toList.splitOn ',' ++ l'.toList.splitOn ',' := by
    rw [Text.pieces_eq_splitOn, String.toList_append, String.toList_append, List.append_assoc]
    exact List.splitOn_append_cons_self ..
  unfold readCoinPair? at h ⊢
  rw [hpieces] at h ⊢
  obtain ⟨p, ps, hfirst⟩ := List.exists_cons_of_ne_nil (List.splitOn_ne_nil ',' first.toList)
  obtain ⟨q, qs, hsecond⟩ := List.exists_cons_of_ne_nil (List.splitOn_ne_nil ',' second.toList)
  rw [hfirst, hsecond] at h ⊢
  cases ps with
  | cons p' ps => cases ps <;> cases h
  | nil =>
    cases qs with
    | cons q' qs => cases h
    | nil =>
      obtain ⟨x', hx, h⟩ := Option.bind_eq_some_iff.1 h
      obtain ⟨y', hy, h⟩ := Option.bind_eq_some_iff.1 h
      cases h
      change (readCoinChars? q).bind (fun y => (readCoinChars? p).bind fun x => some (y, x)) = _
      rw [hx, hy]
      rfl

structure Attribute.SameCoins (a a' : Attribute) : Prop where
  key : a.key = a'.key
  value : a.value = a'.value ∨
    (∃ op, a.key = (Extraction.actionOf op).assetsKey) ∧ Turned a.value a'.value

structure LogEvent.SameCoins (e e' : LogEvent) : Prop where
  kind : e.kind = e'.kind
  attributes : List.Forall₂ Attribute.SameCoins e.attributes e'.attributes

structure LogEntry.SameCoins (e e' : LogEntry) : Prop where
  msgIndex : e.msgIndex = e'.msgIndex
  events : List.Forall₂ LogEvent.SameCoins e.events e'.events

/-- Transactions that differ in the order of coins in their logs at most. -/
def Transaction.SameCoins (tx tx' : Transaction) : Prop :=
  ∃ rawLog log log', tx' = { tx with rawLog := rawLog } ∧ Log.read? tx.rawLog = some log ∧
    Log.read? rawLog = some log' ∧ List.Forall₂ LogEntry.SameCoins log log'

theorem Attribute.SameCoins.value_eq {a a' : Attribute} (h : a.SameCoins a')
    (hkey : ∀ op, a.key ≠ (Extraction.actionOf op).assetsKey) : a.value = a'.value := by
  obtain hvalue | ⟨⟨op, hop⟩, -⟩ := h.value
  · exact hvalue
  · exact absurd hop (hkey op)

section Relations

variable {α β γ δ : Type} {R : α → β → Prop} {S : γ → δ → Prop}

theorem rel_find? {p : α → Bool} {q : β → Bool} (hpq : ∀ x y, R x y → p x = q y) {xs : List α}
    {ys : List β} (h : List.Forall₂ R xs ys) : Option.Rel R (xs.find? p) (ys.find? q) := by
  induction h with
  | nil => exact .none
  | @cons x y xs ys hxy _ ih =>
    rw [List.find?_cons, List.find?_cons, ← hpq x y hxy]
    split
    · exact .some hxy
    · exact ih

theorem rel_bind {x : Option α} {y : Option β} {f : α → Option γ} {g : β → Option δ}
    (h : Option.Rel R x y) (hfg : ∀ a b, R a b → Option.Rel S (f a) (g b)) :
    Option.Rel S (x.bind f) (y.bind g) := by
  cases h with
  | none => exact .none
  | some hab => exact hfg _ _ hab

theorem rel_map {x : Option α} {y : Option β} {f : α → γ} {g : β → δ} (h : Option.Rel R x y)
    (hfg : ∀ a b, R a b → S (f a) (g b)) : Option.Rel S (x.map f) (y.map g) := by
  cases h with
  | none => exact .none
  | some hab => exact .some (hfg _ _ hab)

theorem rel_mapM {f : α → Option γ} {g : β → Option δ}
    (hfg : ∀ x y, R x y → Option.Rel S (f x) (g y)) {xs : List α} {ys : List β}
    (h : List.Forall₂ R xs ys) : Option.Rel (List.Forall₂ S) (xs.mapM f) (ys.mapM g) := by
  induction h with
  | nil => exact .some .nil
  | cons hxy _ ih =>
    rw [List.mapM_cons, List.mapM_cons]
    exact rel_bind (hfg _ _ hxy) fun c d hcd => rel_bind ih fun cs ds hcs => .some (.cons hcd hcs)

theorem rel_toList {x : Option α} {y : Option β} (h : Option.Rel R x y) :
    List.Forall₂ R x.toList y.toList := by
  cases h with
  | none => exact .nil
  | some hab => exact .cons hab .nil

theorem rel_refl {T : α → α → Prop} (hT : ∀ a, T a a) (x : Option α) : Option.Rel T x x := by
  cases x with
  | none => exact .none
  | some a => exact .some (hT a)

end Relations

structure LiquidityDraft.SameCoins (d d' : LiquidityDraft) : Prop where
  pairAddress : d.pairAddress = d'.pairAddress
  assets : Option.Rel (fun v v' => v = v' ∨ Turned v v') d.assets d'.assets
  share : d.share = d'.share

structure LiquidityScan.SameCoins (s s' : LiquidityScan) : Prop where
  contract : s.contract = s'.contract
  current : Option.Rel LiquidityDraft.SameCoins s.current s'.current
  done : List.Forall₂ LiquidityDraft.SameCoins s.done s'.done

theorem LiquidityScan.SameCoins.step {s s' : LiquidityScan} {a a' : Attribute}
    (op : LiquidityOp) (h : s.SameCoins s') (ha : a.SameCoins a') :
    (step (Extraction.actionOf op) s a).SameCoins (step (Extraction.actionOf op) s' a') := by
  have hvalue {key : String} (hkey : a.key = key)
      (hassets : ∀ op, key ≠ (Extraction.actionOf op).assetsKey) : a.value = a'.value :=
    ha.value_eq fun op => hkey ▸ hassets op
  have hdone : List.Forall₂ LiquidityDraft.SameCoins (s.current.toList ++ s.done)
      (s'.current.toList ++ s'.done) := List.rel_append (rel_toList h.current) h.done
  unfold LiquidityScan.step
  rw [← ha.key]
  split
  · rename_i hkey
    exact ⟨hvalue hkey fun op => by cases op <;> decide, h.current, h.done⟩
  · split
    · rename_i hkey
      rw [← hvalue hkey fun op => by cases op <;> decide, ← h.contract]
      refine ⟨rfl, ?_, hdone⟩
      exact rel_refl (fun d => ⟨rfl, rel_refl (fun _ => .inl rfl) _, rfl⟩) _
    · split
      · exact ⟨h.contract, rel_map h.current fun d d' hd =>
          ⟨hd.pairAddress, .some (ha.value.imp_right And.right), hd.share⟩, h.done⟩
      · split
        · rename_i hkey
          refine ⟨h.contract, rel_map h.current fun d d' hd =>
            ⟨hd.pairAddress, hd.assets, ?_⟩, h.done⟩
          exact congrArg some (hvalue hkey fun op' => by cases op <;> cases op' <;> decide)
        · exact h

theorem LiquidityDraft.SameCoins.group? {d d' : LiquidityDraft} (h : d.SameCoins d') :
    Option.Rel LiquidityGroup.SameCoins d.group? d'.group? := by
  have hcoins : ∀ v v', v = v' ∨ Turned v v' →
      Option.Rel (fun c c' => c' = c ∨ c' = c.swap ∧ c.1.2 ≠ c.2.2) (readCoinPair? v)
        (readCoinPair? v') := by
    rintro v v' (rfl | ⟨x, y, hv, hv', hne⟩)
    · exact rel_refl (fun _ => .inl rfl) _
    · rw [hv, hv']
      exact .some (.inr ⟨rfl, hne⟩)
  unfold LiquidityDraft.group?
  rw [← h.share, ← h.pairAddress]
  refine rel_bind h.assets fun v v' hv => rel_bind (hcoins v v' hv) fun c c' hc => ?_
  obtain ⟨x, y⟩ := c
  obtain rfl | ⟨rfl, hne⟩ := hc
  · exact rel_refl (fun _ => .inl rfl) _
  · cases d.share with
    | none => exact .some (.inr ⟨rfl, hne⟩)
    | some raw =>
      refine rel_bind (rel_refl (T := Eq) (fun _ => rfl) _) ?_
      rintro share - rfl
      exact .some (.inr ⟨rfl, hne⟩)

theorem SwapHop.column_related {xs ys : List Attribute}
    (h : List.Forall₂ Attribute.SameCoins xs ys) {key : String}
    (hkey : ∀ op, key ≠ (Extraction.actionOf op).assetsKey) : column xs key = column ys key := by
  unfold column
  induction h with
  | nil => rfl
  | @cons a a' xs ys ha _ ih =>
    rw [List.filter_cons, List.filter_cons, ← ha.key]
    by_cases hak : a.key = key
    · rw [if_pos (decide_eq_true hak), if_pos (decide_eq_true hak), List.map_cons, List.map_cons,
        ih, ha.value_eq fun op => hak ▸ hkey op]
    · rw [if_neg (by simpa using hak), if_neg (by simpa using hak), ih]

namespace LogEntry.SameCoins

variable {e e' : LogEntry}

theorem attributes (h : e.SameCoins e') :
    List.Forall₂ Attribute.SameCoins e.attributes e'.attributes := by
  refine List.rel_flatMap (R := LogEvent.SameCoins) (List.rel_filter ?_ h.events) fun _ _ hev =>
    hev.attributes
  intro ev ev' hev
  simp only [hev.kind]

theorem liquidityGroups? (h : e.SameCoins e') (op : LiquidityOp) :
    Option.Rel (List.Forall₂ LiquidityGroup.SameCoins)
      (e.liquidityGroups? (Extraction.actionOf op))
      (e'.liquidityGroups? (Extraction.actionOf op)) := by
  have hstart : LiquidityScan.start.SameCoins .start := ⟨rfl, .none, .nil⟩
  have hscan := List.rel_foldl (P := LiquidityScan.SameCoins) (R := Attribute.SameCoins)
    (fun _ _ hs _ _ ha => hs.step op ha) hstart h.attributes
  exact rel_mapM (fun _ _ hd => hd.group?)
    (List.rel_reverse (List.rel_append (rel_toList hscan.current) hscan.done))

theorem swapHops (h : e.SameCoins e') : e.swapHops = e'.swapHops := by
  refine LogEntry.swapHops_congr fun key hkey => SwapHop.column_related h.attributes ?_
  rintro op rfl
  cases op <;> revert hkey <;> decide

end LogEntry.SameCoins

theorem Log.entryOf?_related {log log' : List LogEntry}
    (h : List.Forall₂ LogEntry.SameCoins log log') (msg : Nat) :
    Option.Rel LogEntry.SameCoins (entryOf? log msg) (entryOf? log' msg) := by
  have hindexed (place : Nat) : List.Forall₂ (fun p p' => p.1 = p'.1 ∧ p.2.SameCoins p'.2)
      (indexedFrom place log) (indexedFrom place log') := by
    induction h generalizing place with
    | nil => exact .nil
    | cons he _ ih => exact .cons ⟨by rw [he.msgIndex], he⟩ (ih (place + 1))
  have hfind := rel_find? (p := fun p => p.1 = msg) (q := fun p => p.1 = msg)
    (fun p p' hp => by rw [hp.1]) (List.rel_reverse (hindexed 0))
  unfold entryOf? indexed
  generalize (indexedFrom 0 log).reverse.find? _ = found at hfind ⊢
  generalize (indexedFrom 0 log').reverse.find? _ = found' at hfind ⊢
  cases hfind with
  | none => exact .none
  | some hp => exact .some hp.2

namespace Extraction

variable {tx tx' : Transaction} {msg : Nat} {op : LiquidityOp} {sent : Option Amount}

theorem related_concat {α : Type} {Q : α → α → Prop} {f g : α → Asking Extraction}
    {xs ys : List α} (h : List.Forall₂ Q xs ys)
    (hf : ∀ x y, Q x y → Related SameEvents (f x) (g y)) :
    Related SameEvents (do return concat (← xs.mapM f)) (do return concat (← ys.mapM g)) := by
  refine (Related.mapM h hf).bind fun parts parts' hparts => related_pure ?_
  change parts.flatMap events = parts'.flatMap events
  induction hparts with
  | nil => rfl
  | cons hpart _ ih => rw [List.flatMap_cons, List.flatMap_cons, hpart, ih]

theorem ofLiquidity_related {e e' : LogEntry} (creator : String) (h : e.SameCoins e') :
    Related SameEvents (ofLiquidity r tx creator msg op sent e)
      (ofLiquidity r tx creator msg op sent e') := by
  have hgroups := h.liquidityGroups? op
  unfold ofLiquidity
  generalize e.liquidityGroups? (actionOf op) = groups at hgroups ⊢
  generalize e'.liquidityGroups? (actionOf op) = groups' at hgroups ⊢
  cases hgroups with
  | none => exact related_same _
  | some hgroups =>
    cases hgroups with
    | nil => exact related_same _
    | cons hg hgs => exact related_concat (.cons hg hgs) fun _ _ => ofGroup_related

theorem ofMessage_related {entry entry' : Option LogEntry}
    (h : Option.Rel LogEntry.SameCoins entry entry') (e : Execution) :
    Related SameEvents (ofMessage r tx entry msg e) (ofMessage r tx entry' msg e) := by
  cases h with
  | none => exact related_same _
  | some hentry =>
    unfold ofMessage
    split
    · exact related_same _
    · exact related_same _
    · exact related_same _
    · exact related_same _
    · exact related_same _
    · refine related_pure ?_
      unfold ofSwaps
      rw [hentry.swapHops]
      rfl
    · exact ofLiquidity_related _ hentry
    · exact ofLiquidity_related _ hentry

theorem ofTransaction_related (h : tx.SameCoins tx') :
    Related SameEvents (ofTransaction r tx) (ofTransaction r tx') := by
  obtain ⟨rawLog, log, log', rfl, hlog, hlog', hcoins⟩ := h
  rw [ofTransaction, ofTransaction]
  by_cases hcode : tx.code ≠ 0
  · rw [if_pos hcode, if_pos hcode]
    exact related_same _
  · rw [if_neg hcode, if_neg hcode]
    cases readExecutions tx.bytes with
    | error => exact related_same _
    | ok executions =>
      simp only [hlog, hlog']
      refine related_concat (Q := Eq) (List.forall₂_same.2 fun m _ => rfl) ?_
      rintro m - rfl
      exact ofMessage_related (Log.entryOf?_related hcoins m.1) m.2

theorem ofTransaction_comes (r : Registry) (tx : Transaction) :
    Always (ofTransaction r tx) fun x => ∀ e ∈ x.events, ∃ log, Log.read? tx.rawLog = some log ∧
      ∃ msg execution part, Comes r tx msg execution (Log.entryOf? log msg) part ∧
        e ∈ part.events := by
  unfold ofTransaction
  split
  · exact always_pure (by simp [skip])
  · split
    · exact always_pure (by simp [skip])
    · split
      · exact always_pure (by simp [skip])
      · rename_i executions _ _ log hlog
        refine (Always.mapM (P := fun part => ∃ msg execution,
          Comes r tx msg execution (Log.entryOf? log msg) part) _ fun m _ k before =>
            ⟨m.1, m.2, ofMessage_comes r tx _ m.1 m.2 k before⟩).bind fun parts hparts => ?_
        refine always_pure fun e he => ⟨log, hlog, ?_⟩
        obtain ⟨part, hpart, hpe⟩ := List.mem_flatMap.1 he
        obtain ⟨msg, execution, hcomes⟩ := hparts part hpart
        exact ⟨msg, execution, part, hcomes, hpe⟩

end Extraction

def Transaction.groups (tx : Transaction) (op : LiquidityOp) : List LiquidityGroup :=
  ((Log.read? tx.rawLog).getD []).flatMap fun entry =>
    (entry.liquidityGroups? (Extraction.actionOf op)).getD []

namespace Extraction

variable {tx : Transaction}

theorem exists_of_mem_concat {α : Type} {R : α → Extraction → Prop} {xs : List α}
    {parts : List Extraction} (h : List.Forall₂ R xs parts) {e : Event}
    (he : e ∈ (concat parts).events) : ∃ x ∈ xs, ∃ part, R x part ∧ e ∈ part.events := by
  change e ∈ parts.flatMap events at he
  induction h with
  | nil => cases he
  | @cons x part xs parts hpart _ ih =>
    rw [List.flatMap_cons, List.mem_append] at he
    obtain he | he := he
    · exact ⟨x, List.mem_cons_self, part, hpart, he⟩
    · obtain ⟨y, hy, hyp⟩ := ih he
      exact ⟨y, List.mem_cons_of_mem x hy, hyp⟩

theorem Hopped.liquidity_nil {sender : String} {msg : Nat} {hop : SwapHop} {x : Extraction}
    (h : Hopped r tx sender msg hop x) (e : LiquidityChange) : .liquidity e ∉ x.events := by
  cases h with
  | swap => simp [event]
  | unmatched => simp [skip]

theorem Comes.reports {log : List LogEntry} (hlog : Log.read? tx.rawLog = some log) {msg : Nat}
    {execution : Execution} {x : Extraction}
    (h : Comes r tx msg execution (Log.entryOf? log msg) x) {e : LiquidityChange}
    (he : .liquidity e ∈ x.events) :
    ∃ g ∈ tx.groups e.op, ∃ pair o, r.find? g.first.2 g.second.2 = some (pair, o) ∧
      (g.first.2 ≠ g.second.2 → e.Reports g pair) := by
  generalize hentry : Log.entryOf? log msg = entry at h
  cases h with
  | unparseable => cases he
  | other => cases he
  | staking => cases List.mem_singleton.1 he
  | unlogged => cases he
  | hopless => cases he
  | hops _ _ _ each =>
    obtain ⟨hop, -, part, hpart, hpe⟩ := exists_of_mem_concat each he
    exact absurd hpe (hpart.liquidity_nil e)
  | groupless => cases he
  | @groups entry m op sent groups parts _ _ read _ each =>
    obtain ⟨g, hg, part, hpart, hpe⟩ := exists_of_mem_concat each he
    obtain ⟨rfl, hreports⟩ := hpart.reports hpe
    refine ⟨g, List.mem_flatMap.2 ⟨entry, ?_, ?_⟩, hreports⟩
    · rw [hlog]
      exact Log.mem_of_entryOf? hentry
    · rw [read]
      exact hg

end Extraction

def Delta.side? (d : Delta) (pair : Pair) (denom : String) : Option Int :=
  if pair.base.denom = denom then some d.base.val
  else if pair.quote.denom = denom then some d.quote.val
  else none

def Swap.movedOf? (s : Swap) (denom : String) : Option Amount :=
  if s.offerDenom = denom then some s.offerAmount
  else if s.askDenom = denom then some s.returnAmount
  else none

/-- The swap counts on a pair: what is offered goes in on the side of its denom, and what is
returned goes out on the side of the other. -/
structure Swap.CountsOn (s : Swap) (pair : Pair) : Prop where
  pairAddress : s.pairAddress = pair.address
  pairKey : s.pairKey = pair.key
  offered : Movement.IsBalance s.offerAmount.val →
    s.delta.side? pair s.offerDenom = some s.offerAmount.val
  returned : Movement.IsBalance s.returnAmount.val →
    s.delta.side? pair s.askDenom = some (-s.returnAmount.val)
  base : s.movedOf? pair.base.denom = some s.baseAmount
  quote : s.movedOf? pair.quote.denom = some s.quoteAmount

theorem Extraction.swapOf_countsOn {tx : Transaction} (sender : String) (msg : Nat) {hop : SwapHop}
    (found : r.find? hop.offerAsset hop.askAsset = some (pair, o))
    (hne : hop.offerAsset ≠ hop.askAsset) :
    (swapOf tx sender msg hop pair o.direction).CountsOn pair := by
  have hlegs := Registry.legs_of_find? found
  cases o with
  | canonical =>
    obtain ⟨hbase, hquote⟩ := Prod.mk.inj hlegs
    refine ⟨rfl, rfl, fun h => ?_, fun h => ?_, ?_, ?_⟩
    · exact (if_pos hbase).trans (congrArg some (Amount.toBalance_val h).1)
    · refine (if_neg (hbase ▸ hne)).trans ((if_pos hquote).trans ?_)
      exact congrArg some (Amount.toBalance_val h).2
    · exact if_pos hbase.symm
    · exact (if_neg (hquote ▸ hne)).trans (if_pos hquote.symm)
  | reversed =>
    obtain ⟨hquote, hbase⟩ := Prod.mk.inj hlegs
    refine ⟨rfl, rfl, fun h => ?_, fun h => ?_, ?_, ?_⟩
    · refine (if_neg (hbase ▸ hne.symm)).trans ((if_pos hquote).trans ?_)
      exact congrArg some (Amount.toBalance_val h).1
    · exact (if_pos hbase).trans (congrArg some (Amount.toBalance_val h).2)
    · exact (if_neg (hbase ▸ hne)).trans (if_pos hbase.symm)
    · exact if_pos hquote.symm

namespace Extraction

/-- Distinct denoms are found in both orders or in none, on one pair and in opposite
orientations. So the events of a transaction do not depend on the order in which its log
lists the coins of a group, each change of liquidity counts what was logged under the
denoms of its pair, and each swap moves the reserve of each denom by what it moved of it. -/
theorem orientation_normalized (r : Registry) :
    (∀ a b, a ≠ b → r.find? b a = (r.find? a b).map fun m => (m.1, m.2.flip)) ∧
    (∀ first second x y, readCoinPair? (first ++ "," ++ second) = some (x, y) → x.2 ≠ y.2 →
      Turned (first ++ "," ++ second) (second ++ "," ++ first)) ∧
    (∀ tx tx', tx.SameCoins tx' → ∀ k before,
      (ofTransaction r tx k before).1.events = (ofTransaction r tx' k before).1.events) ∧
    (∀ tx k before, ∀ e ∈ (ofTransaction r tx k before).1.liquidity,
      ∃ g ∈ tx.groups e.op, ∃ pair o, r.find? g.first.2 g.second.2 = some (pair, o) ∧
        (g.first.2 ≠ g.second.2 → e.Reports g pair)) ∧
    ∀ tx k before, ∀ s ∈ (ofTransaction r tx k before).1.swaps, s.offerDenom ≠ s.askDenom →
      ∃ pair o, r.find? s.offerDenom s.askDenom = some (pair, o) ∧ s.CountsOn pair := by
  refine ⟨fun a b hne => r.find?_swap hne, fun first second x y => turned_of_listed,
    fun tx tx' h k before => (ofTransaction_related h k before).1, fun tx k before e he => ?_,
    fun tx k before s hs hne => ?_⟩
  · obtain ⟨log, hlog, msg, execution, part, hcomes, hpe⟩ :=
      ofTransaction_comes r tx k before _ (mem_liquidity.1 he)
    exact hcomes.reports hlog hpe
  · have hfrom := ofTransaction_from r tx k before _ (mem_swaps.1 hs)
    cases hfrom with
    | @swap sender msg hop pair direction traded =>
      obtain ⟨⟨p, o⟩, found, he⟩ := Option.map_eq_some_iff.1 traded
      cases he
      exact ⟨p, o, found, swapOf_countsOn sender msg found hne⟩

end Extraction

namespace TwoCoins

open Sample

def deposit (first second : String) : Transaction :=
  reporting "provide_liquidity" [provision "pool" (first ++ "," ++ second)]

theorem sameCoins_deposit {first second : String}
    (h : Turned (first ++ "," ++ second) (second ++ "," ++ first)) :
    (deposit first second).SameCoins (deposit second first) := by
  have hsame (a : Attribute) : a.SameCoins a := ⟨rfl, .inl rfl⟩
  have hattributes : List.Forall₂ Attribute.SameCoins
      (provision "pool" (first ++ "," ++ second)).attributes
      (provision "pool" (second ++ "," ++ first)).attributes :=
    .cons (hsame _) (.cons (hsame _) (.cons ⟨rfl, .inr ⟨⟨.provide, rfl⟩, h⟩⟩
      (.cons (hsame _) .nil)))
  exact ⟨_, _, _, rfl, Log.read?_ofEvents _, Log.read?_ofEvents _,
    .cons ⟨rfl, .cons ⟨rfl, hattributes⟩ .nil⟩ .nil⟩

theorem exists_deposited : ∃ e, e ∈ (Extraction.ofTransaction indexer.registry
    (deposit "2usdt" "1orai") querier []).1.liquidity := by
  refine List.exists_mem_of_ne_nil _ ?_
  rw [Extraction.ofTransaction_settled steady, deposit, value_reporting (by simp)]
  decide +kernel

theorem exists_swapped : ∃ s ∈ (Extraction.ofTransaction indexer.registry
    (firstSwap) querier []).1.swaps, s.offerDenom ≠ s.askDenom := by
  rw [Extraction.ofTransaction_settled steady, firstSwap, value_reporting (by simp)]
  decide +kernel

theorem groups_deposit : ∀ op, ∀ g ∈ (deposit "2usdt" "1orai").groups op,
    g.first.2 ≠ g.second.2 := by
  intro op
  simp only [Transaction.groups, deposit, reporting, Log.read?_ofEvents, Option.getD_some,
    List.flatMap_cons, List.flatMap_nil, List.append_nil]
  cases op <;> decide +kernel

end TwoCoins

namespace Extraction

theorem deposit_and_swap_normalized :
    Sample.indexer.registry.find? "usdt" "orai" =
        (Sample.indexer.registry.find? "orai" "usdt").map (fun m => (m.1, m.2.flip)) ∧
      (ofTransaction Sample.indexer.registry (TwoCoins.deposit "1orai" "2usdt")
          Sample.querier []).1.events =
        (ofTransaction Sample.indexer.registry (TwoCoins.deposit "2usdt" "1orai")
          Sample.querier []).1.events ∧
      (∃ e ∈ (ofTransaction Sample.indexer.registry (TwoCoins.deposit "2usdt" "1orai")
          Sample.querier []).1.liquidity, ∃ g pair, e.Reports g pair) ∧
      ∃ s ∈ (ofTransaction Sample.indexer.registry (Sample.firstSwap)
          Sample.querier []).1.swaps, ∃ pair, s.CountsOn pair := by
  obtain ⟨hfind, hturned, hevents, hliquidity, hswaps⟩ :=
    orientation_normalized Sample.indexer.registry
  have hlisted : readCoinPair? ("1orai" ++ "," ++ "2usdt") = some ((1, "orai"), (2, "usdt")) := by
    decide +kernel
  have hsame := TwoCoins.sameCoins_deposit (hturned _ _ _ _ hlisted (by decide))
  obtain ⟨e, he⟩ := TwoCoins.exists_deposited
  obtain ⟨g, hg, pair, o, -, hreports⟩ := hliquidity _ _ _ e he
  obtain ⟨s, hs, hne⟩ := TwoCoins.exists_swapped
  obtain ⟨pair', o', -, hcounts⟩ := hswaps _ _ _ s hs hne
  exact ⟨hfind "orai" "usdt" (by decide), hevents _ _ hsame Sample.querier [],
    ⟨e, he, g, pair, hreports (TwoCoins.groups_deposit _ g hg)⟩, s, hs, pair', hcounts⟩

end Extraction

end PoolLedger
