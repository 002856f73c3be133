import PoolLedger.Proofs.Distinct
import PoolLedger.Proofs.Emitters
import PoolLedger.Proofs.Reporting
import PoolLedger.Proofs.Runs
import PoolLedger.Proofs.Store.Merge

/-! What foreign contracts can do to registered pairs. Two transactions with the same messages,
whose logs differ in the events of foreign contracts alone, give the same swaps when these
events carry no attribute of a swap, and the same changes of liquidity on registered pairs when
the events can be told apart. So do their batches, and the stores that take them in. -/

namespace PoolLedger

open Asking

namespace Transaction

/-- The same messages, and logs that differ in the events of foreign contracts alone. -/
def Alike (r : Registry) (tx tx' : Transaction) : Prop :=
  ∃ rawLog, tx' = { tx with rawLog := rawLog } ∧
    (Log.read? tx.rawLog).map (List.map (LogEntry.native r)) =
      (Log.read? rawLog).map (List.map (LogEntry.native r))

def NodeForm (tx : Transaction) : Prop :=
  ∀ log ∈ Log.read? tx.rawLog, ∀ entry ∈ log, ∀ ev ∈ entry.contractEvents, ev.NodeForm

instance (tx : Transaction) : Decidable tx.NodeForm :=
  inferInstanceAs (Decidable (∀ log ∈ Log.read? tx.rawLog, _))

def Swapless (r : Registry) (tx : Transaction) : Prop :=
  ∀ log ∈ Log.read? tx.rawLog, ∀ entry ∈ log, ∀ ev ∈ entry.events, ev.isForeign r → ev.Swapless

instance (r : Registry) (tx : Transaction) : Decidable (tx.Swapless r) :=
  inferInstanceAs (Decidable (∀ log ∈ Log.read? tx.rawLog, _))

def Tidy (r : Registry) (tx : Transaction) : Prop :=
  ∀ log ∈ Log.read? tx.rawLog, ∀ entry ∈ log, entry.Tidy r .provide ∧ entry.Tidy r .withdraw

instance (r : Registry) (tx : Transaction) : Decidable (tx.Tidy r) :=
  inferInstanceAs (Decidable (∀ log ∈ Log.read? tx.rawLog, _))

end Transaction

namespace Extraction

variable {k : Querier} {r : Registry} {tx tx' : Transaction}

def onPairs (r : Registry) (x : Extraction) : List LiquidityChange :=
  x.liquidity.filter fun e => (r.byAddress? e.pairAddress).isSome

theorem onPairs_concat (parts : List Extraction) :
    (concat parts).onPairs r = parts.flatMap (onPairs r) := by
  rw [onPairs, liquidity_concat, List.filter_flatMap]
  rfl

def ofLog (r : Registry) (tx : Transaction) (executions : List (Nat × Execution))
    (log : List LogEntry) : Asking Extraction := do
  return concat (← executions.mapM fun (msg, e) => ofMessage r tx (Log.entryOf? log msg) msg e)

theorem ofTransaction_alike {P : Extraction → Extraction → Prop} (hskip : ∀ s, P (skip s) (skip s))
    (h : tx.Alike r tx')
    (hlog : ∀ executions log log', Log.read? tx.rawLog = some log →
      Log.read? tx'.rawLog = some log' →
      log.map (LogEntry.native r) = log'.map (LogEntry.native r) →
        P (value k (ofLog r tx executions log)) (value k (ofLog r tx executions log'))) :
    P (value k (ofTransaction r tx)) (value k (ofTransaction r tx')) := by
  obtain ⟨rawLog, rfl, hnative⟩ := h
  unfold ofTransaction
  split
  · exact hskip _
  · cases readExecutions tx.bytes with
    | error e => exact hskip _
    | ok executions =>
      cases hl : Log.read? tx.rawLog with
      | none =>
        rw [hl] at hnative
        cases hl' : Log.read? rawLog with
        | none => exact hskip _
        | some log' => rw [hl'] at hnative; cases hnative
      | some log =>
        rw [hl] at hnative
        cases hl' : Log.read? rawLog with
        | none => rw [hl'] at hnative; cases hnative
        | some log' =>
          rw [hl'] at hnative
          exact hlog executions log log' hl hl' (Option.some.inj hnative)

theorem ofSwaps_native {entry : LogEntry}
    (h : ∀ ev ∈ entry.events, ev.isForeign r → ev.Swapless) (sender : String) (msg : Nat) :
    ofSwaps r tx sender msg (entry.native r) = ofSwaps r tx sender msg entry := by
  rw [ofSwaps, ofSwaps, LogEntry.swapHops_native h]

theorem ofMessage_swaps_native {entry : Option LogEntry}
    (h : ∀ e ∈ entry, ∀ ev ∈ e.events, ev.isForeign r → ev.Swapless) (msg : Nat) (e : Execution) :
    (value k (ofMessage r tx (entry.map (LogEntry.native r)) msg e)).swaps =
      (value k (ofMessage r tx entry msg e)).swaps := by
  have hliquidity (creator : String) (op : LiquidityOp) (sent : Option Amount) (e : LogEntry) :
      (value k (ofLiquidity r tx creator msg op sent e)).swaps = [] :=
    (ofLiquidity_swaps creator msg op sent e).value k
  cases entry with
  | none => rfl
  | some entry =>
    rw [Option.map_some]
    unfold ofMessage
    split
    · rfl
    · rfl
    · rfl
    · rfl
    · rfl
    · simp only [ofSwaps_native (h entry rfl)]
    · simp only [hliquidity]
    · simp only [hliquidity]

theorem swaps_ofLog (executions : List (Nat × Execution)) (log : List LogEntry) :
    (value k (ofLog r tx executions log)).swaps = executions.flatMap fun (msg, e) =>
      (value k (ofMessage r tx (Log.entryOf? log msg) msg e)).swaps :=
  SwapsSettled.mapM executions (fun m _ => ofMessage_swapsSettled _ m.1 m.2) k k []

theorem swaps_ofLog_native {log : List LogEntry}
    (h : ∀ entry ∈ log, ∀ ev ∈ entry.events, ev.isForeign r → ev.Swapless)
    (executions : List (Nat × Execution)) :
    (value k (ofLog r tx executions (log.map (LogEntry.native r)))).swaps =
      (value k (ofLog r tx executions log)).swaps := by
  rw [swaps_ofLog, swaps_ofLog]
  congr 1
  funext ⟨msg, e⟩
  simp only [Log.entryOf?_map (f := LogEntry.native r) fun _ => rfl]
  exact ofMessage_swaps_native (fun entry hentry => h entry (Log.mem_of_entryOf? hentry)) msg e

theorem swaps_alike (h : tx.Alike r tx') (hclean : tx.Swapless r) (hclean' : tx'.Swapless r) :
    (value k (ofTransaction r tx)).swaps = (value k (ofTransaction r tx')).swaps := by
  refine ofTransaction_alike (P := fun x y => x.swaps = y.swaps) (fun _ => rfl) h ?_
  intro executions log log' hl hl' hnative
  rw [← swaps_ofLog_native (hclean log hl), hnative, swaps_ofLog_native (hclean' log' hl')]

section Steady

variable (hk : k.Steady)
include hk

theorem onPairs_ofLiquidity (creator : String) (msg : Nat) (op : LiquidityOp)
    (sent : Option Amount) (entry : LogEntry) :
    (value k (ofLiquidity r tx creator msg op sent entry)).onPairs r =
      ((entry.liquidityGroups? (actionOf op)).map (List.flatMap fun g =>
        (value k (ofGroup r tx creator msg op sent g)).onPairs r)).getD [] := by
  unfold ofLiquidity
  split
  · rename_i hgroups
    rw [hgroups]
    rfl
  · rename_i hgroups
    rw [hgroups]
    rfl
  · rename_i groups _ hgroups
    have hsettled (g : LiquidityGroup) : Settled k (ofGroup r tx creator msg op sent g) :=
      ofGroup_settled hk creator msg op sent g
    rw [hgroups, value_bind_pure, (Settled.mapM groups fun g _ => hsettled g).2, onPairs_concat,
      List.flatMap_map]
    rfl

theorem ofLiquidity_native {entry : LogEntry} {op : LiquidityOp} (h : entry.Tidy r (actionOf op))
    (creator : String) (msg : Nat) (sent : Option Amount) :
    (value k (ofLiquidity r tx creator msg op sent (entry.native r))).onPairs r =
      (value k (ofLiquidity r tx creator msg op sent entry)).onPairs r := by
  rw [onPairs_ofLiquidity hk, onPairs_ofLiquidity hk, LogEntry.map_liquidityGroups h]
  -- a change of liquidity carries the contract of its group
  intro g hnamed hforeign
  have hgroup : Always (ofGroup r tx creator msg op sent g) fun x => x.onPairs r = [] := by
    unfold ofGroup
    split
    · exact always_pure rfl
    · refine Always.bind (P := fun _ => True) (fun _ _ => trivial) fun pool _ => ?_
      refine always_pure ?_
      simp [onPairs, event, liquidity, liquidityOf, hnamed, hforeign]
  exact hgroup.value k

theorem ofMessage_native {entry : Option LogEntry}
    (h : ∀ e ∈ entry, e.Tidy r .provide ∧ e.Tidy r .withdraw) (msg : Nat) (e : Execution) :
    (value k (ofMessage r tx (entry.map (LogEntry.native r)) msg e)).onPairs r =
      (value k (ofMessage r tx entry msg e)).onPairs r := by
  have hswaps (sender : String) (e : LogEntry) : (ofSwaps r tx sender msg e).onPairs r = [] := by
    have hhop (hop : SwapHop) : (ofHop r tx sender msg hop).onPairs r = [] := by
      unfold ofHop
      split
      · rfl
      · rfl
    unfold ofSwaps
    split
    · rw [onPairs_concat, List.flatMap_map]
      exact List.flatMap_eq_nil_iff.2 fun hop _ => hhop hop
    · rfl
    · rfl
  cases entry with
  | none => rfl
  | some entry =>
    rw [Option.map_some]
    unfold ofMessage
    split
    · rfl
    · rfl
    · rfl
    · rfl
    · rfl
    · exact (hswaps e.sender _).trans (hswaps e.sender _).symm
    · exact ofLiquidity_native hk (h entry rfl).1 e.sender msg none
    · exact ofLiquidity_native hk (h entry rfl).2 e.sender msg _

theorem onPairs_ofLog (executions : List (Nat × Execution)) (log : List LogEntry) :
    (value k (ofLog r tx executions log)).onPairs r = executions.flatMap fun (msg, e) =>
      (value k (ofMessage r tx (Log.entryOf? log msg) msg e)).onPairs r := by
  have hsettled (m : Nat × Execution) :
      Settled k (ofMessage r tx (Log.entryOf? log m.1) m.1 m.2) :=
    ofMessage_settled hk (Log.entryOf? log m.1) m.1 m.2
  rw [ofLog, value_bind_pure, (Settled.mapM executions fun m _ => hsettled m).2, onPairs_concat,
    List.flatMap_map]

theorem onPairs_ofLog_native {log : List LogEntry}
    (h : ∀ entry ∈ log, entry.Tidy r .provide ∧ entry.Tidy r .withdraw) (executions : List (Nat × Execution)) :
    (value k (ofLog r tx executions (log.map (LogEntry.native r)))).onPairs r =
      (value k (ofLog r tx executions log)).onPairs r := by
  rw [onPairs_ofLog hk, onPairs_ofLog hk]
  congr 1
  funext ⟨msg, e⟩
  simp only [Log.entryOf?_map (f := LogEntry.native r) fun _ => rfl]
  exact ofMessage_native hk (fun entry hentry => h entry (Log.mem_of_entryOf? hentry)) msg e

theorem onPairs_alike (h : tx.Alike r tx') (htidy : tx.Tidy r) (htidy' : tx'.Tidy r) :
    (value k (ofTransaction r tx)).onPairs r = (value k (ofTransaction r tx')).onPairs r := by
  refine ofTransaction_alike (P := fun x y => x.onPairs r = y.onPairs r) (fun _ => rfl) h ?_
  intro executions log log' hl hl' hnative
  rw [← onPairs_ofLog_native hk (htidy log hl), hnative, onPairs_ofLog_native hk (htidy' log' hl')]

end Steady

theorem ofAll_alike {β : Type} {f : Extraction → List β}
    (hconcat : ∀ parts, f (concat parts) = parts.flatMap f) {txs txs' : List Transaction}
    (h : List.Forall₂ (Transaction.Alike r) txs txs')
    (hf : ∀ tx ∈ txs, ∀ tx' ∈ txs', tx.Alike r tx' →
      f (value k (ofTransaction r tx)) = f (value k (ofTransaction r tx'))) :
    f (ofAll r k txs) = f (ofAll r k txs') := by
  simp only [ofAll, hconcat, List.flatMap_map]
  induction h with
  | nil => rfl
  | @cons tx tx' txs txs' halike _ ih =>
    rw [List.flatMap_cons, List.flatMap_cons,
      hf tx List.mem_cons_self tx' List.mem_cons_self halike,
      ih fun a ha a' ha' => hf a (List.mem_cons_of_mem tx ha) a' (List.mem_cons_of_mem tx' ha')]

/-- No change of liquidity of a foreign contract has the key of one on a registered
pair. -/
def KeysApart (r : Registry) (x : Extraction) : Prop :=
  ∀ a ∈ x.liquidity, ∀ b ∈ x.liquidity, (r.byAddress? a.pairAddress).isSome →
    ¬ (r.byAddress? b.pairAddress).isSome → a.uniqueKey ≠ b.uniqueKey

instance (r : Registry) (x : Extraction) : Decidable (x.KeysApart r) :=
  inferInstanceAs (Decidable (∀ a ∈ x.liquidity, _))

end Extraction

namespace Snapshot

variable {r : Registry} {liquidity liquidity' : List LiquidityChange}

theorem changes_congr (swaps : List Swap)
    (h : liquidity.filter (fun e => (r.byAddress? e.pairAddress).isSome) =
      liquidity'.filter fun e => (r.byAddress? e.pairAddress).isSome) :
    (PoolChange.all swaps liquidity).filter (fun c => (r.byAddress? c.pairAddress).isSome) =
      (PoolChange.all swaps liquidity').filter fun c => (r.byAddress? c.pairAddress).isSome := by
  rw [PoolChange.all, PoolChange.all, List.filter_append, List.filter_append,
    List.filter_map (f := PoolChange.liquidity), List.filter_map (f := PoolChange.liquidity)]
  exact congrArg (fun l => _ ++ l.map PoolChange.liquidity) h

end Snapshot

namespace Indexer

variable {ix : Indexer} {k : Querier} {s : Store} {txs txs' : List Transaction} {next : Height}
  {b b' : Batch}

theorem kept_onPairs {ys : List LiquidityChange} {x : Extraction}
    (hapart : x.KeysApart ix.registry)
    (h : bucketed? ix.bucketWidth (keepLast x.liquidity) = some ys) :
    bucketed? ix.bucketWidth (keepLast (x.onPairs ix.registry)) =
      some (ys.filter fun e => (ix.registry.byAddress? e.pairAddress).isSome) := by
  rw [Extraction.onPairs, ← keepLast_filter fun a ha b hb => hapart a ha b hb]
  exact bucketed_filter (fun _ _ => rfl) h

theorem Settles.congr {x x' : Extraction} (h : ix.Settles s next x b) (h' : ix.Settles s next x' b')
    (hswaps : x.swaps = x'.swaps) : b.swaps = b'.swaps ∧ b.candles = b'.candles := by
  have hkept := h.swaps
  rw [hswaps, h'.swaps] at hkept
  have heq : b.swaps = b'.swaps := (Option.some.inj hkept).symm
  have hcandles := h.candles
  rw [heq, h'.candles] at hcandles
  exact ⟨heq, (Except.ok.inj hcandles).symm⟩

theorem Derives.congr (h : ix.Derives k s txs next b) (h' : ix.Derives k s txs' next b')
    (hswaps : b.swaps = b'.swaps)
    (honPairs : (Extraction.ofAll ix.registry k txs).onPairs ix.registry =
      (Extraction.ofAll ix.registry k txs').onPairs ix.registry)
    (hapart : (Extraction.ofAll ix.registry k txs).KeysApart ix.registry)
    (hapart' : (Extraction.ofAll ix.registry k txs').KeysApart ix.registry) :
    b.snapshots = b'.snapshots ∧
      b.liquidity.filter (fun e => (ix.registry.byAddress? e.pairAddress).isSome) =
        b'.liquidity.filter fun e => (ix.registry.byAddress? e.pairAddress).isSome := by
  have hkept := kept_onPairs hapart h.liquidity
  rw [honPairs, kept_onPairs hapart' h'.liquidity] at hkept
  have hliquidity := (Option.some.inj hkept).symm
  refine ⟨?_, hliquidity⟩
  have hchanges := Snapshot.changes_congr (r := ix.registry) b'.swaps hliquidity
  obtain ⟨seeds, hseeds, hb⟩ := h.snapshots
  obtain ⟨seeds', hseeds', hb'⟩ := h'.snapshots
  have hfirst : Snapshot.minHeights ix.registry b'.swaps b.liquidity =
      Snapshot.minHeights ix.registry b'.swaps b'.liquidity := by
    simp only [Snapshot.minHeights, hchanges]
  rw [hswaps, hfirst, hseeds'] at hseeds
  rw [hb, hb', hswaps, Except.ok.inj hseeds]
  simp only [Snapshot.accumulate, hchanges]

theorem filter_insertAll {width : Timestamp} {x : Extraction} {address : String}
    (h : bucketed? width (keepLast x.liquidity) = some b.liquidity) (s : Store)
    (haddress : (ix.registry.byAddress? address).isSome) :
    (s.insertAll b.liquidity).filter (fun row => row.textIs 12 address) =
      s.liquidity.filter (fun row => row.textIs 12 address) ++
        TableId.liquidity.schema.without (((b.liquidity.filter fun e =>
          (ix.registry.byAddress? e.pairAddress).isSome).filter fun e =>
            e.pairAddress = address).map Record.stored) s.liquidity := by
  have hkeys : TableId.liquidity.schema.UniqueKeys ((b.liquidity.map Record.row).map Row.stored) := by
    rw [Record.map_stored_row, TableSchema.UniqueKeys, List.pairwise_map]
    refine (ChainEvent.bucketed_pairwise h).imp fun {e e'} hne hkey => hne ?_
    exact Cell.text.inj (Option.some.inj hkey)
  have hrows : (b.liquidity.map Record.stored).filter (fun row => row.textIs 12 address) =
      ((b.liquidity.filter fun e => (ix.registry.byAddress? e.pairAddress).isSome).filter fun e =>
        e.pairAddress = address).map Record.stored := by
    rw [List.filter_map, List.filter_filter]
    congr 1
    refine List.filter_congr fun e _ => ?_
    rw [Bool.eq_iff_iff, Function.comp, textIs_stored_liquidity.2, Bool.and_eq_true,
      decide_eq_true_eq]
    exact ⟨fun he => ⟨he, he ▸ haddress⟩, And.left⟩
  have hinsert : (TableId.liquidity.schema.insertEach s.liquidity (b.liquidity.map Record.row)).filter
      (fun row => row.textIs 12 address) = _ := TableSchema.filter_insertEach rfl hkeys _
  rwa [Record.map_stored_row, hrows] at hinsert

/-- What foreign contracts report changes no swap when no attribute of a swap is in it, and no
change of liquidity on a registered pair when reports can be told apart. The swaps and candles
of a batch and of the store that takes it in stay the same, whoever answers. So do the
snapshots and the rows of a registered pair when no foreign change of liquidity has the key of
one on a registered pair. -/
theorem foreign_events_do_not_interfere (ix : Indexer) :
    (∀ {tx tx' : Transaction}, tx.Alike ix.registry tx' →
      (tx.Swapless ix.registry → tx'.Swapless ix.registry → ∀ k before k' before',
        (Extraction.ofTransaction ix.registry tx k before).1.swaps =
          (Extraction.ofTransaction ix.registry tx' k' before').1.swaps) ∧
      (tx.Tidy ix.registry → tx'.Tidy ix.registry → ∀ k : Querier, k.Steady →
        ∀ before before', (Extraction.ofTransaction ix.registry tx k before).1.onPairs ix.registry =
          (Extraction.ofTransaction ix.registry tx' k before').1.onPairs ix.registry)) ∧
    ∀ {txs txs' : List Transaction} {k k' : Querier} {asked asked' : List Query} {s : Store}
      {next : Height} {b b' : Batch} {m m' : Summary},
      List.Forall₂ (Transaction.Alike ix.registry) txs txs' →
      (∀ tx ∈ txs ++ txs', tx.Swapless ix.registry) →
      (ix.process s txs next k asked).1 = .ok (b, m) →
      (ix.process s txs' next k' asked').1 = .ok (b', m') →
        (b.swaps = b'.swaps ∧ b.candles = b'.candles ∧
          ∀ t t', s.persist b = .ok t → s.persist b' = .ok t' →
            t.swaps = t'.swaps ∧ t.candles = t'.candles) ∧
        (k.Steady → k' = k → (∀ tx ∈ txs ++ txs', tx.Tidy ix.registry) →
          (Extraction.ofAll ix.registry k txs).KeysApart ix.registry →
          (Extraction.ofAll ix.registry k txs').KeysApart ix.registry →
            b.snapshots = b'.snapshots ∧
            ∀ t t', s.persist b = .ok t → s.persist b' = .ok t' →
              t.snapshots = t'.snapshots ∧
              ∀ address, (ix.registry.byAddress? address).isSome →
                t.liquidity.filter (fun row => row.textIs 12 address) =
                  t'.liquidity.filter fun row => row.textIs 12 address) := by
  refine ⟨fun {tx tx'} h => ⟨fun hclean hclean' k before k' before' => ?_,
    fun htidy htidy' k hk before before' => ?_⟩, ?_⟩
  · rw [Extraction.ofTransaction_swapsSettled ix.registry tx k before k,
      Extraction.ofTransaction_swapsSettled ix.registry tx' k' before' k]
    exact Extraction.swaps_alike h hclean hclean'
  · rw [Extraction.ofTransaction_settled hk ix.registry tx before,
      Extraction.ofTransaction_settled hk ix.registry tx' before']
    exact Extraction.onPairs_alike hk h htidy htidy'
  · intro txs txs' k k' asked asked' s next b b' m m' h hclean hb hb'
    obtain ⟨x, hx, hsettled⟩ := exists_settled hb
    obtain ⟨x', hx', hsettled'⟩ := exists_settled hb'
    -- swaps ask nothing, so both are what one querier would find
    obtain ⟨hswaps, hcandles⟩ := hsettled.congr hsettled' <| by
      rw [hx.swaps k, hx'.swaps k]
      exact Extraction.ofAll_alike Extraction.swaps_concat h fun tx htx tx' htx' halike =>
        Extraction.swaps_alike halike (hclean tx (List.mem_append_left _ htx))
          (hclean tx' (List.mem_append_right _ htx'))
    refine ⟨⟨hswaps, hcandles, fun t t' ht ht' => ?_⟩, fun hk hsame htidy hapart hapart' => ?_⟩
    · obtain ⟨-, rfl⟩ := Store.persist_ok.1 ht
      obtain ⟨-, rfl⟩ := Store.persist_ok.1 ht'
      exact ⟨congrArg s.insertAll hswaps, congrArg s.insertAll hcandles⟩
    · subst hsame
      have hd := process_derives hk hb
      have hd' := process_derives hk hb'
      obtain ⟨hsnapshots, hliquidity⟩ := hd.congr hd' hswaps
        (Extraction.ofAll_alike Extraction.onPairs_concat h fun tx htx tx' htx' halike =>
          Extraction.onPairs_alike hk halike (htidy tx (List.mem_append_left _ htx))
            (htidy tx' (List.mem_append_right _ htx'))) hapart hapart'
      refine ⟨hsnapshots, fun t t' ht ht' => ?_⟩
      obtain ⟨-, rfl⟩ := Store.persist_ok.1 ht
      obtain ⟨-, rfl⟩ := Store.persist_ok.1 ht'
      refine ⟨congrArg s.insertAll hsnapshots, fun address haddress => ?_⟩
      exact (filter_insertAll hd.liquidity s haddress).trans
        (hliquidity ▸ (filter_insertAll hd'.liquidity s haddress).symm)

end Indexer

structure Meddling where
  message : String
  reports : List LogEvent
  meddled : List LogEvent

namespace Meddling

open Sample

/-- A forged hop, other assets for an open provision, an action between an action and
its assets, an action without assets, and a nameless provision. -/
def all : List Meddling := [
  ⟨"swap", [], [sale "mallory" "1"]⟩,
  ⟨"provide_liquidity", [provision "pool" "1orai,2usdt"],
    [provision "pool" "1orai,2usdt", report "mallory" [("assets", "7orai,9usdt")]]⟩,
  ⟨"provide_liquidity",
    [report "pool" [("action", "provide_liquidity")], report "pool" [("assets", "1orai,2usdt")]],
    [report "pool" [("action", "provide_liquidity")], report "mallory" [("action", "ping")],
      report "pool" [("assets", "1orai,2usdt")]]⟩,
  ⟨"provide_liquidity", [provision "pool" "1orai,2usdt"],
    [provision "pool" "1orai,2usdt", report "mallory" [("action", "provide_liquidity")]]⟩,
  ⟨"provide_liquidity", [], [provision "" "1orai,2usdt"]⟩]

theorem alike_reporting {r : Registry} {message : String} {reports reports' : List LogEvent}
    (h : reports.filter (fun ev => !ev.isForeign r) = reports'.filter fun ev => !ev.isForeign r) :
    (reporting message reports).Alike r (reporting message reports') := by
  refine ⟨Log.ofEvents reports', rfl, ?_⟩
  simp [reporting, Log.read?_ofEvents, LogEntry.native, h]

theorem nodeForm_reporting {message : String} {reports : List LogEvent} :
    (reporting message reports).NodeForm ↔
      ∀ ev ∈ (LogEntry.mk none reports).contractEvents, ev.NodeForm := by
  simp [Transaction.NodeForm, reporting, Log.read?_ofEvents]

theorem swapless_reporting {r : Registry} {message : String} {reports : List LogEvent} :
    (reporting message reports).Swapless r ↔ ∀ ev ∈ reports, ev.isForeign r → ev.Swapless := by
  simp [Transaction.Swapless, reporting, Log.read?_ofEvents]

theorem tidy_reporting {r : Registry} {message : String} {reports : List LogEvent} :
    (reporting message reports).Tidy r ↔
      (LogEntry.mk none reports).Tidy r .provide ∧ (LogEntry.mk none reports).Tidy r .withdraw := by
  simp [Transaction.Tidy, reporting, Log.read?_ofEvents]

abbrev providedTwice (assets : String) : Transaction :=
  reporting "provide_liquidity" [provision "pool" "1orai,2usdt", provision "mallory" assets]

end Meddling

namespace Indexer

open Sample Meddling

def written (batch : Batch × Summary) : Nat × Bool :=
  (batch.1.liquidity.length, (Store.empty.persist batch.1).toOption.isSome)

theorem exists_written {reports : List LogEvent} {n : Nat}
    (h : (value querier (indexer.derive .empty [reporting "provide_liquidity" reports] 120
      (.concat [.concat [value querier (Extraction.ofMessage indexer.registry
        (reporting "provide_liquidity" reports) (some ⟨none, reports⟩) 0
          (execution "provide_liquidity"))]]))).toOption.map written = some (n, true)) :
    ∃ b m t, (indexer.process .empty [reporting "provide_liquidity" reports] 120 querier []).1 =
        .ok (b, m) ∧ b.liquidity.length = n ∧ Store.empty.persist b = .ok t := by
  rw [← Extraction.ofAll_written rfl (readExecutions_execution _ (by decide)) rfl,
    ← value_process steady] at h
  obtain ⟨⟨b, m⟩, hv, hwritten⟩ := Option.map_eq_some_iff.1 h
  rw [written, Prod.mk.injEq] at hwritten
  obtain ⟨hlength, hsome⟩ := hwritten
  obtain ⟨t, ht⟩ := Option.isSome_iff_exists.1 hsome
  exact ⟨b, m, t, eq_ok_of_toOption hv, hlength, eq_ok_of_toOption ht⟩

/-- Without these conditions foreign contracts make swaps, change and drop what is
provided to the pair, and take its reserves. -/
theorem foreign_events_interfere :
    (∀ c ∈ Meddling.all,
      (reporting c.message c.reports).Alike indexer.registry (reporting c.message c.meddled) ∧
      (reporting c.message c.reports).NodeForm ∧ (reporting c.message c.meddled).NodeForm ∧
      ¬ ((value querier (Extraction.ofTransaction indexer.registry
            (reporting c.message c.reports))).swaps =
          (value querier (Extraction.ofTransaction indexer.registry
            (reporting c.message c.meddled))).swaps ∧
        (value querier (Extraction.ofTransaction indexer.registry
            (reporting c.message c.reports))).onPairs indexer.registry =
          (value querier (Extraction.ofTransaction indexer.registry
            (reporting c.message c.meddled))).onPairs indexer.registry)) ∧
    (providedTwice "3orai,4usdt").Alike indexer.registry (providedTwice "1orai,2usdt") ∧
    (providedTwice "3orai,4usdt").NodeForm ∧ (providedTwice "1orai,2usdt").NodeForm ∧
    ((value querier (indexer.process .empty [providedTwice "3orai,4usdt"] 120)).toOption.map
        fun batch => batch.1.snapshots) ≠
      (value querier (indexer.process .empty [providedTwice "1orai,2usdt"] 120)).toOption.map
        fun batch => batch.1.snapshots := by
  refine ⟨fun c hc => ?_, alike_reporting (by decide), nodeForm_reporting.2 (by decide),
    nodeForm_reporting.2 (by decide), ?_⟩
  · have hread : c.message ∈ ["swap", "provide_liquidity"] := by
      revert c
      decide
    rw [value_reporting hread, value_reporting hread, nodeForm_reporting, nodeForm_reporting]
    refine ⟨alike_reporting ?_, ?_⟩
    · revert c
      decide +kernel
    · revert c
      decide +kernel
  · have hread : "provide_liquidity" ∈ ["swap", "provide_liquidity"] := by decide
    rw [value_process steady, value_process steady]
    simp only [Extraction.ofAll, List.map_cons, List.map_nil, value_reporting hread]
    decide +kernel

theorem foreign_provision_does_not_interfere :
    ∃ b b' m m', (indexer.process .empty [provided] 120 querier []).1 = .ok (b, m) ∧
      (indexer.process .empty [providedTwice "3orai,4usdt"] 120 querier []).1 = .ok (b', m') ∧
      b.liquidity.length = 1 ∧ b'.liquidity.length = 2 ∧
      b.swaps = b'.swaps ∧ b.candles = b'.candles ∧ b.snapshots = b'.snapshots ∧
      (∃ t t', Store.empty.persist b = .ok t ∧ Store.empty.persist b' = .ok t' ∧
        t.swaps = t'.swaps ∧ t.candles = t'.candles ∧ t.snapshots = t'.snapshots ∧
        t.liquidity.filter (fun row => row.textIs 12 "pool") =
          t'.liquidity.filter fun row => row.textIs 12 "pool") ∧
      (Extraction.ofTransaction indexer.registry provided querier []).1.swaps =
        (Extraction.ofTransaction indexer.registry (providedTwice "3orai,4usdt")
          querier []).1.swaps ∧
      (Extraction.ofTransaction indexer.registry provided querier []).1.onPairs
          indexer.registry =
        (Extraction.ofTransaction indexer.registry (providedTwice "3orai,4usdt")
          querier []).1.onPairs indexer.registry := by
  have hread : "provide_liquidity" ∈ ["swap", "provide_liquidity"] := by decide
  have halike : provided.Alike indexer.registry (providedTwice "3orai,4usdt") :=
    alike_reporting (by decide)
  have hswapless : provided.Swapless indexer.registry ∧
      (providedTwice "3orai,4usdt").Swapless indexer.registry := by
    rw [swapless_reporting, swapless_reporting]
    decide
  have htidy : provided.Tidy indexer.registry ∧
      (providedTwice "3orai,4usdt").Tidy indexer.registry := by
    rw [tidy_reporting, tidy_reporting]
    decide +kernel
  have hapart : (Extraction.ofAll indexer.registry querier [provided]).KeysApart
        indexer.registry ∧
      (Extraction.ofAll indexer.registry querier [providedTwice "3orai,4usdt"]).KeysApart
        indexer.registry := by
    simp only [Extraction.ofAll, List.map_cons, List.map_nil, value_reporting hread]
    decide +kernel
  obtain ⟨b, m, t, hb, hlength, ht⟩ : ∃ b m t,
      (indexer.process .empty [provided] 120 querier []).1 = .ok (b, m) ∧
        b.liquidity.length = 1 ∧ Store.empty.persist b = .ok t := exists_written (by decide +kernel)
  obtain ⟨b', m', t', hb', hlength', ht'⟩ : ∃ b m t,
      (indexer.process .empty [providedTwice "3orai,4usdt"] 120 querier []).1 = .ok (b, m) ∧
        b.liquidity.length = 2 ∧ Store.empty.persist b = .ok t := exists_written (by decide +kernel)
  obtain ⟨hextracted, hbatch⟩ := foreign_events_do_not_interfere indexer
  obtain ⟨hswaps, honPairs⟩ := hextracted halike
  obtain ⟨⟨heq, hcandles, hstored⟩, hpairs⟩ :=
    hbatch (.cons halike .nil) (by simpa using hswapless) hb hb'
  obtain ⟨hsnapshots, hrows⟩ := hpairs steady rfl (by simpa using htidy) hapart.1 hapart.2
  obtain ⟨hts, htc⟩ := hstored t t' ht ht'
  obtain ⟨htp, htl⟩ := hrows t t' ht ht'
  exact ⟨b, b', m, m', hb, hb', hlength, hlength', heq, hcandles, hsnapshots,
    ⟨t, t', ht, ht', hts, htc, htp, htl "pool" (by decide)⟩,
    hswaps hswapless.1 hswapless.2 querier [] querier [],
    honPairs htidy.1 htidy.2 querier steady [] []⟩

end Indexer

end PoolLedger
