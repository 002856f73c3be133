import Mathlib.Data.List.Forall2
import PoolLedger.Query

/-! Programs that ask. Under a steady querier the result of a program does not
depend on what was asked before, so its parts can be run on their own. -/

namespace PoolLedger

namespace Asking

variable {α β : Type} {k : Querier}

/-- The result of a program that is the first to ask. -/
def value (k : Querier) (p : Asking α) : α := (p.run k).1

/-- The result is the same whatever was asked before. -/
def Settled (k : Querier) (p : Asking α) : Prop := ∀ before, (p k before).1 = value k p

theorem settled_pure (a : α) : Settled k (pure a) := fun _ => rfl

theorem value_eq (k : Querier) (p : Asking α) : value k p = (p k []).1 := rfl

theorem value_pure (a : α) : value k (pure a) = a := rfl

theorem settled_ask (hk : k.Steady) (q : Query) : Settled k (ask q) := fun before => hk before [] q

theorem bind_fst (p : Asking α) (f : α → Asking β) (before : List Query) :
    ((p >>= f) k before).1 = (f (p k before).1 k (p k before).2).1 :=
  rfl

theorem value_bind {p : Asking α} {f : α → Asking β} (hf : Settled k (f (value k p))) :
    value k (p >>= f) = value k (f (value k p)) :=
  hf (p k []).2

theorem value_bind_pure (p : Asking α) (g : α → β) :
    value k (p >>= fun a => pure (g a)) = g (value k p) :=
  rfl

theorem Settled.bind {p : Asking α} {f : α → Asking β} (hp : Settled k p)
    (hf : Settled k (f (value k p))) : Settled k (p >>= f) := by
  intro before
  rw [bind_fst, hp before, hf, value_bind hf]

theorem Settled.bind_and {p : Asking α} {f : α → Asking β} {P : β → Prop} (hp : Settled k p)
    (hf : Settled k (f (value k p)) ∧ P (value k (f (value k p)))) :
    Settled k (p >>= f) ∧ P (value k (p >>= f)) := by
  refine ⟨hp.bind hf.1, ?_⟩
  rw [value_bind hf.1]
  exact hf.2

theorem Settled.mapM {f : β → Asking α} (xs : List β) (hf : ∀ x ∈ xs, Settled k (f x)) :
    Settled k (xs.mapM f) ∧ value k (xs.mapM f) = xs.map fun x => value k (f x) := by
  induction xs with
  | nil => exact ⟨settled_pure _, rfl⟩
  | cons x xs ih =>
    obtain ⟨hs, hv⟩ := ih fun y hy => hf y (List.mem_cons_of_mem x hy)
    have hrest (a : α) : Settled k (xs.mapM f >>= fun as => pure (a :: as)) :=
      hs.bind (settled_pure _)
    rw [List.mapM_cons]
    refine ⟨(hf x List.mem_cons_self).bind (hrest _), ?_⟩
    rw [value_bind (hrest _), value_bind (f := fun as => pure (_ :: as)) (settled_pure _),
      value_pure, hv, List.map_cons]

theorem forall₂_mapM {R : β → α → Prop} {f : β → Asking α} {xs : List β}
    (hf : ∀ x ∈ xs, ∀ before, R x (f x k before).1) (before : List Query) :
    List.Forall₂ R xs (xs.mapM f k before).1 := by
  induction xs generalizing before with
  | nil => exact .nil
  | cons x xs ih =>
    rw [List.mapM_cons]
    exact .cons (hf x List.mem_cons_self before)
      (ih (fun y hy => hf y (List.mem_cons_of_mem x hy)) (f x k before).2)

theorem exists_of_mem_mapM {f : β → Asking α} {xs : List β} {before : List Query} {a : α}
    (h : a ∈ (xs.mapM f k before).1) : ∃ x ∈ xs, ∃ asked, a = (f x k asked).1 := by
  induction xs generalizing before with
  | nil => cases h
  | cons x xs ih =>
    rw [List.mapM_cons] at h
    rcases List.mem_cons.1 h with rfl | h
    · exact ⟨x, List.mem_cons_self, before, rfl⟩
    · obtain ⟨y, hy, hasked⟩ := ih h
      exact ⟨y, List.mem_cons_of_mem x hy, hasked⟩

theorem exists_mem_mapM {f : β → Asking α} {xs : List β} {x : β} (hx : x ∈ xs)
    (before : List Query) : ∃ asked, (f x k asked).1 ∈ (xs.mapM f k before).1 := by
  induction xs generalizing before with
  | nil => cases hx
  | cons y xs ih =>
    rw [List.mapM_cons]
    rcases List.mem_cons.1 hx with rfl | hx
    · exact ⟨before, List.mem_cons_self⟩
    · obtain ⟨asked, hasked⟩ := ih hx (f y k before).2
      exact ⟨asked, List.mem_cons_of_mem _ hasked⟩

/-- Every result of the program, whoever answers it. -/
def Always (p : Asking α) (P : α → Prop) : Prop := ∀ k before, P (p k before).1

variable {P : α → Prop} {Q : β → Prop}

theorem always_pure {a : α} (h : P a) : Always (pure a) P := fun _ _ => h

theorem Always.bind {p : Asking α} {f : α → Asking β} (hp : Always p P)
    (hf : ∀ a, P a → Always (f a) Q) : Always (p >>= f) Q :=
  fun k before => hf _ (hp k before) k _

theorem Always.mapM {f : β → Asking α} (xs : List β) (hf : ∀ x ∈ xs, Always (f x) P) :
    Always (xs.mapM f) fun as => ∀ a ∈ as, P a := by
  induction xs with
  | nil => exact always_pure (by simp)
  | cons x xs ih =>
    rw [List.mapM_cons]
    refine (hf x List.mem_cons_self).bind fun a ha => ?_
    refine (ih fun y hy => hf y (List.mem_cons_of_mem x hy)).bind fun as has => ?_
    exact always_pure (by simpa using ⟨ha, has⟩)

theorem Always.value {p : Asking α} (h : Always p P) (k : Querier) : P (value k p) := h k []

/-- Every result of the program under a querier. -/
def Under (k : Querier) (p : Asking α) (P : α → Prop) : Prop := ∀ before, P (p k before).1

theorem under_pure {a : α} (h : P a) : Under k (pure a) P := fun _ => h

theorem Under.bind {p : Asking α} {f : α → Asking β} (hp : Under k p P)
    (hf : ∀ a, P a → Under k (f a) Q) : Under k (p >>= f) Q :=
  fun before => hf _ (hp before) _

/-- Programs that ask the same questions and come to related results, whoever answers. -/
def Related {γ δ : Type} (R : γ → δ → Prop) (p : Asking γ) (q : Asking δ) : Prop :=
  ∀ k before, R (p k before).1 (q k before).1 ∧ (p k before).2 = (q k before).2

section Related

variable {γ δ : Type} {R : γ → δ → Prop} {S : α → β → Prop}

theorem related_pure {c : γ} {d : δ} (h : R c d) : Related R (pure c) (pure d) :=
  fun _ _ => ⟨h, rfl⟩

theorem Related.bind {p : Asking γ} {q : Asking δ} {f : γ → Asking α} {g : δ → Asking β}
    (hp : Related R p q) (hf : ∀ c d, R c d → Related S (f c) (g d)) :
    Related S (p >>= f) (q >>= g) := by
  intro k before
  obtain ⟨hR, hasked⟩ := hp k before
  obtain ⟨hS, hasked'⟩ := hf _ _ hR k (p k before).2
  change S _ (g _ k (q k before).2).1 ∧ _ = (g _ k (q k before).2).2
  rw [← hasked]
  exact ⟨hS, hasked'⟩

theorem Related.mapM {Q : α → β → Prop} {f : α → Asking γ} {g : β → Asking δ} {xs : List α}
    {ys : List β} (h : List.Forall₂ Q xs ys) (hf : ∀ x y, Q x y → Related R (f x) (g y)) :
    Related (List.Forall₂ R) (xs.mapM f) (ys.mapM g) := by
  induction h with
  | nil => exact related_pure .nil
  | cons hxy _ ih =>
    rw [List.mapM_cons, List.mapM_cons]
    exact (hf _ _ hxy).bind fun c d hcd => ih.bind fun cs ds hcs => related_pure (.cons hcd hcs)

end Related

end Asking

end PoolLedger
