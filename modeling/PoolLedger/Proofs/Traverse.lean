import Mathlib.Data.List.Forall2
/-! Going through a list with a step that may fail. The whole succeeds when each
step does, and the results stand in the order of the list. -/

namespace PoolLedger.Traverse

variable {α β ε : Type}

theorem split_of_forall₂ {R : α → β → Prop} {xs : List α} {front tail : List β} {y : β}
    (h : List.Forall₂ R xs (front ++ y :: tail)) : ∃ before x later, xs = before ++ x :: later ∧
      List.Forall₂ R before front ∧ R x y ∧ List.Forall₂ R later tail := by
  have hfront := List.forall₂_take_append xs front (y :: tail) h
  obtain ⟨x, later, hx, htail, hdrop⟩ :=
    List.forall₂_cons_right_iff.1 (List.forall₂_drop_append xs front (y :: tail) h)
  exact ⟨_, x, later, by rw [← hdrop, List.take_append_drop], hfront, hx, htail⟩

theorem exists_of_mem_forall₂ {R : α → β → Prop} {xs : List α} {ys : List β}
    (h : List.Forall₂ R xs ys) {y : β} (hy : y ∈ ys) : ∃ x ∈ xs, R x y := by
  obtain ⟨front, tail, rfl⟩ := List.append_of_mem hy
  obtain ⟨before, x, later, rfl, -, hx, -⟩ := split_of_forall₂ h
  exact ⟨x, by simp, hx⟩

theorem mapM_eq_some {f : α → Option β} {xs : List α} {ys : List β} :
    xs.mapM f = some ys ↔ xs.map f = ys.map some := by
  induction xs generalizing ys with
  | nil => cases ys <;> simp
  | cons x xs ih =>
    rw [List.mapM_cons]
    cases hx : f x with
    | none => cases ys <;> simp [hx]
    | some y =>
      cases ys with
      | nil =>
        cases xs.mapM f <;> simp
      | cons z zs =>
        have hz : xs.mapM f = some zs ↔ xs.map f = zs.map some := ih
        cases hm : xs.mapM f <;> simp_all

theorem mapM_range_eq_some {f : Nat → Option β} {n : Nat} {ys : List β} :
    (List.range n).mapM f = some ys ↔ ys.length = n ∧ ∀ j y, ys[j]? = some y → f j = some y := by
  rw [mapM_eq_some]
  constructor
  · intro h
    have hlength : ys.length = n := by simpa using (congrArg List.length h).symm
    refine ⟨hlength, fun j y hy => ?_⟩
    have hlt : j < n := hlength ▸ (List.getElem?_eq_some_iff.1 hy).1
    have hj : ((List.range n).map f)[j]? = (ys.map some)[j]? := by rw [h]
    simpa [hy, hlt] using hj
  · rintro ⟨rfl, h⟩
    refine List.ext_getElem (by simp) fun j _ hj => ?_
    rw [List.length_map] at hj
    simpa using h j ys[j] (List.getElem?_eq_getElem hj)

theorem mapM_eq_ok {f : α → Except ε β} {xs : List α} {ys : List β} :
    xs.mapM f = .ok ys ↔ xs.map f = ys.map .ok := by
  induction xs generalizing ys with
  | nil => cases ys <;> simp [pure, Except.pure]
  | cons x xs ih =>
    rw [List.mapM_cons]
    cases hx : f x with
    | error e => cases ys <;> simp [hx, bind, Except.bind]
    | ok y =>
      cases ys with
      | nil =>
        cases xs.mapM f <;> simp [bind, Except.bind, pure, Except.pure]
      | cons z zs =>
        have hz : xs.mapM f = .ok zs ↔ xs.map f = zs.map .ok := ih
        cases hm : xs.mapM f <;> simp_all [bind, Except.bind, pure, Except.pure]

theorem mapM_ok_of_forall {f : α → Except ε β} {g : α → β} {xs : List α}
    (h : ∀ x ∈ xs, f x = .ok (g x)) : xs.mapM f = .ok (xs.map g) := by
  rw [mapM_eq_ok, List.map_map]
  exact List.map_congr_left h

theorem mapM_check {f : α → Except ε α} (hf : ∀ x y, f x = .ok y → y = x) {xs ys : List α} :
    xs.mapM f = .ok ys ↔ ys = xs ∧ ∀ x ∈ xs, f x = .ok x := by
  constructor
  · intro h
    have hx : ∀ x ∈ xs, f x = .ok x := by
      intro x hx
      have hm : f x ∈ ys.map .ok := by
        rw [← mapM_eq_ok.1 h]
        exact List.mem_map_of_mem hx
      obtain ⟨y, -, hy⟩ := List.mem_map.1 hm
      rw [← hy, hf x y hy.symm]
    have hid := mapM_ok_of_forall (g := id) hx
    rw [h, List.map_id] at hid
    exact ⟨Except.ok.inj hid, hx⟩
  · rintro ⟨rfl, hx⟩
    simpa using mapM_ok_of_forall (g := id) hx

theorem mapM_congr {f g : α → Except ε β} {xs : List α} (h : ∀ x ∈ xs, f x = g x) :
    xs.mapM f = xs.mapM g := by
  induction xs with
  | nil => rfl
  | cons x xs ih =>
    rw [List.mapM_cons, List.mapM_cons, h x List.mem_cons_self,
      ih fun y hy => h y (List.mem_cons_of_mem x hy)]

theorem mem_of_mapM_some {f : α → Option β} {xs : List α} {ys : List β} (h : xs.mapM f = some ys)
    {y : β} : y ∈ ys ↔ ∃ x ∈ xs, f x = some y := by
  have hm := mapM_eq_some.1 h
  constructor
  · intro hy
    have hy' : some y ∈ xs.map f := by
      rw [hm]
      exact List.mem_map_of_mem hy
    exact List.mem_map.1 hy'
  · rintro ⟨x, hx, hxy⟩
    have hy' : some y ∈ ys.map some := by
      rw [← hm, ← hxy]
      exact List.mem_map_of_mem hx
    simpa using hy'

theorem forall₂_of_mapM_some {f : α → Option β} {xs : List α} {ys : List β}
    (h : xs.mapM f = some ys) : List.Forall₂ (fun x y => f x = some y) xs ys := by
  have hm : List.Forall₂ Eq (xs.map f) (ys.map some) := by
    rw [List.forall₂_eq_eq_eq]
    exact mapM_eq_some.1 h
  rwa [List.forall₂_map_left_iff, List.forall₂_map_right_iff] at hm

theorem map_of_mapM_some {γ : Type} {f : α → Option β} {g : β → γ} {g' : α → γ}
    (hg : ∀ x y, f x = some y → g y = g' x) {xs : List α} {ys : List β}
    (h : xs.mapM f = some ys) : ys.map g = xs.map g' := by
  rw [mapM_eq_some] at h
  induction xs generalizing ys with
  | nil =>
    cases ys with
    | nil => rfl
    | cons y ys => cases h
  | cons x xs ih =>
    cases ys with
    | nil => cases h
    | cons y ys =>
      obtain ⟨hx, ht⟩ := List.cons.inj h
      rw [List.map_cons, List.map_cons, hg x y hx, ih ht]

theorem mapM_filter {f : α → Option β} {p : α → Bool} {q : β → Bool}
    (hq : ∀ x y, f x = some y → q y = p x) {xs : List α} {ys : List β}
    (h : xs.mapM f = some ys) : (xs.filter p).mapM f = some (ys.filter q) := by
  rw [mapM_eq_some] at *
  induction xs generalizing ys with
  | nil =>
    cases ys with
    | nil => rfl
    | cons y ys => cases h
  | cons x xs ih =>
    cases ys with
    | nil => cases h
    | cons y ys =>
      obtain ⟨hx, ht⟩ := List.cons.inj h
      cases hp : p x with
      | true =>
        rw [List.filter_cons_of_pos hp, List.filter_cons_of_pos ((hq x y hx).trans hp), List.map_cons,
          List.map_cons, hx, ih ht]
      | false =>
        rw [List.filter_cons_of_neg (by simp [hp]), List.filter_cons_of_neg (by simp [hq x y hx, hp]),
          ih ht]

theorem mem_of_mapM_ok {f : α → Except ε β} {xs : List α} {ys : List β} (h : xs.mapM f = .ok ys)
    {y : β} : y ∈ ys ↔ ∃ x ∈ xs, f x = .ok y := by
  have hm := mapM_eq_ok.1 h
  constructor
  · intro hy
    have hy' : .ok y ∈ xs.map f := by
      rw [hm]
      exact List.mem_map_of_mem hy
    exact List.mem_map.1 hy'
  · rintro ⟨x, hx, hxy⟩
    have hy' : Except.ok y ∈ ys.map (Except.ok (ε := ε)) := by
      rw [← hm, ← hxy]
      exact List.mem_map_of_mem hx
    simpa using hy'

theorem mapM_isOk {f : α → Except ε β} {xs : List α} (h : ∀ x ∈ xs, ∃ y, f x = .ok y) :
    ∃ ys, xs.mapM f = .ok ys := by
  induction xs with
  | nil => exact ⟨[], rfl⟩
  | cons x xs ih =>
    obtain ⟨y, hy⟩ := h x List.mem_cons_self
    obtain ⟨ys, hys⟩ := ih fun z hz => h z (List.mem_cons_of_mem x hz)
    exact ⟨y :: ys, by simp [hy, hys, bind, Except.bind, pure, Except.pure]⟩

theorem mapM_isSome {f : α → Option β} {xs : List α} (h : ∀ x ∈ xs, ∃ y, f x = some y) :
    ∃ ys, xs.mapM f = some ys := by
  induction xs with
  | nil => exact ⟨[], rfl⟩
  | cons x xs ih =>
    obtain ⟨y, hy⟩ := h x List.mem_cons_self
    obtain ⟨ys, hys⟩ := ih fun z hz => h z (List.mem_cons_of_mem x hz)
    exact ⟨y :: ys, by simp [hy, hys]⟩

theorem map_mapM {γ : Type} (f : α → Except ε β) (g : β → γ) (xs : List α) :
    (xs.mapM f).map (List.map g) = xs.mapM fun x => (f x).map g := by
  induction xs with
  | nil => rfl
  | cons x xs ih =>
    rw [List.mapM_cons, List.mapM_cons, ← ih]
    cases f x with
    | error e => rfl
    | ok y => cases xs.mapM f <;> rfl

theorem exists_ok_of_mapM {f : α → Except ε β} {xs : List α} {ys : List β}
    (h : xs.mapM f = .ok ys) {x : α} (hx : x ∈ xs) : ∃ y, f x = .ok y := by
  have hm := List.mem_map_of_mem (f := f) hx
  rw [mapM_eq_ok.1 h] at hm
  obtain ⟨y, -, hy⟩ := List.mem_map.1 hm
  exact ⟨y, hy.symm⟩

theorem error_of_map {f : α → β} {x : Except ε α} {e : ε} (h : x.map f = .error e) :
    x = .error e := by
  cases x with
  | error e' => rw [Except.error.inj h]
  | ok a => cases h

theorem exists_error_of_mapM {f : α → Except ε β} {xs : List α} {e : ε}
    (h : xs.mapM f = .error e) : ∃ x ∈ xs, f x = .error e := by
  induction xs with
  | nil => cases h
  | cons x xs ih =>
    rw [List.mapM_cons] at h
    cases hx : f x with
    | error e' =>
      simp only [hx, bind, Except.bind, Except.error.injEq] at h
      exact ⟨x, List.mem_cons_self, by rw [hx, h]⟩
    | ok y =>
      cases hxs : xs.mapM f with
      | error e' =>
        simp only [hx, hxs, bind, Except.bind, Except.error.injEq] at h
        obtain ⟨z, hz, hfz⟩ := ih (by rw [hxs, h])
        exact ⟨z, List.mem_cons_of_mem x hz, hfz⟩
      | ok ys => simp [hx, hxs, bind, Except.bind, pure, Except.pure] at h

end PoolLedger.Traverse
