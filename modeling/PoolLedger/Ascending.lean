/-! Ascending lists without repetitions, for the orders in which addresses,
pairs and times are worked through. -/

namespace PoolLedger.Ascending

variable {α : Type} [DecidableEq α]

def insert (lt : α → α → Bool) (a : α) : List α → List α
  | [] => [a]
  | b :: rest =>
    if a = b then b :: rest
    else if lt a b then a :: b :: rest
    else b :: insert lt a rest

def ofList (lt : α → α → Bool) (xs : List α) : List α := xs.foldr (insert lt) []

theorem mem_insert {lt : α → α → Bool} {a x : α} {xs : List α} :
    x ∈ insert lt a xs ↔ x = a ∨ x ∈ xs := by
  induction xs with
  | nil => simp [insert]
  | cons b rest ih =>
    unfold insert
    split
    · rename_i h
      subst h
      simp
    · split <;> simp [ih, or_left_comm]

theorem mem_ofList {lt : α → α → Bool} {x : α} {xs : List α} : x ∈ ofList lt xs ↔ x ∈ xs := by
  induction xs with
  | nil => simp [ofList]
  | cons a rest ih =>
    change x ∈ insert lt a (ofList lt rest) ↔ _
    rw [mem_insert, ih, List.mem_cons]

end PoolLedger.Ascending
