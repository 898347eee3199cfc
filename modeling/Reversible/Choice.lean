namespace Reversible

/-- Keeps the best so far unless the next element is better. -/
def prefer {α : Type} (better : α → α → Bool) (best : Option α) (x : α) : Option α :=
  match best with
  | none => some x
  | some b => if better x b then some x else some b

/-- The first element that no other element of the list is better than. -/
def firstBest {α : Type} (better : α → α → Bool) (xs : List α) : Option α := xs.foldl (prefer better) none

end Reversible
