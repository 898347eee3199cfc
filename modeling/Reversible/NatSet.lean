namespace Reversible

/-- Puts `n` into an ascending list, which stays as it is if it holds `n` already. -/
def insertAscending (n : Nat) : List Nat → List Nat
  | [] => [n]
  | m :: rest => if n < m then n :: m :: rest else if n = m then m :: rest else m :: insertAscending n rest

theorem mem_insertAscending {k n : Nat} {xs : List Nat} : k ∈ insertAscending n xs ↔ k = n ∨ k ∈ xs := by
  induction xs with
  | nil => simp [insertAscending]
  | cons m rest ih =>
    unfold insertAscending
    split
    · exact List.mem_cons
    split
    · rename_i same
      subst same
      simp
    · simp only [List.mem_cons, ih]
      exact or_left_comm

theorem insertAscending_sorted {n : Nat} {xs : List Nat} (sorted : xs.Pairwise (· < ·)) :
    (insertAscending n xs).Pairwise (· < ·) := by
  induction xs with
  | nil => simp [insertAscending]
  | cons m rest ih =>
    obtain ⟨below, tail⟩ := List.pairwise_cons.mp sorted
    unfold insertAscending
    split
    · rename_i less
      refine List.pairwise_cons.mpr ⟨fun k member => ?_, sorted⟩
      rcases List.mem_cons.mp member with rfl | member
      · exact less
      · exact Nat.lt_trans less (below k member)
    split
    · exact sorted
    · rename_i notLess notSame
      refine List.pairwise_cons.mpr ⟨fun k member => ?_, ih tail⟩
      rcases mem_insertAscending.mp member with rfl | member
      · omega
      · exact below k member

/-- A finite set of naturals. Its elements stand in ascending order, so sets with the same elements
are the same value, and their order is the order in which they are listed. -/
structure NatSet where
  toList : List Nat
  sorted : toList.Pairwise (· < ·)
deriving DecidableEq

namespace NatSet

instance : Membership Nat NatSet := ⟨fun s n => n ∈ s.toList⟩

theorem mem_def {n : Nat} {s : NatSet} : n ∈ s ↔ n ∈ s.toList := Iff.rfl

instance (n : Nat) (s : NatSet) : Decidable (n ∈ s) := inferInstanceAs (Decidable (n ∈ s.toList))

def empty : NatSet := ⟨[], .nil⟩

instance : Inhabited NatSet := ⟨empty⟩

def size (s : NatSet) : Nat := s.toList.length

def insert (n : Nat) (s : NatSet) : NatSet := ⟨insertAscending n s.toList, insertAscending_sorted s.sorted⟩

def erase (n : Nat) (s : NatSet) : NatSet := ⟨s.toList.filter (· != n), s.sorted.filter _⟩

def ofList (xs : List Nat) : NatSet := xs.foldr insert empty

def union (s : NatSet) (xs : List Nat) : NatSet := xs.foldr insert s

@[simp] theorem not_mem_empty (n : Nat) : n ∉ empty := List.not_mem_nil

@[simp] theorem mem_insert {k n : Nat} {s : NatSet} : k ∈ s.insert n ↔ k = n ∨ k ∈ s :=
  mem_insertAscending

@[simp] theorem mem_erase {k n : Nat} {s : NatSet} : k ∈ s.erase n ↔ k ∈ s ∧ k ≠ n := by
  simp [mem_def, erase]

@[simp] theorem mem_union {k : Nat} {s : NatSet} {xs : List Nat} : k ∈ s.union xs ↔ k ∈ xs ∨ k ∈ s := by
  induction xs with
  | nil => simp [union]
  | cons n rest ih =>
    have step : s.union (n :: rest) = (s.union rest).insert n := rfl
    rw [step, mem_insert, ih, List.mem_cons, or_assoc]

@[simp] theorem mem_ofList {k : Nat} {xs : List Nat} : k ∈ ofList xs ↔ k ∈ xs := by
  have same : ofList xs = empty.union xs := rfl
  rw [same, mem_union]
  simp

theorem ext_toList : ∀ {xs ys : List Nat}, xs.Pairwise (· < ·) → ys.Pairwise (· < ·) →
    (∀ n, n ∈ xs ↔ n ∈ ys) → xs = ys
  | [], [], _, _, _ => rfl
  | [], y :: _, _, _, same => absurd ((same y).mpr List.mem_cons_self) List.not_mem_nil
  | x :: _, [], _, _, same => absurd ((same x).mp List.mem_cons_self) List.not_mem_nil
  | x :: xs, y :: ys, left, right, same => by
    obtain ⟨belowX, leftTail⟩ := List.pairwise_cons.mp left
    obtain ⟨belowY, rightTail⟩ := List.pairwise_cons.mp right
    have heads : x = y := by
      rcases List.mem_cons.mp ((same x).mp List.mem_cons_self) with eq | inY
      · exact eq
      rcases List.mem_cons.mp ((same y).mpr List.mem_cons_self) with eq | inX
      · exact eq.symm
      · exact absurd (belowX y inX) (Nat.lt_asymm (belowY x inY))
    subst heads
    have tails : ∀ n, n ∈ xs ↔ n ∈ ys := fun n => by
      constructor
      · intro member
        rcases List.mem_cons.mp ((same n).mp (List.mem_cons_of_mem x member)) with rfl | inY
        · exact absurd (belowX n member) (Nat.lt_irrefl n)
        · exact inY
      · intro member
        rcases List.mem_cons.mp ((same n).mpr (List.mem_cons_of_mem x member)) with rfl | inX
        · exact absurd (belowY n member) (Nat.lt_irrefl n)
        · exact inX
    rw [ext_toList leftTail rightTail tails]

theorem ext {s t : NatSet} (same : ∀ n, n ∈ s ↔ n ∈ t) : s = t := by
  obtain ⟨xs, left⟩ := s
  obtain ⟨ys, right⟩ := t
  congr
  exact ext_toList left right same

end NatSet

end Reversible
