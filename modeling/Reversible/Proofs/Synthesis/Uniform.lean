import Mathlib.Order.Bounds.Defs
import Reversible.Proofs.Synthesis.Crowding

namespace Reversible

namespace TruthTable

variable {t : TruthTable} {order : List Nat} {free : Finset Nat} {maxLines capacity : Nat}
  {earlier before after : List (Bits × Cube)} {row : Bits × Cube}

/-- Rows are passed by as long as none of them finds its outputs asked for `capacity` times. -/
theorem crowded?_spec (rows : List (Bits × Cube)) (few : ∀ cube, earlier.countP (·.2 == cube) ≤ capacity) :
    ∃ before after, rows = before ++ after ∧ crowded? capacity earlier rows = after.head? ∧
      (∀ cube, (before ++ earlier).countP (·.2 == cube) ≤ capacity) ∧
      ∀ row ∈ after.head?, (before ++ earlier).countP (·.2 == row.2) = capacity := by
  -- A row that is passed by adds one to outputs that had room left, so `few` holds for the rows after it too.
  induction rows generalizing earlier with
  | nil => exact ⟨[], [], rfl, rfl, few, nofun⟩
  | cons row rest ih =>
    unfold crowded?
    by_cases full : capacity ≤ earlier.countP (·.2 == row.2)
    · rw [if_pos full]
      refine ⟨[], row :: rest, rfl, rfl, few, fun _ first => ?_⟩
      cases first
      exact Nat.le_antisymm (few row.2) full
    · rw [if_neg full]
      have still : ∀ cube, (row :: earlier).countP (·.2 == cube) ≤ capacity := fun cube => by
        rw [List.countP_cons]
        split
        · rename_i same
          rw [beq_iff_eq.mp same] at full
          omega
        · exact few cube
      obtain ⟨before, after, rfl, found, counts, first⟩ := ih still
      have moved : ∀ cube : Cube, (row :: before ++ earlier).countP (·.2 == cube) =
          (before ++ row :: earlier).countP (·.2 == cube) := fun cube => List.perm_middle.symm.countP_eq _
      exact ⟨row :: before, after, rfl, found, fun cube => moved cube ▸ counts cube,
        fun other here => moved other.2 ▸ first other here⟩

/-- How many rows up to `row` ask for the same outputs. -/
def occurrences (t : TruthTable) (row : Bits × Cube) : Nat :=
  t.rows.countP fun other => decide (other.1.number ≤ row.1.number) && other.2 == row.2

/-- At input `x` the same outputs are asked for once more than there is room. -/
def CrowdedAt (t : TruthTable) (room x : Nat) : Prop :=
  ∃ row ∈ t.rows, row.1.number = x ∧ t.occurrences row = room + 1

theorem occurrences_eq (ascending : t.rows.Pairwise fun a b => a.1.number < b.1.number)
    (split : t.rows = before ++ row :: after) : t.occurrences row = before.countP (·.2 == row.2) + 1 := by
  rw [split, List.pairwise_append, List.pairwise_cons] at ascending
  obtain ⟨-, ⟨above, -⟩, below⟩ := ascending
  have first : before.countP (fun other => decide (other.1.number ≤ row.1.number) && other.2 == row.2) =
      before.countP (·.2 == row.2) := List.countP_congr fun other member => by
    simp [(below other member row List.mem_cons_self).le]
  have last : after.countP (fun other => decide (other.1.number ≤ row.1.number) && other.2 == row.2) = 0 :=
    List.countP_eq_zero.mpr fun other member => by simp [above other member]
  unfold occurrences
  rw [split, List.countP_append, List.countP_cons, first, last]
  simp

/-- A row that finds its outputs asked for as often as there is room comes at the first input that is one too many. -/
theorem isLeast_crowdedAt {room : Nat} (ascending : t.rows.Pairwise fun a b => a.1.number < b.1.number)
    (split : t.rows = before ++ row :: after) (few : ∀ cube, before.countP (·.2 == cube) ≤ room)
    (full : before.countP (·.2 == row.2) = room) : IsLeast {x | t.CrowdedAt room x} row.1.number := by
  refine ⟨⟨row, by simp [split], rfl, full ▸ occurrences_eq ascending split⟩, ?_⟩
  rintro _ ⟨other, member, rfl, crowded⟩
  rw [split] at member
  rcases List.mem_append.mp member with early | late
  · -- Such a row is itself among those of `before`, which hold its outputs at most `room` times.
    obtain ⟨start, rest, rfl⟩ := List.append_of_mem early
    have counted := occurrences_eq ascending (split.trans (List.append_assoc _ _ _))
    have bound := few other.2
    rw [List.countP_append, List.countP_cons] at bound
    simp only [beq_self_eq_true, if_true] at bound
    omega
  · rcases List.mem_cons.mp late with rfl | later
    · exact Nat.le_refl _
    · rw [split, List.pairwise_append, List.pairwise_cons] at ascending
      exact (ascending.2.1.1 other later).le

/-- How many assignments there are to the lines that rows with open outputs at `free` leave open. -/
def room (t : TruthTable) (free : Finset Nat) : Nat := 2 ^ (t.inputs - (t.outputs - free.card))

/-- A table with open outputs at the same positions in every row can be embedded exactly if no outputs are asked for by
more rows than there is room for. If not, the first input at which some outputs are asked for once too often is the
ambiguous one. -/
theorem embed_uniform (formed : t.WellFormed) (ordered : t.ValidOrder order) (limit : t.inputs ≤ maxLines)
    (narrow : t.inputs ≤ 63) (positions : ∀ k ∈ free, k < t.outputs) (uniform : ∀ row ∈ t.rows, row.2.OpenAt free) :
    ((∃ perm, t.embed order maxLines = .ok (.ok perm)) ↔ ∀ cube, t.rows.countP (·.2 == cube) ≤ t.room free) ∧
      ((∃ cube, t.room free < t.rows.countP (·.2 == cube)) →
        ∃ x, t.embed order maxLines = .ok (.error (.ambiguous x)) ∧ IsLeast {x | t.CrowdedAt (t.room free) x} x) := by
  have fixes : ∀ row ∈ t.rows, Embedding.Fixes order (Embedding.linesOutside order free) row.2 := fun row member =>
    Embedding.fixes_of_openAt (uniform row member)
      ((formed.outputs row (List.mem_reverse.mp member)).trans ordered.1.symm)
  have enough : 2 ^ (t.inputs - (Embedding.linesOutside order free).length) = t.room free := by
    rw [Embedding.length_linesOutside (ordered.1 ▸ positions), ordered.1]
    rfl
  obtain ⟨before, after, split, found, few, full⟩ := crowded?_spec t.rows
    (show ∀ cube, ([] : List (Bits × Cube)).countP (·.2 == cube) ≤ t.room free from fun _ => Nat.zero_le _)
  have embedded := t.embed_crowded formed ordered limit narrow fixes
  rw [enough, found] at embedded
  simp only [List.append_nil] at few full
  cases after with
  | nil =>
    rw [List.append_nil] at split
    exact ⟨iff_of_true embedded (split ▸ few), fun ⟨cube, many⟩ => absurd (split ▸ few cube) (Nat.not_le.mpr many)⟩
  | cons row rest =>
    obtain ⟨-, ambiguous⟩ := embedded
    have many : t.room free < t.rows.countP (·.2 == row.2) := by
      rw [split, List.countP_append, List.countP_cons, full row rfl]
      simp only [beq_self_eq_true, if_true]
      omega
    have least := isLeast_crowdedAt (formed.ascending (by omega)) split few (full row rfl)
    refine ⟨iff_of_false ?_ fun all => absurd (all row.2) (Nat.not_le.mpr many), fun _ => ⟨_, ambiguous, least⟩⟩
    rintro ⟨perm, done⟩
    cases ambiguous.symm.trans done

/-- Each input asks for a first output, which is one for `ones` only. The second output is open. -/
def asksFirst (ones : List Nat) : TruthTable := ofRows 2 2 (fun x => [some (ones.contains x), none]) [0, 1, 2, 3]

/-- The first row takes the place of the third, which then takes another. -/
example : (asksFirst [0, 3]).embed [1, 0] 16 = .ok (.ok #[2, 1, 0, 3]) := by decide +kernel

theorem asksFirst_wellFormed (ones : List Nat) : (asksFirst ones).WellFormed :=
  ofRows_wellFormed (by decide) (fun _ _ => rfl) (by decide) (by decide)

theorem asksFirst_openAt (ones : List Nat) : ∀ row ∈ (asksFirst ones).rows, row.2.OpenAt {1} := by
  intro row member k inside
  rw [asksFirst, rows_ofRows] at member
  obtain ⟨x, -, rfl⟩ := List.mem_map.mp member
  match k, inside with
  | 0, _ => simp [rowOf]
  | 1, _ => simp [rowOf]

theorem embed_uniform_asksFirst : (asksFirst [0, 2, 3]).ValidOrder [1, 0] ∧ (asksFirst [0, 2, 3]).room {1} = 2 ∧
    ¬(∃ perm, (asksFirst [0, 2, 3]).embed [1, 0] 16 = .ok (.ok perm)) ∧
    (asksFirst [0, 2, 3]).embed [1, 0] 16 = .ok (.error (.ambiguous 3)) ∧
    IsLeast {x | (asksFirst [0, 2, 3]).CrowdedAt 2 x} 3 := by
  have ordered : (asksFirst [0, 2, 3]).ValidOrder [1, 0] := by decide
  have limit : (asksFirst [0, 2, 3]).inputs ≤ 16 := by decide
  have many : (asksFirst [0, 2, 3]).room {1} < (asksFirst [0, 2, 3]).rows.countP (·.2 == [some true, none]) := by
    decide +kernel
  have ambiguous : (asksFirst [0, 2, 3]).embed [1, 0] 16 = .ok (.error (.ambiguous 3)) := by decide +kernel
  obtain ⟨complete, crowded⟩ := embed_uniform (asksFirst_wellFormed _) ordered limit (by decide) (by decide)
    (asksFirst_openAt [0, 2, 3])
  obtain ⟨x, found, least⟩ := crowded ⟨_, many⟩
  cases ambiguous.symm.trans found
  exact ⟨ordered, rfl, fun given => Nat.not_le.mpr many (complete.mp given _), ambiguous, least⟩

end TruthTable

end Reversible
