import Reversible.LineReduction.Specification
import Reversible.Proofs.LineReduction.States
import Reversible.Synthesis.Embedding

namespace Reversible

section

variable {α β : Type} {f : α → Option β}

theorem length_filter_isSome (xs : List α) :
    (xs.filter fun x => (f x).isSome).length = (xs.filterMap f).length := by
  induction xs with
  | nil => rfl
  | cons x rest ih => cases value : f x <;> simp [value, ih]

theorem mem_zip_filterMap {xs : List α} {x : α} {y : β} (member : x ∈ xs) (value : f x = some y) :
    (x, y) ∈ (xs.filter fun x => (f x).isSome).zip (xs.filterMap f) := by
  induction xs with
  | nil => cases member
  | cons head rest ih =>
    rcases List.mem_cons.mp member with rfl | later
    · simp [value]
    · have tail := ih later
      cases head' : f head <;> simp [head', tail]

end

namespace Circuit

variable {roles : List LineRole} {output : Bits}

/-- The entry of line `i` of a window in the row for `output`. -/
def entryOf (roles : List LineRole) (output : Bits) (i : Nat) : Option (Option Bool) :=
  (roles.getD i .dontCare).entry (output.testBit i)

theorem rowCube_eq_filterMap (width : output.width = roles.length) :
    rowCube roles output = (List.range roles.length).filterMap (entryOf roles output) := by
  have entries : roles.zipWith (fun role value => role.entry value) output.toBools =
      (List.range roles.length).map (entryOf roles output) := by
    refine List.ext_getElem (by simp [Bits.toBools, width]) fun i left right => ?_
    rw [List.length_map, List.length_range] at right
    simp [Bits.toBools, entryOf, right]
  unfold rowCube
  rw [entries, List.filterMap_map]
  rfl

theorem order_eq_filter (roles : List LineRole) (output : Bits) : LineRole.order roles =
    (List.range roles.length).filter fun i => (entryOf roles output i).isSome := by
  refine List.filter_congr fun i member => ?_
  have inside := List.mem_range.mp member
  unfold entryOf
  rw [List.getElem?_eq_getElem inside, List.getD_eq_getElem _ _ inside]
  cases roles[i] <;> rfl

theorem length_order (roles : List LineRole) :
    (LineRole.order roles).length + LineRole.openLines roles = roles.length := by
  have all : roles = (List.range roles.length).map (roles.getD · .dontCare) :=
    List.ext_getElem (by simp) fun i inside _ => by simp [inside]
  have closed : (LineRole.order roles).length = roles.countP (· != .dontCare) := by
    conv_rhs => rw [all, List.countP_map]
    unfold LineRole.order
    rw [← List.countP_eq_length_filter]
    refine List.countP_congr fun i member => ?_
    have inside := List.mem_range.mp member
    simp [inside]
  have both := List.length_eq_countP_add_countP (· == LineRole.dontCare) (l := roles)
  unfold LineRole.openLines List.count
  simp only [bne] at closed
  simp only [Bool.not_eq_true, Bool.decide_eq_false] at both
  omega

theorem length_rowCube (width : output.width = roles.length) :
    (rowCube roles output).length = roles.length - LineRole.openLines roles := by
  have total := length_order roles
  rw [rowCube_eq_filterMap width, ← length_filter_isSome, ← order_eq_filter]
  omega

/-- The row fixes the entry of each line that is not open. -/
theorem mem_zip_rowCube (width : output.width = roles.length) {i : Nat} (inside : i < roles.length)
    {bit : Option Bool} (entry : entryOf roles output i = some bit) :
    (i, bit) ∈ (LineRole.order roles).zip (rowCube roles output) := by
  rw [rowCube_eq_filterMap width, order_eq_filter roles output]
  exact mem_zip_filterMap (List.mem_range.mpr inside) entry

variable {w : Circuit} {simulator : Simulator}

/-- The row for `x`, if `output` is what is simulated for each number. -/
def rowFor (n : Nat) (roles : List LineRole) (output : Nat → Bits) : Nat → Bits × Cube :=
  TruthTable.rowOf n fun x => rowCube roles (output x)

/-- The table of the rows for inputs in ascending order. -/
def tableFor (n : Nat) (roles : List LineRole) (output : Nat → Bits) (inputs : List Nat) : TruthTable :=
  TruthTable.ofRows n (n - LineRole.openLines roles) (fun x => rowCube roles (output x)) inputs

variable {n : Nat} {output : Nat → Bits}

theorem add_rowFor (narrow : n ≤ 63) (size : roles.length = n) (width : ∀ x, (output x).width = n)
    {earlier : List Nat} {x : Nat} (above : ∀ y ∈ earlier, y < x) (bound : x < 2 ^ n) :
    (tableFor n roles output earlier).add (Bits.pack n x.testBit) (rowCube roles (output x)) =
      .ok (tableFor n roles output (earlier ++ [x])) := by
  have length : (rowCube roles (output x)).length = n - LineRole.openLines roles := by
    rw [length_rowCube ((width x).trans size.symm), size]
  exact TruthTable.add_ofRows (by omega) length above bound

theorem descending_tableFor_concat (earlier : List Nat) (x : Nat) :
    (tableFor n roles output (earlier ++ [x])).descending =
      rowFor n roles output x :: (tableFor n roles output earlier).descending :=
  TruthTable.descending_ofRows_concat earlier x

/-- How many rows of a table ask for a cube. -/
def occurrencesIn (rows : List (Bits × Cube)) (cube : Cube) : Nat := rows.countP (·.2 == cube)

theorem occurrencesIn_cons (row : Bits × Cube) (rows : List (Bits × Cube)) : occurrencesIn (row :: rows) =
    fun other => if other = row.2 then occurrencesIn rows row.2 + 1 else occurrencesIn rows other := by
  funext other
  unfold occurrencesIn
  rw [List.countP_cons]
  by_cases same : other = row.2
  · simp [same]
  · simp [same, Ne.symm same]

/-- Inputs in ascending order get one row each, unless some row is crowded out. -/
theorem addRows_eq (narrow : w.lines ≤ 63) (size : roles.length = w.lines)
    (simulated : ∀ x, simulator w (Bits.pack w.lines x.testBit) = .ok (output x))
    (width : ∀ x, (output x).width = w.lines) (earlier : List Nat) {inputs : List Nat}
    (ascending : (earlier ++ inputs).Pairwise (· < ·)) (bound : ∀ x ∈ inputs, x < 2 ^ w.lines) :
    addRows simulator w roles (occurrencesIn (tableFor w.lines roles output earlier).descending)
        (tableFor w.lines roles output earlier) inputs =
      .ok (match TruthTable.crowded? (rowCapacity (LineRole.openLines roles))
            (tableFor w.lines roles output earlier).descending (inputs.map (rowFor w.lines roles output)) with
        | none => some (tableFor w.lines roles output (earlier ++ inputs))
        | some _ => none) := by
  induction inputs generalizing earlier with
  | nil =>
    rw [List.append_nil]
    rfl
  | cons x rest ih =>
    have inside := bound x List.mem_cons_self
    have word : 2 ^ w.lines < 2 ^ 64 := two_pow_lt_word (by omega)
    have above : ∀ y ∈ earlier, y < x := fun y old => (List.pairwise_append.mp ascending).2.2 y old x List.mem_cons_self
    -- With the row for `x` added, the counter counts the rows of the table once more.
    have counted := occurrencesIn_cons (rowFor w.lines roles output x)
      (tableFor w.lines roles output earlier).descending
    rw [← descending_tableFor_concat] at counted
    unfold addRows TruthTable.crowded?
    simp only [List.map_cons, show (rowFor w.lines roles output x).2 = rowCube roles (output x) from rfl]
    rw [Bits.ofWord_toUInt64 _ (by omega), simulated, ok_bind]
    by_cases full : rowCapacity (LineRole.openLines roles) ≤
        occurrencesIn (tableFor w.lines roles output earlier).descending (rowCube roles (output x))
    · rw [if_pos full, if_pos (show _ ≤ List.countP _ _ from full)]
      rfl
    · rw [if_neg full, if_neg (show ¬ _ ≤ List.countP _ _ from full)]
      rw [add_rowFor narrow size width above inside, ok_bind]
      rw [List.append_cons] at ascending
      have later := ih (earlier ++ [x]) ascending fun y member => bound y (List.mem_cons_of_mem x member)
      rw [counted, ← List.append_cons, descending_tableFor_concat] at later
      exact later

theorem tableFor_wellFormed (narrow : n ≤ 63) (size : roles.length = n) (width : ∀ x, (output x).width = n)
    {inputs : NatSet} (bound : ∀ x ∈ inputs, x < 2 ^ n) : (tableFor n roles output inputs.toList).WellFormed := by
  refine TruthTable.ofRows_wellFormed (by omega) (fun x _ => ?_) inputs.sorted bound
  rw [length_rowCube ((width x).trans size.symm), size]

theorem validOrder (table : TruthTable) (size : roles.length = table.inputs)
    (outputs : table.outputs = table.inputs - LineRole.openLines roles) : table.ValidOrder (LineRole.order roles) := by
  have total := length_order roles
  refine ⟨by omega, fun i member => ?_, List.nodup_range.filter _⟩
  exact size ▸ List.mem_range.mp (List.mem_filter.mp member).1

/-- The table has a row for each input, with what the window does to it. -/
def Specifies (w : Circuit) (simulator : Simulator) (roles : List LineRole) (inputs : NatSet) (table : TruthTable) :
    Prop :=
  ∀ x ∈ inputs, ∃ output, simulator w (Bits.pack w.lines x.testBit) = .ok output ∧ output.width = w.lines ∧
    (Bits.pack w.lines x.testBit, rowCube roles output) ∈ table.rows

theorem specification_spec (formed : w.WellFormed) (preserving : simulator.WidthPreserving) (narrow : w.lines ≤ 63)
    (size : roles.length = w.lines) {inputs : NatSet} (bound : ∀ x ∈ inputs, x < 2 ^ w.lines) :
    ∃ result, w.specification simulator inputs roles = .ok result ∧ ∀ table, result = some table →
      table.WellFormed ∧ table.inputs = w.lines ∧ table.ValidOrder (LineRole.order roles) ∧
        w.Specifies simulator roles inputs table := by
  choose output simulated width using fun x : Nat =>
    preserving w (Bits.pack w.lines x.testBit) formed (Bits.pack_canonical _ _) (Bits.pack_width _ _)
  refine ⟨_, addRows_eq narrow size simulated width [] inputs.sorted bound, fun table built => ?_⟩
  split at built
  · cases built
    refine ⟨tableFor_wellFormed narrow size width bound, rfl, validOrder _ size rfl, fun x member => ?_⟩
    refine ⟨output x, simulated x, width x, ?_⟩
    rw [tableFor, TruthTable.rows_ofRows]
    exact List.mem_map.mpr ⟨x, member, rfl⟩
  · cases built

end Circuit

end Reversible
