import Reversible.Proofs.LineReduction.Specification
import Reversible.Proofs.Synthesis.Crowding

namespace Reversible

/-- Simulation of the circuit never fails, and it answers with one bit per line. -/
def Simulator.KeepsWidth (simulator : Simulator) (c : Circuit) : Prop :=
  ∀ input : Bits, input.Canonical → input.width = c.lines →
    ∃ output, simulator c input = .ok output ∧ output.width = c.lines

theorem Simulator.WidthPreserving.keepsWidth {simulator : Simulator} (preserving : simulator.WidthPreserving)
    {c : Circuit} (formed : c.WellFormed) : simulator.KeepsWidth c :=
  fun input canonical width => preserving c input formed canonical width

namespace Circuit

variable {w : Circuit} {simulator : Simulator} {roles : List LineRole} {output : Nat → Bits}

/-- The table with a row for each input, however many rows ask for the same outputs. -/
def tabulate (simulator : Simulator) (w : Circuit) (roles : List LineRole) (table : TruthTable) :
    List Nat → Except Fault TruthTable
  | [] => return table
  | x :: rest => do
    let input := Bits.ofWord w.lines x.toUInt64
    tabulate simulator w roles (← table.add input (rowCube roles (← simulator w input))) rest

theorem tabulate_eq (narrow : w.lines ≤ 63) (size : roles.length = w.lines)
    (simulated : ∀ x, simulator w (Bits.pack w.lines x.testBit) = .ok (output x))
    (width : ∀ x, (output x).width = w.lines) (earlier : List Nat) {inputs : List Nat}
    (ascending : (earlier ++ inputs).Pairwise (· < ·)) (bound : ∀ x ∈ inputs, x < 2 ^ w.lines) :
    tabulate simulator w roles (tableFor w.lines roles output earlier) inputs =
      .ok (tableFor w.lines roles output (earlier ++ inputs)) := by
  induction inputs generalizing earlier with
  | nil =>
    rw [List.append_nil]
    rfl
  | cons x rest ih =>
    have inside := bound x List.mem_cons_self
    have word : 2 ^ w.lines < 2 ^ 64 := two_pow_lt_word (by omega)
    have above : ∀ y ∈ earlier, y < x := fun y old => (List.pairwise_append.mp ascending).2.2 y old x List.mem_cons_self
    unfold tabulate
    simp only
    rw [Bits.ofWord_toUInt64 _ (by omega), simulated, ok_bind, add_rowFor narrow size width above inside, ok_bind]
    rw [List.append_cons] at ascending
    rw [ih (earlier ++ [x]) ascending fun y member => bound y (List.mem_cons_of_mem x member), ← List.append_cons]

theorem isSome_of_mem_rowCube {cube : Bits} {bit : Option Bool} (member : bit ∈ rowCube roles cube) :
    bit.isSome = true := by
  obtain ⟨entry, listed, rfl⟩ := List.mem_filterMap.mp member
  obtain ⟨i, inside, given⟩ := List.mem_iff_getElem.mp listed
  rw [List.getElem_zipWith] at given
  unfold LineRole.entry at given
  split at given
  · cases given
    rfl
  · cases given
    rfl
  · cases given

theorem rowCube_fixes {output : Bits} (width : output.width = roles.length) :
    Embedding.Fixes (LineRole.order roles) (LineRole.order roles) (rowCube roles output) := by
  have length : (rowCube roles output).length = (LineRole.order roles).length := by
    have total := length_order roles
    rw [length_rowCube width]
    omega
  have full : (rowCube roles output).OpenAt ∅ := fun k inside => by
    have given := isSome_of_mem_rowCube (List.getElem_mem inside)
    rw [List.getElem?_eq_getElem inside, Option.some.injEq]
    exact iff_of_false (fun none => by rw [none] at given; cases given) (Finset.notMem_empty k)
  have fixes := Embedding.fixes_of_openAt full length
  rwa [Embedding.linesOutside_empty] at fixes

theorem rowCapacity_eq (narrow : roles.length ≤ 63) :
    rowCapacity (LineRole.openLines roles) = 2 ^ (roles.length - (LineRole.order roles).length) := by
  have total := length_order roles
  have short : LineRole.openLines roles % UInt32.size = LineRole.openLines roles :=
    Nat.mod_eq_of_lt (Nat.lt_of_le_of_lt (by omega) (show 63 < UInt32.size by decide))
  unfold rowCapacity
  dsimp only
  rw [short, if_pos (by omega), Nat.one_shiftLeft]
  congr 1
  omega

/-- What the embedding makes of the rows of a window, read off the rows that are crowded out. -/
theorem embed_tableFor {n : Nat} (narrow : n ≤ 63) (size : roles.length = n) (width : ∀ x, (output x).width = n)
    {inputs : NatSet} (bound : ∀ x ∈ inputs, x < 2 ^ n) {maxLines : Nat} (limit : n ≤ maxLines) :
    match TruthTable.crowded? (rowCapacity (LineRole.openLines roles)) []
      (inputs.toList.map (rowFor n roles output)) with
    | none => ∃ perm, (tableFor n roles output inputs.toList).embed (LineRole.order roles) maxLines = .ok (.ok perm)
    | some _ => ∃ x ∈ inputs, (tableFor n roles output inputs.toList).embed (LineRole.order roles) maxLines =
        .ok (.error (.ambiguous x)) := by
  have rows : (tableFor n roles output inputs.toList).rows = inputs.toList.map (rowFor n roles output) :=
    TruthTable.rows_ofRows _
  have fixes : ∀ row ∈ (tableFor n roles output inputs.toList).rows,
      Embedding.Fixes (LineRole.order roles) (LineRole.order roles) row.2 := by
    intro row member
    rw [rows] at member
    obtain ⟨x, -, rfl⟩ := List.mem_map.mp member
    exact rowCube_fixes ((width x).trans size.symm)
  have embedded := TruthTable.embed_crowded (tableFor_wellFormed narrow size width bound) (validOrder _ size rfl)
    limit narrow fixes
  have room : rowCapacity (LineRole.openLines roles) =
      2 ^ ((tableFor n roles output inputs.toList).inputs - (LineRole.order roles).length) := by
    rw [rowCapacity_eq (size ▸ narrow), size]
    rfl
  rw [rows, ← room] at embedded
  split
  · rename_i none
    rwa [none] at embedded
  · rename_i row crowded
    rw [crowded] at embedded
    obtain ⟨member, ambiguous⟩ := embedded
    obtain ⟨x, listed, rfl⟩ := List.mem_map.mp member
    have number : (rowFor n roles output x).1.number = x := Bits.number_pack (by omega) (bound x listed)
    rw [number] at ambiguous
    exact ⟨x, listed, ambiguous⟩

/-- The rows for a window can be told apart exactly if their table can be embedded, and the specification is then
this table. -/
theorem specification_agrees (narrow : w.lines ≤ 63) (size : roles.length = w.lines)
    (keeps : simulator.KeepsWidth w) {inputs : NatSet} (bound : ∀ x ∈ inputs, x < 2 ^ w.lines) :
    ∃ table : TruthTable,
      w.tabulate simulator roles (.empty w.lines (w.lines - LineRole.openLines roles)) inputs.toList = .ok table ∧
      table.rows.map Prod.fst = inputs.toList.map (fun x => Bits.ofWord w.lines x.toUInt64) ∧
      ((w.specification simulator inputs roles = .ok (some table) ∧
          ∀ maxLines, w.lines ≤ maxLines → ∃ perm, table.embed (LineRole.order roles) maxLines = .ok (.ok perm)) ∨
        (w.specification simulator inputs roles = .ok none ∧
          ∀ maxLines, w.lines ≤ maxLines → ∃ x ∈ inputs,
            table.embed (LineRole.order roles) maxLines = .ok (.error (.ambiguous x)))) := by
  choose output simulated width using fun x : Nat =>
    keeps (Bits.pack w.lines x.testBit) (Bits.pack_canonical _ _) (Bits.pack_width _ _)
  refine ⟨tableFor w.lines roles output inputs.toList, tabulate_eq narrow size simulated width [] inputs.sorted bound,
    ?_, ?_⟩
  · rw [tableFor, TruthTable.rows_ofRows, List.map_map]
    refine List.map_congr_left fun x member => ?_
    have word : 2 ^ w.lines < 2 ^ 64 := two_pow_lt_word (by omega)
    have inside := bound x member
    rw [Bits.ofWord_toUInt64 _ (by omega)]
    rfl
  have checked : w.specification simulator inputs roles =
      .ok (match TruthTable.crowded? (rowCapacity (LineRole.openLines roles)) []
            (inputs.toList.map (rowFor w.lines roles output)) with
        | none => some (tableFor w.lines roles output inputs.toList)
        | some _ => none) := addRows_eq narrow size simulated width [] inputs.sorted bound
  have embedded := fun (maxLines : Nat) (limit : w.lines ≤ maxLines) => embed_tableFor narrow size width bound limit
  cases crowded : TruthTable.crowded? (rowCapacity (LineRole.openLines roles)) []
      (inputs.toList.map (rowFor w.lines roles output)) with
  | none =>
    simp only [crowded] at checked embedded
    exact Or.inl ⟨checked, embedded⟩
  | some row =>
    simp only [crowded] at checked embedded
    exact Or.inr ⟨checked, embedded⟩

/-- A window that copies its first line to the second. -/
def copying : Circuit :=
  ⟨[⟨"a", "a", none, false⟩, ⟨"b", "b", none, false⟩], [.toffoli (NatSet.ofList [0]) 1]⟩

/-- With a constant put on the second line, inputs that differ there only ask for the same outputs. -/
theorem specification_agrees_copying : copying.lines ≤ 63 ∧ Simulator.KeepsWidth simulate copying ∧
    ∃ table : TruthTable,
      copying.tabulate simulate [.stillUsed, .constant true] (.empty 2 2) [0, 1, 2] = .ok table ∧
      table.rows.map Prod.fst = [Bits.ofWord 2 0, Bits.ofWord 2 1, Bits.ofWord 2 2] ∧
      copying.specification simulate (NatSet.ofList [0, 1, 2]) [.stillUsed, .constant true] = .ok none ∧
      ∀ maxLines, 2 ≤ maxLines → ∃ x ∈ NatSet.ofList [0, 1, 2],
        table.embed [0, 1] maxLines = .ok (.error (.ambiguous x)) := by
  have narrow : copying.lines ≤ 63 := by decide
  have keeps : Simulator.KeepsWidth simulate copying := simulate_widthPreserving.keepsWidth (by decide)
  have size : [LineRole.stillUsed, .constant true].length = copying.lines := rfl
  have bound : ∀ x ∈ NatSet.ofList [0, 1, 2], x < 2 ^ copying.lines := by decide
  have crowded : copying.specification simulate (NatSet.ofList [0, 1, 2]) [.stillUsed, .constant true] = .ok none := rfl
  obtain ⟨table, tabulated, rows, ⟨specified, -⟩ | ⟨-, ambiguous⟩⟩ := specification_agrees narrow size keeps bound
  · rw [crowded] at specified
    cases specified
  · exact ⟨narrow, keeps, table, tabulated, rows, crowded, ambiguous⟩

end Circuit

end Reversible
