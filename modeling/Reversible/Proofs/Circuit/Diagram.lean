import Mathlib.Data.List.Forall2
import Mathlib.Data.String.Basic
import Reversible.Circuit.Diagram
import Reversible.Proofs.Relabelling

namespace Reversible

theorem length_le_utf8ByteSize (s : String) : s.length ≤ s.utf8ByteSize := by
  rw [← String.length_toList, ← String.utf8Len_toList]
  induction s.toList with
  | nil => exact Nat.zero_le _
  | cons x rest ih =>
    rw [List.length_cons, String.utf8Len_cons]
    exact Nat.add_le_add ih x.utf8Size_pos

theorem length_padLeft {width : Nat} {s : String} (fits : s.length ≤ width) : (padLeft width s).length = width := by
  unfold padLeft
  rw [String.length_append, String.length_ofList, List.length_replicate, Nat.sub_add_cancel fits]

/-- Rows are read back from a text in which each is ended by a newline. -/
theorem splitOn_newline {rows : List (List Char)} (closed : ∀ row ∈ rows, '\n' ∉ row) :
    (rows.flatMap (· ++ ['\n'])).splitOn '\n' = rows ++ [[]] := by
  induction rows with
  | nil => rfl
  | cons row rest ih =>
    obtain ⟨first, closed⟩ := List.forall_mem_cons.mp closed
    rw [List.flatMap_cons, List.append_assoc, List.singleton_append, List.splitOn_append_cons_self_of_not_mem first,
      ih closed, List.cons_append]

/-- The names of a wire can be set in a row: they do not end it, and they are not too long for a column. -/
def Wire.Printable (w : Wire) : Prop := ∀ name ∈ [w.input, w.output], '\n' ∉ name.toList ∧ name.utf8ByteSize < 65536

/-- What a gate does with one line. -/
inductive Mark where
  | control
  | target (inverts : Bool)
  | untouched
deriving DecidableEq

/-- The characters for controls, inverted lines and swapped lines differ from each other and from those for all
other lines. -/
structure DrawingStyle.Legible (style : DrawingStyle) : Prop where
  crossed : [style.control, style.target, style.swap, style.crossing].Nodup
  plain : [style.control, style.target, style.swap, style.wire].Nodup

theorem DrawingStyle.default_legible : ({} : DrawingStyle).Legible := ⟨by decide, by decide⟩

namespace Gate

variable {style : DrawingStyle} {g h : Gate} {line n : Nat}

def mark (g : Gate) (line : Nat) : Mark :=
  if g.hasControl line then .control else if g.hasTarget line then .target g.isToffoli else .untouched

theorem mark_eq_control_iff : g.mark line = .control ↔ line ∈ g.controls := by
  unfold mark hasControl
  grind

theorem mark_eq_target_iff (formed : g.WellFormed n) {inverts : Bool} :
    g.mark line = .target inverts ↔ line ∈ g.targets ∧ g.isToffoli = inverts := by
  have apart := formed.fits.apart
  unfold mark hasControl hasTarget
  grind

/-- A cell shows what the gate does with the line. -/
theorem mark_eq_of_cell (legible : style.Legible) (same : g.cell style line = h.cell style line) :
    g.mark line = h.mark line := by
  obtain ⟨crossed, plain⟩ := legible
  simp only [List.nodup_cons, List.mem_cons, not_or] at crossed plain
  unfold cell at same
  unfold mark
  grind

theorem cell_ne_newline (g : Gate) (line : Nat) : g.cell {} line ≠ '\n' := by
  unfold cell
  split
  · decide
  split
  · split <;> decide
  · split <;> decide

/-- The same gate with its two targets in the other order. -/
def exchanged : Gate → Gate
  | toffoli cs t => toffoli cs t
  | fredkin cs a b => fredkin cs b a

/-- Gates that are the same up to the order of swapped lines. -/
def Alike (g h : Gate) : Prop := h = g ∨ h = g.exchanged

theorem cell_exchanged (style : DrawingStyle) (g : Gate) (line : Nat) :
    g.exchanged.cell style line = g.cell style line := by
  cases g with
  | toffoli cs t => rfl
  | fredkin cs a b =>
    have control : (fredkin cs b a).hasControl line = (fredkin cs a b).hasControl line := rfl
    have target : (fredkin cs b a).hasTarget line = (fredkin cs a b).hasTarget line := by
      simp [hasTarget, targets, or_comm]
    have least : (fredkin cs b a).minLine = (fredkin cs a b).minLine := by
      simp only [minLine, min_comm]
    have most : (fredkin cs b a).maxLine = (fredkin cs a b).maxLine := by
      simp [maxLine, lines, controls, targets, max_comm, max_left_comm]
    unfold exchanged cell
    rw [control, target, least, most]
    rfl

theorem Alike.cell_eq (alike : g.Alike h) : g.cell style line = h.cell style line := by
  rcases alike with rfl | rfl
  · rfl
  · exact (cell_exchanged style g line).symm

theorem mark_of_outside (formed : g.WellFormed n) (outside : n ≤ line) : g.mark line = .untouched := by
  have untouched : g.touches line = false := touches_eq_false.mpr fun touched => by
    have inside := formed.2 line touched
    omega
  rw [touches, Bool.or_eq_false_iff] at untouched
  rw [mark, untouched.1, untouched.2]
  rfl

/-- What a gate does with each line determines it, up to the order of swapped lines. -/
theorem alike_of_mark (formed : g.WellFormed n) (otherFormed : h.WellFormed n)
    (same : ∀ line < n, g.mark line = h.mark line) : g.Alike h := by
  have marks : ∀ line, g.mark line = h.mark line := fun line => by
    rcases Nat.lt_or_ge line n with inside | outside
    · exact same line inside
    · rw [mark_of_outside formed outside, mark_of_outside otherFormed outside]
  have controls : g.controls = h.controls := NatSet.ext fun line => by
    rw [← mark_eq_control_iff, marks, mark_eq_control_iff]
  have targets : ∀ line inverts, line ∈ g.targets ∧ g.isToffoli = inverts ↔ line ∈ h.targets ∧ h.isToffoli = inverts :=
    fun line inverts => by rw [← mark_eq_target_iff formed, marks, mark_eq_target_iff otherFormed]
  cases g with
  | toffoli cs t =>
    obtain ⟨member, kind⟩ := (targets t true).mp ⟨List.mem_singleton_self t, rfl⟩
    cases h with
    | fredkin cs' a b => cases kind
    | toffoli cs' t' =>
      cases controls
      cases List.mem_singleton.mp member
      exact Or.inl rfl
  | fredkin cs a b =>
    obtain ⟨first, kind⟩ := (targets a false).mp ⟨List.mem_cons_self, rfl⟩
    obtain ⟨second, -⟩ := (targets b false).mp ⟨List.mem_cons_of_mem a (List.mem_singleton_self b), rfl⟩
    cases h with
    | toffoli cs' t' => cases kind
    | fredkin cs' a' b' =>
      cases controls
      have different : a ≠ b := fun equal =>
        (List.nodup_cons.mp (lines_nodup_iff.mp formed.1).1).1 (equal ▸ List.mem_singleton_self b)
      simp only [Gate.targets, List.mem_cons, List.not_mem_nil, or_false] at first second
      rcases first with rfl | rfl
      · rcases second with rfl | rfl
        · exact absurd rfl different
        · exact Or.inl rfl
      · rcases second with rfl | rfl
        · exact Or.inr rfl
        · exact absurd rfl different

end Gate

namespace Circuit

section

variable {style : DrawingStyle} {gates others : List Gate} {line n : Nat}

/-- Without the names, the rows of two drawings agree exactly if the cells do. -/
theorem drawnWire_eq_iff : drawnWire style gates line = drawnWire style others line ↔
    gates.map (Gate.cell style line) = others.map (Gate.cell style line) := by
  unfold drawnWire
  rw [String.ofList_inj, List.cons_inj_right]
  induction gates generalizing others with
  | nil => cases others <;> simp
  | cons g rest ih => cases others <;> simp [ih]

theorem getElem?_drawnWire {j : Nat} {g : Gate} (position : gates[j]? = some g) :
    (drawnWire style gates line).toList[2 * j + 1]? = some (g.cell style line) := by
  unfold drawnWire
  rw [String.toList_ofList, List.getElem?_cons_succ]
  induction gates generalizing j with
  | nil => cases position
  | cons first rest ih =>
    cases j with
    | zero =>
      cases position
      rfl
    | succ j => exact ih position

theorem map_cell_of_alike (alike : List.Forall₂ Gate.Alike gates others) :
    gates.map (Gate.cell style line) = others.map (Gate.cell style line) := by
  induction alike with
  | nil => rfl
  | cons first _ ih => rw [List.map_cons, List.map_cons, first.cell_eq, ih]

/-- The cells on all lines determine the gates, up to the order of swapped lines. -/
theorem forall_cells_eq_iff (legible : style.Legible) (formed : ∀ g ∈ gates, g.WellFormed n)
    (othersFormed : ∀ g ∈ others, g.WellFormed n) :
    (∀ line < n, gates.map (Gate.cell style line) = others.map (Gate.cell style line)) ↔
      List.Forall₂ Gate.Alike gates others := by
  constructor
  · intro same
    induction gates generalizing others with
    | nil =>
      cases others with
      | nil => exact .nil
      | cons h rest =>
        obtain ⟨line, touched⟩ := h.exists_mem_lines
        cases same line ((othersFormed h List.mem_cons_self).2 line touched)
    | cons g rest ih =>
      obtain ⟨gFormed, formed⟩ := List.forall_mem_cons.mp formed
      cases others with
      | nil =>
        obtain ⟨line, touched⟩ := g.exists_mem_lines
        cases same line (gFormed.2 line touched)
      | cons h later =>
        obtain ⟨hFormed, othersFormed⟩ := List.forall_mem_cons.mp othersFormed
        have cells : ∀ line < n, g.cell style line = h.cell style line ∧
            rest.map (Gate.cell style line) = later.map (Gate.cell style line) :=
          fun line inside => List.cons.inj (same line inside)
        refine .cons ?_ (ih formed othersFormed fun line inside => (cells line inside).2)
        exact Gate.alike_of_mark gFormed hFormed fun line inside => Gate.mark_eq_of_cell legible (cells line inside).1
  · intro alike line _
    exact map_cell_of_alike alike

end

variable {c : Circuit}

theorem shownInput_length_le {w : Wire} (member : w ∈ c.wires) : w.shownInput.length ≤ c.nameWidth := by
  have below := (Gate.foldl_max_lt.mp (Nat.lt_succ_self c.nameWidth)).2 _ (List.mem_map_of_mem member)
  exact (length_le_utf8ByteSize _).trans (Nat.lt_succ_iff.mp below)

/-- The characters of the rows of the drawing, without the newlines. -/
def rowTexts (c : Circuit) : List (List Char) := c.wires.mapIdx fun line w => (c.drawnLine {} line w).toList

theorem toList_drawnLine (line : Nat) (w : Wire) : (c.drawnLine {} line w).toList =
    (padLeft c.nameWidth w.shownInput).toList ++
      (' ' :: (drawnWire {} c.gates line).toList ++ ' ' :: w.shownOutput.toList) := by
  unfold drawnLine
  rw [if_pos rfl]
  simp only [String.toList_append, List.append_assoc]
  rfl

/-- Names are padded to one width, so that the cells of a gate stand below each other. -/
theorem getElem?_drawnLine {line : Nat} {w : Wire} (member : w ∈ c.wires) {j : Nat} {g : Gate}
    (position : c.gates[j]? = some g) :
    (c.drawnLine {} line w).toList[c.nameWidth + 2 + 2 * j]? = some (g.cell {} line) := by
  have padded : (padLeft c.nameWidth w.shownInput).toList.length = c.nameWidth :=
    String.length_toList.trans (length_padLeft (shownInput_length_le member))
  have cell : (drawnWire {} c.gates line).toList[2 * j + 1]? = some (g.cell {} line) := getElem?_drawnWire position
  have inside := (List.getElem?_eq_some_iff.mp cell).1
  rw [toList_drawnLine, List.getElem?_append_right (by omega), padded,
    show c.nameWidth + 2 + 2 * j - c.nameWidth = 2 * j + 1 + 1 by omega, List.cons_append, List.getElem?_cons_succ,
    List.getElem?_append_left inside, cell]

theorem newline_not_mem_drawnLine {line : Nat} {w : Wire} (printable : w.Printable) :
    '\n' ∉ (c.drawnLine {} line w).toList := by
  have shownInput : '\n' ∉ w.shownInput.toList := by
    unfold Wire.shownInput
    split
    · split <;> decide
    · exact (printable w.input List.mem_cons_self).1
  have shownOutput : '\n' ∉ w.shownOutput.toList := by
    unfold Wire.shownOutput
    split
    · decide
    · exact (printable w.output (List.mem_cons_of_mem _ (List.mem_singleton_self _))).1
  have padded : '\n' ∉ (padLeft c.nameWidth w.shownInput).toList := by
    simp [padLeft, shownInput]
  have drawn : '\n' ∉ (drawnWire {} c.gates line).toList := by
    simp [drawnWire, (Gate.cell_ne_newline _ line).symm]
  simp [toList_drawnLine, padded, drawn, shownOutput]

theorem toList_diagram (c : Circuit) : c.diagram.toList = c.rowTexts.flatMap (· ++ ['\n']) := by
  unfold diagram rowTexts
  rw [String.toList_join, List.mapIdx_eq_zipIdx_map, List.mapIdx_eq_zipIdx_map, List.flatMap_map, List.flatMap_map]
  simp only [String.toList_append]
  rfl

/-- The rows of a drawing can be read off its text. -/
theorem splitOn_diagram (printable : ∀ w ∈ c.wires, w.Printable) :
    c.diagram.toList.splitOn '\n' = c.rowTexts ++ [[]] := by
  rw [toList_diagram]
  refine splitOn_newline fun row member => ?_
  obtain ⟨line, inside, rfl⟩ := List.mem_mapIdx.mp member
  exact newline_not_mem_drawnLine (printable _ (List.getElem_mem inside))

/-- Below the same names, two rows agree exactly if their cells do. -/
theorem drawnLine_eq_iff {wires : List Wire} {gates others : List Gate} {line : Nat} {w : Wire} :
    (mk wires gates).drawnLine {} line w = (mk wires others).drawnLine {} line w ↔
      gates.map (Gate.cell {} line) = others.map (Gate.cell {} line) := by
  have names : (mk wires others).nameWidth = (mk wires gates).nameWidth := rfl
  unfold drawnLine
  rw [if_pos rfl, if_pos rfl, names, String.append_left_inj, String.append_left_inj, String.append_right_inj]
  exact drawnWire_eq_iff

theorem rowTexts_eq_iff {wires : List Wire} {gates others : List Gate} :
    (mk wires gates).rowTexts = (mk wires others).rowTexts ↔
      ∀ line < wires.length, gates.map (Gate.cell {} line) = others.map (Gate.cell {} line) := by
  unfold rowTexts
  rw [List.mapIdx_eq_mapIdx_iff]
  simp only [String.toList_inj, drawnLine_eq_iff]

/-- The drawing of a circuit has one row per line. In all of them the cell of gate `j` stands at the same position,
`2 * j` characters behind the first. The drawing shows every gate: another circuit on the same wires has the same
drawing exactly if its gates are the same up to the order of swapped lines. -/
theorem diagram_faithful {c : Circuit} (formed : c.WellFormed) (printable : ∀ w ∈ c.wires, w.Printable) :
    (∃ rows margin, c.diagram.toList.splitOn '\n' = rows ++ [[]] ∧ rows.length = c.lines ∧
      ∀ line row, rows[line]? = some row → ∀ j g, c.gates[j]? = some g →
        row[margin + 2 + 2 * j]? = some (g.cell {} line)) ∧
    ∀ other : Circuit, other.WellFormed → other.wires = c.wires →
      (c.diagram = other.diagram ↔ List.Forall₂ Gate.Alike c.gates other.gates) := by
  constructor
  · refine ⟨c.rowTexts, c.nameWidth, splitOn_diagram printable, List.length_mapIdx, ?_⟩
    intro line row found j g position
    obtain ⟨w, wire, rfl⟩ := Option.map_eq_some_iff.mp (List.getElem?_mapIdx.symm.trans found)
    exact getElem?_drawnLine (List.mem_of_getElem? wire) position
  · rintro ⟨wires, others⟩ otherFormed rfl
    have rows : c.diagram = (mk c.wires others).diagram ↔ c.rowTexts = (mk c.wires others).rowTexts := by
      refine ⟨fun same => ?_, fun same => ?_⟩
      · have split := splitOn_diagram printable
        rw [same, splitOn_diagram (c := mk c.wires others) printable] at split
        exact (List.append_cancel_right split).symm
      · rw [← String.toList_inj, toList_diagram, toList_diagram, same]
    rw [rows]
    exact rowTexts_eq_iff.trans (forall_cells_eq_iff DrawingStyle.default_legible formed otherFormed)

/-- The first name has two characters in four bytes, and the last line shows its constant and hides its output. -/
def accented : Circuit :=
  ⟨[⟨"éé", "ü", none, false⟩, ⟨"b", "g", none, false⟩, ⟨"c", "h", some true, true⟩],
    [.toffoli (.ofList [0]) 2, .fredkin .empty 0 2, .fredkin (.ofList [2]) 0 1]⟩

theorem diagram_faithful_accented :
    let other : Circuit :=
      { accented with gates := [.toffoli (.ofList [0]) 2, .fredkin .empty 2 0, .fredkin (.ofList [2]) 1 0] }
    accented.WellFormed ∧ (∀ w ∈ accented.wires, w.Printable) ∧ other.WellFormed ∧ other.wires = accented.wires ∧
      accented.diagram = "  éé -*-X-X- ü\n   b -+-+-X- g\n   1 -O-X-*- -\n" ∧
      (∃ rows margin, accented.diagram.toList.splitOn '\n' = rows ++ [[]] ∧ rows.length = 3 ∧
        ∀ row, rows[1]? = some row → row[margin + 2 + 2 * 2]? = some 'X') ∧
      List.Forall₂ Gate.Alike accented.gates other.gates ∧ accented.diagram = other.diagram := by
  intro other
  have formed : accented.WellFormed := by decide +kernel
  have otherFormed : other.WellFormed := by decide +kernel
  have printable : ∀ w ∈ accented.wires, w.Printable := by
    unfold Wire.Printable
    decide
  have text : accented.diagram = "  éé -*-X-X- ü\n   b -+-+-X- g\n   1 -O-X-*- -\n" := by decide +kernel
  have alike : List.Forall₂ Gate.Alike accented.gates other.gates :=
    .cons (Or.inl rfl) (.cons (Or.inr rfl) (.cons (Or.inr rfl) .nil))
  obtain ⟨⟨rows, margin, split, length, cells⟩, same⟩ := diagram_faithful formed printable
  exact ⟨formed, printable, otherFormed, rfl, text,
    ⟨rows, margin, split, length, fun row found => cells 1 row found 2 _ rfl⟩,
    alike, (same other otherFormed rfl).mpr alike⟩

end Circuit

end Reversible
