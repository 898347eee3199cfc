import Reversible.Proofs.Merging
import Reversible.Proofs.Windows

namespace Reversible

section

variable {α β γ : Type} {f : α → α} {g : α → β}

theorem map_eraseIdx (g : α → β) (xs : List α) (i : Nat) : (xs.eraseIdx i).map g = (xs.map g).eraseIdx i := by
  rw [List.eraseIdx_eq_take_drop_succ, List.eraseIdx_eq_take_drop_succ, List.map_append, List.map_take, List.map_drop]

theorem map_modify_of_same (same : ∀ x, g (f x) = g x) (xs : List α) (i : Nat) : (xs.modify i f).map g = xs.map g := by
  induction xs generalizing i with
  | nil => simp
  | cons x rest ih =>
    cases i with
    | zero => simp [same]
    | succ i => simp [ih]

theorem map_modify_of_const {y : β} (value : ∀ x, g (f x) = y) (xs : List α) (i : Nat) :
    (xs.modify i f).map g = (xs.map g).set i y := by
  induction xs generalizing i with
  | nil => simp
  | cons x rest ih =>
    cases i with
    | zero => simp [value]
    | succ i => simp [ih]

theorem zipWith_eq_map_left (g : α → β) {xs : List α} {ys : List γ} (length : ys.length = xs.length) :
    xs.zipWith (fun x _ => g x) ys = xs.map g :=
  List.ext_getElem (by simp [length]) fun i _ _ => by simp

theorem zipWith_eq_right {xs : List α} {ys : List γ} (length : ys.length = xs.length) :
    xs.zipWith (fun _ y => y) ys = ys :=
  List.ext_getElem (by simp [length]) fun i _ _ => by simp

theorem map_set_of_getElem? (g : α → β) {xs : List α} {i : Nat} {x : α} (found : xs[i]? = some x) :
    (xs.map g).set i (g x) = xs.map g := by
  obtain ⟨inside, rfl⟩ := List.getElem?_eq_some_iff.mp found
  rw [← List.getElem_map g (h := by simpa using inside), List.set_getElem_self]

end

/-- What surrounds the lines of a circuit, as a number of lines and one list for each of the four entries of a wire. -/
@[ext]
structure Columns where
  lines : Nat
  inputs : List String
  outputs : List String
  constants : List (Option Bool)
  garbage : List Bool

namespace Columns

/-- Every list has one entry per line. -/
structure Aligned (k : Columns) : Prop where
  inputs : k.inputs.length = k.lines
  outputs : k.outputs.length = k.lines
  constants : k.constants.length = k.lines
  garbage : k.garbage.length = k.lines

def fresh (lines : Nat) : Columns :=
  ⟨lines, (List.range lines).map fun i => s!"i{i}", (List.range lines).map fun i => s!"o{i}",
    List.replicate lines none, List.replicate lines false⟩

/-- One line more. -/
def push (k : Columns) (w : Wire) : Columns :=
  ⟨k.lines + 1, k.inputs ++ [w.input], k.outputs ++ [w.output], k.constants ++ [w.constant], k.garbage ++ [w.garbage]⟩

/-- One line less. -/
def erase (k : Columns) (line : Nat) : Columns :=
  ⟨k.lines - 1, k.inputs.eraseIdx line, k.outputs.eraseIdx line, k.constants.eraseIdx line, k.garbage.eraseIdx line⟩

/-- Line `kept` has the output name and the garbage flag of line `gone`. -/
def handOver (k : Columns) (gone kept : Nat) : Columns :=
  { k with
    outputs := k.outputs.set kept (k.outputs.getD gone "")
    garbage := k.garbage.set kept (k.garbage.getD gone false) }

/-- The lines of `filter` and no others. -/
def pick (k : Columns) (filter : List Nat) : Columns :=
  ⟨filter.length, filter.map (k.inputs.getD · ""), filter.map (k.outputs.getD · ""),
    filter.map (k.constants.getD · none), filter.map (k.garbage.getD · false)⟩

def ofWires (wires : List Wire) : Columns :=
  ⟨wires.length, wires.map (·.input), wires.map (·.output), wires.map (·.constant), wires.map (·.garbage)⟩

theorem ofWires_aligned (wires : List Wire) : (ofWires wires).Aligned :=
  ⟨List.length_map _, List.length_map _, List.length_map _, List.length_map _⟩

section

variable {wires : List Wire}

theorem ofWires_zipWith_input {names : List String} (length : names.length = wires.length) :
    ofWires (wires.zipWith (fun w name => { w with input := name }) names) =
      { ofWires wires with inputs := names } := by
  simp only [ofWires, List.map_zipWith, zipWith_eq_map_left _ length, zipWith_eq_right length, List.length_zipWith,
    length, Nat.min_self]

theorem ofWires_zipWith_output {names : List String} (length : names.length = wires.length) :
    ofWires (wires.zipWith (fun w name => { w with output := name }) names) =
      { ofWires wires with outputs := names } := by
  simp only [ofWires, List.map_zipWith, zipWith_eq_map_left _ length, zipWith_eq_right length, List.length_zipWith,
    length, Nat.min_self]

theorem ofWires_zipWith_constant {values : List (Option Bool)} (length : values.length = wires.length) :
    ofWires (wires.zipWith (fun w value => { w with constant := value }) values) =
      { ofWires wires with constants := values } := by
  simp only [ofWires, List.map_zipWith, zipWith_eq_map_left _ length, zipWith_eq_right length, List.length_zipWith,
    length, Nat.min_self]

theorem ofWires_zipWith_garbage {flags : List Bool} (length : flags.length = wires.length) :
    ofWires (wires.zipWith (fun w flag => { w with garbage := flag }) flags) =
      { ofWires wires with garbage := flags } := by
  simp only [ofWires, List.map_zipWith, zipWith_eq_map_left _ length, zipWith_eq_right length, List.length_zipWith,
    length, Nat.min_self]

variable {line : Nat} {w : Wire}

theorem ofWires_set_input (found : wires[line]? = some w) (name : String) :
    ofWires (wires.set line { w with input := name }) =
      { ofWires wires with inputs := (ofWires wires).inputs.set line name } := by
  simp only [ofWires, List.map_set, map_set_of_getElem? _ found, List.length_set]

theorem ofWires_set_output (found : wires[line]? = some w) (name : String) :
    ofWires (wires.set line { w with output := name }) =
      { ofWires wires with outputs := (ofWires wires).outputs.set line name } := by
  simp only [ofWires, List.map_set, map_set_of_getElem? _ found, List.length_set]

theorem ofWires_set_constant (found : wires[line]? = some w) (constant : Option Bool) :
    ofWires (wires.set line { w with constant }) =
      { ofWires wires with constants := (ofWires wires).constants.set line constant } := by
  simp only [ofWires, List.map_set, map_set_of_getElem? _ found, List.length_set]

theorem ofWires_set_garbage (found : wires[line]? = some w) (garbage : Bool) :
    ofWires (wires.set line { w with garbage }) =
      { ofWires wires with garbage := (ofWires wires).garbage.set line garbage } := by
  simp only [ofWires, List.map_set, map_set_of_getElem? _ found, List.length_set]

end

theorem ofWires_append (wires : List Wire) (w : Wire) : ofWires (wires ++ [w]) = (ofWires wires).push w := by
  simp [ofWires, push]

theorem ofWires_eraseIdx {wires : List Wire} {line : Nat} (inside : line < wires.length) :
    ofWires (wires.eraseIdx line) = (ofWires wires).erase line := by
  simp only [ofWires, erase, List.length_eraseIdx_of_lt inside, map_eraseIdx]

end Columns

namespace Circuit

def columns (c : Circuit) : Columns := .ofWires c.wires

variable {c d : Circuit}

@[simp] theorem lines_blank (n : Nat) : (blank n).lines = n := by simp [blank, lines]

theorem columns_blank (lines : Nat) : (blank lines).columns = .fresh lines := by
  ext1
  · simp [columns, Columns.ofWires, blank, Columns.fresh]
  · simp [columns, Columns.ofWires, blank, Columns.fresh, Function.comp_def, Wire.fresh]
  · simp [columns, Columns.ofWires, blank, Columns.fresh, Function.comp_def, Wire.fresh]
  · simp [columns, Columns.ofWires, blank, Columns.fresh, Function.comp_def, Wire.fresh]
  · simp [columns, Columns.ofWires, blank, Columns.fresh, Function.comp_def, Wire.fresh]

theorem getD_columns {β : Type} (field : Wire → β) (default : β) {line : Nat} (inside : line < c.lines) :
    (c.wires.map field).getD line default = field (c.wire line) := by
  have bound : line < c.wires.length := inside
  simp [wire, bound]

theorem columns_filter {filter : List Nat} (inside : ∀ line ∈ filter, line < c.lines) :
    Columns.ofWires (filter.map c.wire) = c.columns.pick filter := by
  have entries : ∀ {β : Type} (field : Wire → β) (default : β),
      (filter.map c.wire).map field = filter.map ((c.wires.map field).getD · default) := fun field default => by
    rw [List.map_map]
    exact List.map_congr_left fun line member => (getD_columns field default (inside line member)).symm
  ext1
  · exact List.length_map _
  · exact entries _ _
  · exact entries _ _
  · exact entries _ _
  · exact entries _ _

theorem columns_dropped {line : Nat} (inside : line < c.lines) : (c.dropped line).columns = c.columns.erase line :=
  Columns.ofWires_eraseIdx inside

theorem columns_merged {removed kept : Nat} (inside : removed < c.lines) :
    (c.merged removed kept).columns = (c.columns.handOver removed kept).erase removed := by
  have erased : (c.merged removed kept).columns =
      (Columns.ofWires (c.wires.modify kept (·.continuing (c.wire removed)))).erase removed :=
    Columns.ofWires_eraseIdx (by rwa [List.length_modify])
  let handing : Wire → Wire := (·.continuing (c.wire removed))
  rw [erased]
  congr 1
  ext1
  · exact List.length_modify ..
  · exact map_modify_of_same (f := handing) (g := Wire.input) (fun _ => rfl) _ _
  · simp only [columns, Columns.handOver, Columns.ofWires, getD_columns _ _ inside]
    exact map_modify_of_const (f := handing) (g := Wire.output) (fun _ => rfl) _ _
  · exact map_modify_of_same (f := handing) (g := Wire.constant) (fun _ => rfl) _ _
  · simp only [columns, Columns.handOver, Columns.ofWires, getD_columns _ _ inside]
    exact map_modify_of_const (f := handing) (g := Wire.garbage) (fun _ => rfl) _ _

end Circuit

end Reversible
