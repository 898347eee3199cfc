import Reversible.Gate.Edit
import Reversible.Proofs.Circuit.Columns
import Reversible.Proofs.Collisions
import Reversible.Proofs.Peephole.Run

namespace Reversible

theorem of_forM_eq_ok {α : Type} {f : α → Except Fault Unit} {xs : List α} (run : xs.forM f = .ok ()) :
    ∀ x ∈ xs, f x = .ok () := by
  induction xs with
  | nil => nofun
  | cons x rest ih =>
    obtain ⟨_, head, tail⟩ := bind_eq_ok.mp run
    exact List.forall_mem_cons.mpr ⟨head, ih tail⟩

namespace Gate

/-- The gates that the constructors give out, and what becomes of them when controls are added or removed. -/
inductive Made : Gate → Prop
  | controlledNot {controls target g} (run : controlledNot controls target = .ok g) : Made g
  | controlledSwap {controls first second g} (run : controlledSwap controls first second = .ok g) : Made g
  | addControl {g h line} (made : Made g) (run : g.addControl line = .ok h) : Made h
  | removeControl {g} (line : Nat) (made : Made g) : Made (g.removeControl line)

variable {g h : Gate}

@[simp] theorem withControls_controls (cs : NatSet) (g : Gate) : (g.withControls cs).controls = cs := by
  cases g <;> rfl

@[simp] theorem withControls_targets (cs : NatSet) (g : Gate) : (g.withControls cs).targets = g.targets := by
  cases g <;> rfl

theorem Made.lines_nodup (made : Made g) : g.lines.Nodup := by
  induction made with
  | controlledNot run =>
    obtain ⟨apart, run⟩ := require_bind_eq_ok.mp run
    cases run
    exact lines_nodup_iff.mpr ⟨List.nodup_singleton _, List.forall_mem_singleton.mpr apart⟩
  | controlledSwap run =>
    obtain ⟨different, run⟩ := require_bind_eq_ok.mp run
    obtain ⟨apart, run⟩ := require_bind_eq_ok.mp run
    cases run
    refine lines_nodup_iff.mpr ⟨List.nodup_cons.mpr ⟨?_, List.nodup_singleton _⟩, ?_⟩
    · rwa [List.mem_singleton]
    · exact List.forall_mem_cons.mpr ⟨apart.1, List.forall_mem_singleton.mpr apart.2⟩
  | addControl _ run ih =>
    obtain ⟨targets, apart⟩ := lines_nodup_iff.mp ih
    obtain ⟨free, run⟩ := require_bind_eq_ok.mp run
    cases run
    refine lines_nodup_iff.mpr ⟨by rwa [withControls_targets], fun t target control => ?_⟩
    rw [withControls_targets] at target
    rw [withControls_controls, NatSet.mem_insert] at control
    rcases control with rfl | old
    · simp [hasTarget, target] at free
    · exact apart t target old
  | removeControl line _ ih =>
    obtain ⟨targets, apart⟩ := lines_nodup_iff.mp ih
    unfold Gate.removeControl
    refine lines_nodup_iff.mpr ⟨by rwa [withControls_targets], fun t target control => ?_⟩
    rw [withControls_targets] at target
    rw [withControls_controls, NatSet.mem_erase] at control
    exact apart t target control.1

/-- The gates that can be made are those with distinct lines. -/
theorem made_iff : Made g ↔ g.lines.Nodup := by
  refine ⟨Made.lines_nodup, fun distinct => ?_⟩
  obtain ⟨targets, apart⟩ := lines_nodup_iff.mp distinct
  cases g with
  | toffoli cs t =>
    have free : t ∉ cs := apart t (List.mem_singleton_self t)
    have run : controlledNot cs.toList t = .ok (toffoli cs t) := by
      unfold controlledNot
      rw [NatSet.ofList_toList, require_of free]
      rfl
    exact .controlledNot run
  | fredkin cs a b =>
    have different : a ≠ b := fun equal => (List.nodup_cons.mp targets).1 (equal ▸ List.mem_singleton_self b)
    have free : a ∉ cs ∧ b ∉ cs := ⟨apart a List.mem_cons_self, apart b (List.mem_cons_of_mem a List.mem_cons_self)⟩
    have run : controlledSwap cs.toList a b = .ok (fredkin cs a b) := by
      unfold controlledSwap
      rw [NatSet.ofList_toList, require_of different, ok_bind, require_of free]
      rfl
    exact .controlledSwap run

/-- The lines of a gate are below `n`, and they are distinct if they have to be. -/
structure Proper (distinct : Prop) (n : Nat) (g : Gate) : Prop where
  inside : ∀ line ∈ g.lines, line < n
  apart : distinct → g.lines.Nodup

namespace Proper

variable {distinct : Prop} {n k : Nat} {m : Nat → Nat}

theorem of_maxLine (apart : distinct → g.lines.Nodup) (inside : g.maxLine < n) : g.Proper distinct n :=
  ⟨fun _ touched => (le_maxLine touched).trans_lt inside, apart⟩

theorem wellFormed (proper : g.Proper distinct n) (needed : distinct) : g.WellFormed n :=
  ⟨proper.apart needed, proper.inside⟩

theorem mono (proper : g.Proper distinct n) (wider : n ≤ k) : g.Proper distinct k :=
  ⟨fun line touched => (proper.inside line touched).trans_le wider, proper.apart⟩

theorem rename (proper : g.Proper distinct n) (injective : Set.InjOn m {line | line ∈ g.lines})
    (bound : ∀ line ∈ g.lines, m line < k) : (g.rename m).Proper distinct k := by
  refine ⟨fun line touched => ?_, fun needed => ((proper.wellFormed needed).rename injective bound).1⟩
  obtain ⟨old, inOld, rfl⟩ := mem_rename_lines.mp touched
  exact bound old inOld

end Proper

end Gate

namespace Circuit

section

variable (given : Gate → Prop)

/-- The circuits that edits lead to if all gates that are added are among those `given`, and two lines are merged only
if no gate touches both. Nothing else is asked of what the edits are given. Beside each circuit stands what surrounds
its lines, as four lists that every edit changes one by one. -/
inductive Built : Circuit → Columns → Prop
  | blank (lines : Nat) : Built (blank lines) (.fresh lines)
  | ofGates {lines gates c} (allowed : ∀ g ∈ gates, given g) (run : ofGates lines gates = .ok c) :
      Built c (.fresh lines)
  | append {c d k g} (built : Built c k) (allowed : given g) (run : c.append g = .ok d) : Built d k
  | prepend {c d k g} (built : Built c k) (allowed : given g) (run : c.prepend g = .ok d) : Built d k
  | insert {c d k g i} (built : Built c k) (allowed : given g) (run : c.insert i g = .ok d) : Built d k
  | removeGate {c d k g i} (built : Built c k) (run : c.removeGate i = .ok (g, d)) : Built d k
  | appendCircuit {c d e k l} (built : Built c k) (other : Built e l) (run : c.appendCircuit e = .ok d) : Built d k
  | insertCircuit {c d e k l i} (built : Built c k) (other : Built e l) (run : c.insertCircuit i e = .ok d) : Built d k
  | splice {c d e k l offset count} (built : Built c k) (other : Built e l) (run : c.splice offset count e = .ok d) :
      Built d k
  | subcircuit {c d k start stop} (built : Built c k) (run : c.subcircuit start stop = .ok d) : Built d k
  /-- A filter may remember the gates that it has seen, so any gates can be left. -/
  | retain {c k gates} (built : Built c k) (kept : gates.Sublist c.gates) : Built { c with gates } k
  | setInputs {c d k names} (built : Built c k) (run : c.setInputs names = .ok d) : Built d { k with inputs := names }
  | setOutputs {c d k names} (built : Built c k) (run : c.setOutputs names = .ok d) :
      Built d { k with outputs := names }
  | setConstants {c d k values} (built : Built c k) (run : c.setConstants values = .ok d) :
      Built d { k with constants := values }
  | setGarbage {c d k flags} (built : Built c k) (run : c.setGarbage flags = .ok d) :
      Built d { k with garbage := flags }
  | setInput {c d k line name} (built : Built c k) (run : c.modifyWire line ({ · with input := name }) = .ok d) :
      Built d { k with inputs := k.inputs.set line name }
  | setOutput {c d k line name} (built : Built c k) (run : c.modifyWire line ({ · with output := name }) = .ok d) :
      Built d { k with outputs := k.outputs.set line name }
  | setConstant {c d k line constant} (built : Built c k) (run : c.modifyWire line ({ · with constant }) = .ok d) :
      Built d { k with constants := k.constants.set line constant }
  | setGarbageLine {c d k line garbage} (built : Built c k) (run : c.modifyWire line ({ · with garbage }) = .ok d) :
      Built d { k with garbage := k.garbage.set line garbage }
  | addLine {c k} (built : Built c k) (w : Wire) : Built (c.addLine w) (k.push w)
  | dropLine {c d k line} (built : Built c k) (run : c.dropLine line = .ok d) : Built d (k.erase line)
  | mergeLine {c d k removed kept} (built : Built c k) (apart : ∀ g ∈ c.gates, removed ∉ g.lines ∨ kept ∉ g.lines)
      (run : c.mergeLine removed kept = .ok d) : Built d ((k.handOver removed kept).erase removed)
  | window {c k w} (built : Built c k) (window : c.HasWindow w) : Built w.circuit (k.pick w.filter)
  | expand {c d e k l w} (built : Built c k) (window : c.HasWindow w) (other : Built e l) (run : w.expand e = .ok d) :
      Built d (.fresh c.lines)
  | replaceWindow {b c d e k l m w} (built : Built c k) (parent : Built b l) (window : b.HasWindow w)
      (other : Built e m) (run : c.replaceWindow w e = .ok d) : Built d k

end

/-- The lists are those of the wires, and the gates are proper. -/
structure Matches (distinct : Prop) (c : Circuit) (k : Columns) : Prop where
  columns : c.columns = k
  proper : ∀ g ∈ c.gates, g.Proper distinct c.lines

namespace Matches

variable {distinct : Prop} {b c d e : Circuit} {k l : Columns} {g : Gate} {w : Window}
  {i offset count start stop line removed kept : Nat}

theorem formed (fits : c.Matches distinct k) (needed : distinct) : c.WellFormed :=
  fun g member => (fits.proper g member).wellFormed needed

theorem within (fits : c.Matches distinct k) : Within c.lines c.gates := fun g member => (fits.proper g member).inside

theorem withGates (fits : c.Matches distinct k) {gates : List Gate} (proper : ∀ g ∈ gates, g.Proper distinct c.lines) :
    Matches distinct { c with gates } k := ⟨fits.columns, proper⟩

theorem retain (fits : c.Matches distinct k) {gates : List Gate} (kept : ∀ g ∈ gates, g ∈ c.gates) :
    Matches distinct { c with gates } k := fits.withGates fun g member => fits.proper g (kept g member)

theorem blank (lines : Nat) : Matches distinct (blank lines) (.fresh lines) := ⟨columns_blank lines, nofun⟩

theorem ofGates {lines : Nat} {gates : List Gate} (apart : distinct → ∀ g ∈ gates, g.lines.Nodup)
    (run : ofGates lines gates = .ok c) : c.Matches distinct (.fresh lines) := by
  obtain ⟨_, inside, run⟩ := bind_eq_ok.mp run
  cases run
  refine (Matches.blank lines).withGates fun g member => .of_maxLine (fun needed => apart needed g member) ?_
  rw [lines_blank]
  exact require_eq_ok.mp (of_forM_eq_ok inside g member)

theorem insert (fits : c.Matches distinct k) (apart : distinct → g.lines.Nodup) (run : c.insert i g = .ok d) :
    d.Matches distinct k := by
  obtain ⟨inside, run⟩ := require_bind_eq_ok.mp run
  obtain ⟨bound, run⟩ := require_bind_eq_ok.mp run
  cases run
  refine fits.withGates fun h member => ?_
  rcases (List.mem_insertIdx bound).mp member with rfl | old
  · exact .of_maxLine apart inside
  · exact fits.proper h old

theorem append (fits : c.Matches distinct k) (apart : distinct → g.lines.Nodup) (run : c.append g = .ok d) :
    d.Matches distinct k := by
  obtain ⟨inside, run⟩ := require_bind_eq_ok.mp run
  cases run
  exact fits.withGates (List.forall_mem_append.mpr
    ⟨fits.proper, List.forall_mem_singleton.mpr (.of_maxLine apart inside)⟩)

theorem removeGate (fits : c.Matches distinct k) (run : c.removeGate i = .ok (g, d)) : d.Matches distinct k := by
  obtain ⟨_, _, run⟩ := bind_eq_ok.mp run
  cases run
  exact fits.retain fun _ member => List.mem_of_mem_eraseIdx member

/-- Gates of a circuit on as many lines take the place of some of the gates. -/
theorem replaceGates (fits : c.Matches distinct k) (other : e.Matches distinct l) (lines : e.lines = c.lines)
    (run : c.replaceGates offset count e.gates = .ok d) : d.Matches distinct k := by
  obtain ⟨_, run⟩ := require_bind_eq_ok.mp run
  cases run
  have inserted : ∀ g ∈ e.gates, g.Proper distinct c.lines := lines ▸ other.proper
  refine fits.withGates (List.forall_mem_append.mpr ⟨List.forall_mem_append.mpr ⟨?_, inserted⟩, ?_⟩)
  · exact fun g before => fits.proper g (List.mem_of_mem_take before)
  · exact fun g after => fits.proper g (List.mem_of_mem_drop after)

theorem insertCircuit (fits : c.Matches distinct k) (other : e.Matches distinct l)
    (run : c.insertCircuit i e = .ok d) : d.Matches distinct k := by
  obtain ⟨lines, run⟩ := require_bind_eq_ok.mp run
  exact fits.replaceGates other lines run

theorem splice (fits : c.Matches distinct k) (other : e.Matches distinct l) (run : c.splice offset count e = .ok d) :
    d.Matches distinct k := by
  obtain ⟨lines, run⟩ := require_bind_eq_ok.mp run
  exact fits.replaceGates other lines run

theorem subcircuit (fits : c.Matches distinct k) (run : c.subcircuit start stop = .ok d) : d.Matches distinct k := by
  obtain ⟨gates, elements, run⟩ := bind_eq_ok.mp run
  obtain ⟨_, elements⟩ := require_bind_eq_ok.mp elements
  cases run
  cases elements
  exact fits.retain fun _ member => List.mem_of_mem_drop (List.mem_of_mem_take member)

theorem of_assignWires {α : Type} {f : Wire → α → Wire} {entries : List α} {mismatch : Fault}
    (run : c.assignWires f entries mismatch = .ok d) :
    entries.length = c.wires.length ∧ d = { c with wires := c.wires.zipWith f entries } := by
  obtain ⟨length, run⟩ := require_bind_eq_ok.mp run
  cases run
  exact ⟨length, rfl⟩

theorem of_modifyWire {f : Wire → Wire} (run : c.modifyWire line f = .ok d) :
    ∃ w, c.wires[line]? = some w ∧ d = { c with wires := c.wires.set line (f w) } := by
  obtain ⟨w, element, run⟩ := bind_eq_ok.mp run
  cases run
  unfold elementAt at element
  split at element
  · rename_i found
    cases element
    exact ⟨w, found, rfl⟩
  · cases element

/-- Other wires around the same gates. -/
theorem withWires (fits : c.Matches distinct k) {wires : List Wire} (length : wires.length = c.wires.length)
    (columns : Columns.ofWires wires = l) : Matches distinct { c with wires } l := by
  refine ⟨columns, fun g member => ?_⟩
  have lines : lines { c with wires } = c.lines := length
  exact lines ▸ fits.proper g member

theorem assigned (fits : c.Matches distinct k) {α : Type} {f : Wire → α → Wire} {entries : List α} {mismatch : Fault}
    (run : c.assignWires f entries mismatch = .ok d)
    (columns : entries.length = c.wires.length → Columns.ofWires (c.wires.zipWith f entries) = l) :
    d.Matches distinct l := by
  obtain ⟨length, rfl⟩ := of_assignWires run
  exact fits.withWires (by simp [length]) (columns length)

theorem modified (fits : c.Matches distinct k) {f : Wire → Wire} (run : c.modifyWire line f = .ok d)
    (columns : ∀ w, c.wires[line]? = some w → Columns.ofWires (c.wires.set line (f w)) = l) :
    d.Matches distinct l := by
  obtain ⟨w, found, rfl⟩ := of_modifyWire run
  exact fits.withWires List.length_set (columns w found)

theorem addLine (fits : c.Matches distinct k) (w : Wire) : (c.addLine w).Matches distinct (k.push w) := by
  obtain ⟨rfl, proper⟩ := fits
  refine ⟨Columns.ofWires_append c.wires w, fun g member => (proper g member).mono ?_⟩
  simp [Circuit.addLine, lines]

theorem dropLine (fits : c.Matches distinct k) (run : c.dropLine line = .ok d) : d.Matches distinct (k.erase line) := by
  obtain ⟨rfl, proper⟩ := fits
  obtain ⟨inside, untouched, rfl⟩ := of_dropLine run
  have contraction := closeGap_contraction inside
  have other := ne_of_untouched untouched
  refine ⟨columns_dropped inside, List.forall_mem_map.mpr fun g member => ?_⟩
  rw [dropped_lines inside]
  exact (proper g member).rename (contraction.injective.mono (other g member))
    fun l touched => contraction.bound l ((proper g member).inside l touched) (other g member l touched)

theorem mergeLine (fits : c.Matches distinct k) (apart : ∀ g ∈ c.gates, removed ∉ g.lines ∨ kept ∉ g.lines)
    (run : c.mergeLine removed kept = .ok d) : d.Matches distinct ((k.handOver removed kept).erase removed) := by
  obtain ⟨rfl, proper⟩ := fits
  obtain ⟨removedInside, keptInside, different, rfl⟩ := of_mergeLine run
  refine ⟨columns_merged removedInside, List.forall_mem_map.mpr fun g member => ?_⟩
  rw [merged_lines removedInside]
  exact (proper g member).rename (mergeTarget_injOn_lines (apart g member))
    fun l touched => mergeTarget_lt removedInside keptInside different ((proper g member).inside l touched)

theorem window (fits : c.Matches distinct k) (window : c.HasWindow w) :
    w.circuit.Matches distinct (k.pick w.filter) := by
  obtain ⟨rfl, proper⟩ := fits
  obtain ⟨start, stop, filter, extent, rfl⟩ := window.extent
  refine ⟨columns_filter extent.inside, List.forall_mem_map.mpr fun g member => ?_⟩
  rw [Extent.cut_lines]
  exact (proper g (mem_of_mem_between member)).rename (extent.injOn_cut g member)
    fun line touched => List.idxOf_lt_length_of_mem (extent.covers g member line touched)

/-- Gates on the lines of a window are proper gates on the lines of the circuit. -/
theorem lift (other : e.Matches distinct l) (placed : w.Placed) (lines : e.lines = w.filter.length) :
    ∀ g ∈ w.lift e.gates, g.Proper distinct w.parentLines := by
  refine List.forall_mem_map.mpr fun g member => ?_
  have proper : g.Proper distinct w.filter.length := lines ▸ other.proper g member
  exact proper.rename ((getD_injOn placed.distinct).mono proper.inside)
    fun i touched => placed.inside _ (getD_mem (proper.inside i touched))

theorem expand (window : c.HasWindow w) (other : e.Matches distinct l) (run : w.expand e = .ok d) :
    d.Matches distinct (.fresh c.lines) := by
  obtain ⟨start, stop, filter, extent, rfl⟩ := window.extent
  obtain ⟨lines, _, rfl⟩ := Window.of_expand run
  refine (Matches.blank c.lines).withGates ?_
  rw [lines_blank]
  exact other.lift extent.placed lines

theorem replaceWindow (fits : c.Matches distinct k) (window : b.HasWindow w) (other : e.Matches distinct l)
    (run : c.replaceWindow w e = .ok d) : d.Matches distinct k := by
  obtain ⟨parent, _⟩ := require_bind_eq_ok.mp run
  obtain ⟨lines, _, rfl⟩ := of_replaceWindow run
  obtain ⟨start, stop, filter, extent, rfl⟩ := window.extent
  exact fits.withGates (forall_mem_replaced fits.proper (parent ▸ other.lift extent.placed lines))

end Matches

variable {given : Gate → Prop} {c : Circuit} {k : Columns}

theorem Built.fits (built : Built given c k) : c.Matches (∀ g, given g → g.lines.Nodup) k := by
  induction built with
  | blank lines => exact .blank lines
  | ofGates allowed run => exact .ofGates (fun each g member => each g (allowed g member)) run
  | append _ allowed run ih => exact ih.append (fun each => each _ allowed) run
  | prepend _ allowed run ih => exact ih.insert (fun each => each _ allowed) run
  | insert _ allowed run ih => exact ih.insert (fun each => each _ allowed) run
  | removeGate _ run ih => exact ih.removeGate run
  | appendCircuit _ _ run ih other => exact ih.insertCircuit other run
  | insertCircuit _ _ run ih other => exact ih.insertCircuit other run
  | splice _ _ run ih other => exact ih.splice other run
  | subcircuit _ run ih => exact ih.subcircuit run
  | retain _ kept ih => exact ih.retain fun _ member => kept.subset member
  | setInputs _ run ih => exact ih.columns ▸ ih.assigned run Columns.ofWires_zipWith_input
  | setOutputs _ run ih => exact ih.columns ▸ ih.assigned run Columns.ofWires_zipWith_output
  | setConstants _ run ih => exact ih.columns ▸ ih.assigned run Columns.ofWires_zipWith_constant
  | setGarbage _ run ih => exact ih.columns ▸ ih.assigned run Columns.ofWires_zipWith_garbage
  | setInput _ run ih => exact ih.columns ▸ ih.modified run fun _ found => Columns.ofWires_set_input found _
  | setOutput _ run ih => exact ih.columns ▸ ih.modified run fun _ found => Columns.ofWires_set_output found _
  | setConstant _ run ih => exact ih.columns ▸ ih.modified run fun _ found => Columns.ofWires_set_constant found _
  | setGarbageLine _ run ih => exact ih.columns ▸ ih.modified run fun _ found => Columns.ofWires_set_garbage found _
  | addLine _ w ih => exact ih.addLine w
  | dropLine _ run ih => exact ih.dropLine run
  | mergeLine _ apart run ih => exact ih.mergeLine apart run
  | window _ window ih => exact ih.window window
  | expand _ window _ run _ other => exact .expand window other run
  | replaceWindow _ _ window _ run ih _ other => exact ih.replaceWindow window other run

/-- Whatever edits lead to a circuit, and whatever gates are added, its names, constants and flags stand in lists with
one entry per line, also if each list is edited by itself, and its gates are on lines of the circuit. If all gates that
are added have distinct lines, as those that can be made do, then so have all gates of the circuit. -/
theorem built_consistent (built : Built given c k) :
    k.Aligned ∧ k.lines = c.lines ∧ k = c.columns ∧ Within c.lines c.gates ∧
      ((∀ g, given g → g.lines.Nodup) → c.WellFormed) := by
  obtain rfl := built.fits.columns
  exact ⟨Columns.ofWires_aligned c.wires, rfl, rfl, built.fits.within, built.fits.formed⟩

/-- A line is added, used as a control and merged away again, and the first two gates are left out. All gates can be
made. -/
theorem built_consistent_merged : ∃ c k, Built Gate.Made c k ∧ c.gates = [.toffoli (NatSet.ofList [2]) 0] ∧
    k.outputs = ["f", "g", "z"] ∧ k.garbage = [false, false, true] ∧
      k.Aligned ∧ k.lines = c.lines ∧ k = c.columns ∧ Within c.lines c.gates ∧ c.WellFormed := by
  have made : ∀ g ∈ [Gate.toffoli (NatSet.ofList [0, 1]) 2, .fredkin .empty 0 1], Gate.Made g := by
    simp only [Gate.made_iff]
    decide
  have given : Built Gate.Made _ (.fresh 3) := .ofGates made rfl
  have named : Built _ _ _ := given.setOutputs (show Circuit.setOutputs _ ["f", "g", "h"] = .ok _ from rfl)
  have wider : Built _ _ _ := named.addLine ⟨"c", "z", some false, true⟩
  have longer : Built _ _ _ := wider.append (g := .toffoli (NatSet.ofList [3]) 0) (Gate.made_iff.mpr (by decide)) rfl
  have merged : Built _ _ _ := longer.mergeLine (by decide) (show Circuit.mergeLine _ 3 2 = .ok _ from rfl)
  have replaced : Built _ _ _ := merged.replaceWindow merged ⟨0, 2, [0, 1, 2], rfl⟩ (.blank 3) rfl
  obtain ⟨aligned, lines, columns, within, formed⟩ := built_consistent replaced
  exact ⟨_, _, replaced, rfl, rfl, rfl, aligned, lines, columns, within, formed fun _ => Gate.Made.lines_nodup⟩

/-- Nothing but distinct lines of the gates that are added makes all circuits well-formed. -/
theorem forall_built_wellFormed_iff :
    (∀ c k, Built given c k → c.WellFormed) ↔ ∀ g, given g → g.lines.Nodup := by
  refine ⟨fun formed g allowed => ?_, fun each c k built => built.fits.formed each⟩
  have inside : g.maxLine < (Circuit.blank (g.maxLine + 1)).lines := by
    rw [lines_blank]
    exact Nat.lt_succ_self _
  have run : (Circuit.blank (g.maxLine + 1)).append g = .ok { Circuit.blank (g.maxLine + 1) with gates := [g] } := by
    unfold append checkGate
    rw [require_of inside]
    rfl
  exact (formed _ _ ((Built.blank _).append allowed run) g (List.mem_singleton_self g)).1

/-- A gate that swaps a line with itself. -/
def idle : Circuit := { Circuit.blank 3 with gates := [.fredkin (NatSet.ofList [0]) 1 1] }

/-- Relabelling gives out a gate that cannot be made, and a gate is added by its largest line only. -/
theorem built_idle : Gate.Made (.fredkin (NatSet.ofList [0]) 1 2) ∧
    (Gate.fredkin (NatSet.ofList [0]) 1 2).relabel (fun line => pure (min line 1)) =
      .ok (.fredkin (NatSet.ofList [0]) 1 1) ∧
    (Circuit.blank 3).append (.fredkin (NatSet.ofList [0]) 1 1) = .ok idle ∧
    Built (fun _ => True) idle (.fresh 3) ∧ ¬idle.WellFormed := by
  have run : (Circuit.blank 3).append (.fredkin (NatSet.ofList [0]) 1 1) = .ok idle := rfl
  exact ⟨Gate.made_iff.mpr (by decide), rfl, run, (Built.blank 3).append trivial run, by decide⟩

end Circuit

end Reversible
