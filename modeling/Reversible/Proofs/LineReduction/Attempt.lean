import Reversible.Proofs.LineReduction.DeadLine
import Reversible.Proofs.LineReduction.Specification
import Reversible.Proofs.Synthesis.Realization

namespace Reversible

namespace Circuit

variable {c : Circuit} {limit line start stop : Nat} {filter : List Nat}

/-- Whether something reads what a line holds at a position: the line is an output, or a later gate touches it. -/
def Used (c : Circuit) (stop line : Nat) : Prop := c.garbage line = false ∨ ∃ g ∈ c.gates.drop stop, line ∈ g.lines

/-- What gates have to do in the place of a window, from whatever state an allowed assignment leads to. `line`
ends with a fixed value, and the other lines that are used end as they did. -/
def Serves (c : Circuit) (start stop line : Nat) (fixed : Bool) (gates : List Gate) : Prop :=
  ∀ σ, c.Allows σ → act gates (act (c.gates.take start) σ) line = fixed ∧
    ∀ l, l ≠ line → c.Used stop l →
      act gates (act (c.gates.take start) σ) l = act (c.between start stop) (act (c.gates.take start) σ) l

theorem length_lineRoles (c : Circuit) (w : Window) (line : Nat) (fixed : Bool) :
    (c.lineRoles w line fixed).length = w.filter.length := by
  simp [lineRoles]

theorem role_idxOf (w : Window) (fixed : Bool) {l : Nat} (member : l ∈ w.filter) :
    (c.lineRoles w line fixed).getD (w.filter.idxOf l) .dontCare =
      if l = line then .constant fixed
      else if !c.garbage l || (c.gates.drop w.stop).any (·.touches l) then .stillUsed
      else .dontCare := by
  unfold lineRoles
  rw [List.getD_eq_getElem?_getD, List.getElem?_map, List.getElem?_idxOf member]
  rfl

theorem entryOf_line (w : Window) (fixed : Bool) (output : Bits) (member : line ∈ w.filter) :
    entryOf (c.lineRoles w line fixed) output (w.filter.idxOf line) = some (some fixed) := by
  unfold entryOf
  rw [role_idxOf w fixed member, if_pos rfl]
  rfl

theorem entryOf_used (w : Window) (fixed : Bool) (output : Bits) {l : Nat} (member : l ∈ w.filter)
    (different : l ≠ line) (used : c.Used w.stop l) :
    entryOf (c.lineRoles w line fixed) output (w.filter.idxOf l) =
      some (some (output.testBit (w.filter.idxOf l))) := by
  have role : (!c.garbage l || (c.gates.drop w.stop).any (·.touches l)) = true := by
    rw [Bool.or_eq_true, List.any_eq_true]
    refine used.imp (fun read => by rw [read]; rfl) ?_
    exact fun ⟨g, later, touched⟩ => ⟨g, later, Gate.touches_iff.mpr touched⟩
  unfold entryOf
  rw [role_idxOf w fixed member, if_neg different, if_pos role]
  rfl

/-- A circuit for the table of a window serves in the place of the window. -/
theorem Extent.serves (extent : c.Extent start stop filter) (formed : c.WellFormed) (member : line ∈ filter)
    {fixed : Bool} {replacement : Circuit} (replacementFormed : replacement.WellFormed)
    (width : replacement.lines = filter.length) {states : NatSet} {table : TruthTable}
    (reached : ∀ σ, c.Allows σ → numberOf (filter.map (act (c.gates.take start) σ)) ∈ states)
    (specifies : (c.cut start stop filter).circuit.Specifies simulate
      (c.lineRoles (c.cut start stop filter) line fixed) states table)
    (realizes : replacement.RealizesTable table (LineRole.order (c.lineRoles (c.cut start stop filter) line fixed))) :
    c.Serves start stop line fixed ((c.cut start stop filter).lift replacement.gates) := by
  intro σ allowed
  obtain ⟨output, simulated, outputWidth, row⟩ := specifies _ (reached σ allowed)
  obtain ⟨out, rebuilt, entries⟩ := realizes _ row
  generalize act (c.gates.take start) σ = σ' at *
  have agree : ∀ i < filter.length, (numberOf (filter.map σ')).testBit i = σ' (filter.getD i 0) := fun i inside => by
    simp [testBit_numberOf, List.getD_eq_getElem?_getD, inside]
  generalize (numberOf (filter.map σ')).testBit = τ at *
  have lines : (c.cut start stop filter).circuit.lines = filter.length := cut_lines
  have bound : Circuit.Within filter.length replacement.gates := width ▸ replacementFormed.inside
  -- What the table asks for at a line of the window is what the replacement puts there.
  have asked : ∀ l ∈ filter, ∀ value,
      entryOf (c.lineRoles (c.cut start stop filter) line fixed) output (filter.idxOf l) = some (some value) →
        act ((c.cut start stop filter).lift replacement.gates) σ' l = value := by
    intro l own value entry
    have inside : filter.idxOf l < filter.length := List.idxOf_lt_length_of_mem own
    have roles := length_lineRoles c (c.cut start stop filter) line fixed
    have got := entries _ _ (mem_zip_rowCube (outputWidth.trans (lines.trans roles.symm)) (roles.symm ▸ inside) entry)
    have lifted := Window.act_lift extent.placed bound (fun i below => (agree i below).symm) inside
    rw [lines, ← width, simulate_pack replacementFormed] at rebuilt
    cases rebuilt
    rw [Bits.get_pack (width.symm ▸ inside)] at got
    rw [cut_filter, getD_idxOf own] at lifted
    exact lifted.trans (Except.ok.inj got)
  refine ⟨asked line member fixed (entryOf_line _ fixed output member), fun l different used => ?_⟩
  by_cases own : l ∈ filter
  · have inside : filter.idxOf l < filter.length := List.idxOf_lt_length_of_mem own
    refine (asked l own _ (entryOf_used _ fixed output own different ?_)).trans ?_
    · rw [extent.cut_stop]
      exact used
    · rw [simulate_pack (extent.cut_wellFormed formed)] at simulated
      cases simulated
      rw [cut_filter, Bits.testBit_pack_of_lt (lines.symm ▸ inside), extent.act_cut agree inside,
        getD_idxOf own]
  · rw [Window.act_lift_outside bound σ' own]
    exact (act_untouched (fun g inWindow touched => own (extent.covers g inWindow l touched)) σ').symm

theorem replaced_apart {late : Nat} (behind : c.Behind limit line start stop filter)
    (found : c.lateConstant? line stop = some late) {gates : List Gate}
    (bound : Circuit.Within filter.length gates) :
    (∀ g ∈ c.gates.take start ++ (c.cut start stop filter).lift gates, late ∉ g.lines) ∧
      ∀ g ∈ (c.replaced (c.cut start stop filter) gates).gates, late ∉ g.lines ∨ line ∉ g.lines := by
  have early : ∀ g ∈ c.gates.take start ++ (c.cut start stop filter).lift gates, late ∉ g.lines := by
    intro g member touched
    rcases List.mem_append.mp member with before | lifted
    · have earlier := List.take_subset_take_left _ behind.order before
      exact (lateConstant?_spec found).2.2.2 g earlier touched
    · exact behind.not_mem found (Window.mem_lift_lines (w := c.cut start stop filter) bound lifted touched)
  refine ⟨early, fun g member => ?_⟩
  rcases List.mem_append.mp member with first | later
  · exact Or.inl (early g first)
  · rw [behind.cut_stop] at later
    exact Or.inr (behind.last g later)

end Circuit

namespace LineReduction

open Circuit

/-- Every enumeration fits a word, and neither simulation nor synthesis fails. -/
structure Runnable (r : LineReduction) : Prop where
  windows : r.windowLines ≤ 63
  grown : r.growLimit ≤ 63
  enumerable : r.variableLimit ≤ 64
  preserving : r.simulator.WidthPreserving
  proper : r.synthesizer.Proper

/-- The circuit with gates in the place of a window, behind which `line` continues as `late`. -/
def continued (c : Circuit) (start stop : Nat) (filter : List Nat) (late line : Nat) (gates : List Gate) : Circuit :=
  (c.replaced (c.cut start stop filter) gates).merged late line

def continuedOrigin (origin : List Nat) (late line : Nat) : List Nat :=
  (origin.set line (origin.getD late late)).eraseIdx late

/-- All that can come of a garbage line. -/
inductive Outcome (r : LineReduction) (s : State) (line : Nat) : Attempt → Prop
  | dropped (dead : s.circuit.isDead line = true) :
      Outcome r s line (.reduced (withoutDead s.circuit line) (s.origin.eraseIdx line))
  | merged {start stop late : Nat} {filter : List Nat} {fixed : Bool} {replacement : Circuit}
      (behind : s.circuit.Behind s.bound line start stop filter)
      (found : s.circuit.lateConstant? line stop = some late) (constant : s.circuit.constant late = some fixed)
      (formed : replacement.WellFormed) (width : replacement.lines = filter.length)
      (serves : r.simulator = simulate → r.synthesizer.Realizing →
        s.circuit.Serves start stop line fixed ((s.circuit.cut start stop filter).lift replacement.gates)) :
      Outcome r s line (.reduced (continued s.circuit start stop filter late line replacement.gates)
        (continuedOrigin s.origin late line))
  | retry (room : s.bound < r.growLimit) : Outcome r s line .retry
  | unreducible (reason : SkipReason) : Outcome r s line (.unreducible reason)

variable {r : LineReduction} {s : State} {line start stop late : Nat} {filter : List Nat}

theorem growOrSkip_outcome (reason : SkipReason) : Outcome r s line (r.growOrSkip s.bound reason) := by
  unfold growOrSkip
  split
  · rename_i room
    exact .retry room
  · exact .unreducible reason

theorem mergeInto_eq_ok (formed : s.circuit.WellFormed) (inside : line < s.circuit.lines)
    (behind : s.circuit.Behind s.bound line start stop filter)
    (found : s.circuit.lateConstant? line stop = some late) {replacement : Circuit}
    (replacementFormed : replacement.WellFormed) (width : replacement.lines = filter.length) :
    mergeInto s (s.circuit.cut start stop filter) replacement late line =
      .ok (.reduced (continued s.circuit start stop filter late line replacement.gates)
        (continuedOrigin s.origin late line)) := by
  obtain ⟨lateInside, different, _, _⟩ := lateConstant?_spec found
  have within : (s.circuit.cut start stop filter).stop ≤ s.circuit.size := by
    rw [behind.cut_stop]
    exact behind.bound
  have gatesFormed : ∀ g ∈ replacement.gates, g.WellFormed filter.length := width ▸ replacementFormed
  have rewritten := replaced_wellFormed formed behind.placed rfl gatesFormed
  have apart := (replaced_apart behind found fun g member => (gatesFormed g member).2).2
  unfold mergeInto
  rw [replaceWindow_eq_replaced behind.placed rfl within (fun g member => (gatesFormed g member).fits) width, ok_bind,
    mergeLine_eq_merged rewritten lateInside inside different apart]
  rfl

theorem attemptWindow_spec (runnable : r.Runnable) (formed : s.circuit.WellFormed) (narrow : s.bound ≤ 63)
    (inside : line < s.circuit.lines) (behind : s.circuit.Behind s.bound line start stop filter)
    (found : s.circuit.lateConstant? line stop = some late) :
    ∃ result events, r.attemptWindow s (s.circuit.cut start stop filter) line late = .ok (result, events) ∧
      Outcome r s line result := by
  obtain ⟨fixed, constant⟩ := Option.isSome_iff_exists.mp (lateConstant?_spec found).2.2.1
  have few : filter.length ≤ 63 := behind.narrow.trans (by omega)
  have extent := behind.toExtent
  have enumerable := runnable.enumerable
  obtain ⟨reached, reaches, _, states⟩ := reachable_spec r runnable.preserving formed extent few (by omega)
  unfold attemptWindow
  rw [constant, Option.getD_some]
  simp only
  rw [reaches, ok_bind]
  cases reached with
  | error free => exact ⟨_, _, rfl, growOrSkip_outcome _⟩
  | ok inputs =>
    obtain ⟨bounded, members⟩ := states inputs rfl
    have lines : (s.circuit.cut start stop filter).circuit.lines = filter.length := Extent.cut_lines
    obtain ⟨specified, specifies, tables⟩ := specification_spec (extent.cut_wellFormed formed) runnable.preserving
      (lines ▸ few) ((length_lineRoles s.circuit (s.circuit.cut start stop filter) line fixed).trans lines.symm)
      (lines ▸ bounded)
    simp only
    rw [specifies, ok_bind]
    cases specified with
    | none => exact ⟨_, _, rfl, growOrSkip_outcome _⟩
    | some table =>
      obtain ⟨tableFormed, tableInputs, ordered, rows⟩ := tables table rfl
      obtain ⟨synthesis, synthesizes, circuits⟩ := runnable.proper table _ tableFormed ordered
      simp only
      rw [synthesizes, ok_bind]
      cases outcome : synthesis.outcome with
      | error reason => exact ⟨_, _, rfl, .unreducible _⟩
      | ok replacement =>
        have replacementFormed := circuits replacement outcome
        have onWindow : (s.circuit.cut start stop filter).lines = filter.length := lines
        by_cases width : replacement.lines = filter.length
        · have serves := fun (simulates : r.simulator = simulate) (realizing : r.synthesizer.Realizing) =>
            extent.serves formed behind.member replacementFormed width
              (fun σ allowed => (members simulates _).mpr ⟨σ, allowed, rfl⟩) (simulates ▸ rows)
              (realizing.2 table _ synthesis replacement tableFormed ordered synthesizes outcome
                (width.trans (lines.symm.trans tableInputs.symm)))
          refine ⟨_,
            synthesis.events ++ [.lineMerged (s.circuit.cut start stop filter).size replacement.size late line], ?_,
            .merged behind found constant replacementFormed width serves⟩
          simp only
          rw [if_pos (width.trans onWindow.symm), mergeInto_eq_ok formed inside behind found replacementFormed width]
          rfl
        · refine ⟨_, synthesis.events ++ [.lineMisfit line replacement.lines (s.circuit.cut start stop filter).lines],
            ?_, .unreducible .synthesisFailed⟩
          simp only
          rw [if_neg fun same => width (same.trans onWindow)]
          rfl

/-- An attempt never fails. -/
theorem attempt_spec (runnable : r.Runnable) (formed : s.circuit.WellFormed) (narrow : s.bound ≤ 63)
    (inside : line < s.circuit.lines) :
    ∃ result events, r.attempt s line = .ok (result, events) ∧ Outcome r s line result := by
  unfold attempt
  by_cases dead : s.circuit.isDead line = true
  · refine ⟨_, [.deadLineDropped line], ?_, .dropped dead⟩
    rw [if_pos dead, dropLine_eq_withoutDead formed dead]
    rfl
  · obtain ⟨start, stop, filter, window, behind⟩ := windowBehind_spec formed s.bound inside
    rw [if_neg dead]
    simp only
    rw [window, ok_bind, behind.cut_stop]
    cases found : s.circuit.lateConstant? line stop with
    | none => exact ⟨_, _, rfl, .unreducible _⟩
    | some late =>
      obtain ⟨result, events, tried, outcome⟩ := attemptWindow_spec runnable formed narrow inside behind found
      simp only
      rw [tried]
      exact ⟨_, _, rfl, outcome⟩

end LineReduction

end Reversible
