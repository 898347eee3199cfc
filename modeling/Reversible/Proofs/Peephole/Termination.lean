import Reversible.Proofs.Cost
import Reversible.Proofs.Peephole.Selection

namespace Reversible

/-- A replacement may refuse a well-formed circuit, but it never fails, and what it proposes is well-formed. -/
def Replacement.Proper (replacement : Replacement) : Prop :=
  ∀ c, c.WellFormed → ∃ synthesis, replacement c = .ok synthesis ∧
    ∀ candidate, synthesis.outcome = .ok candidate → candidate.WellFormed

/-- With each window the potential of a selector and its circuit drops, also if the circuit loses gates in between. When
no window is left the selector is back at `rest`. -/
structure Selector.Descends {σ : Type} (select : Selector σ) (ready : σ → Circuit → Prop)
    (potential : σ → Circuit → Nat) (rest : σ) : Prop where
  next : ∀ {s c w d}, ready s c → (select s c).window = .ok (some w) → d.lines = c.lines → d.size ≤ c.size →
    ready (select s c).state d ∧ potential (select s c).state d < potential s c
  done : ∀ {s c}, ready s c → (select s c).window = .ok none → (select s c).state = rest
  answers : ∀ {s c}, ready s c → c.WellFormed → ∃ window?, (select s c).window = .ok window?

namespace CostModel

theorem gateCount_total (lines : Nat) (gates : List Gate) : gateCount.total lines gates = gates.length := by
  induction gates with
  | nil => rfl
  | cons g rest ih =>
    have one : gateCount.price lines g = 1 := rfl
    rw [total_cons, ih, one, List.length_cons, Nat.add_comm]

theorem gateCount_circuitCost (c : Circuit) :
    ∃ cost, gateCount.circuitCost c = .ok cost ∧ cost.toNat = min c.size (UInt64.size - 1) := by
  have summing : gateCount.Summing := rfl
  have priced : gateCount.Prices c.lines c.gates := fun _ _ => ⟨1, rfl⟩
  obtain ⟨cost, run, value⟩ := summing.circuitCost_of_prices priced
  rw [gateCount_total] at value
  exact ⟨cost, run, value⟩

end CostModel

namespace Peephole

open CostModel

variable {σ : Type} {o : Peephole σ} {s t : State σ} {c d : Circuit} {w : Window} {candidate : Circuit}
  {old new : UInt64}

/-- A replacement that is accepted has fewer gates than the window. -/
theorem Accepts.size_lt (accepts : o.Accepts c w candidate old new d) (model : o.cost = gateCount) :
    candidate.size < w.size := by
  obtain ⟨_, _, oldCost, newCost, cheaper, _⟩ := accepts
  rw [model] at oldCost newCost
  obtain ⟨oldGates, oldRun, oldValue⟩ := gateCount_circuitCost w.circuit
  obtain ⟨newGates, newRun, newValue⟩ := gateCount_circuitCost candidate
  cases oldCost.symm.trans oldRun
  cases newCost.symm.trans newRun
  have less := UInt64.lt_iff_toNat_lt.mp cheaper
  unfold Window.size
  omega

theorem Accepts.shrinks (accepts : o.Accepts c w candidate old new d) (window : c.HasWindow w)
    (model : o.cost = gateCount) : d.lines = c.lines ∧ d.size ≤ c.size := by
  have fewer := accepts.size_lt model
  obtain ⟨start, stop, filter, extent, rfl⟩ := window.extent
  obtain ⟨_, _, rfl⟩ := Circuit.of_replaceWindow accepts.placed
  rw [extent.cut_size] at fewer
  have order := extent.order
  have bound := extent.bound
  refine ⟨rfl, ?_⟩
  unfold Circuit.size at fewer bound ⊢
  rw [extent.replaced_gates, List.length_append, List.length_append, List.length_take, List.length_drop, Window.lift,
    List.length_map]
  omega

theorem accept_selector (run : o.accept s w candidate = .ok t) :
    t.selector = s.selector ∧ t.report.considered = s.report.considered := by
  unfold accept at run
  split at run
  · cases run
    exact ⟨rfl, rfl⟩
  · obtain ⟨_, _, run⟩ := bind_eq_ok.mp run
    obtain ⟨_, _, run⟩ := bind_eq_ok.mp run
    split at run
    · obtain ⟨_, _, run⟩ := bind_eq_ok.mp run
      cases run
      exact ⟨rfl, rfl⟩
    · cases run
      exact ⟨rfl, rfl⟩

theorem visit_selector (run : o.visit s w = .ok t) :
    t.selector = s.selector ∧ t.report.considered = s.report.considered + 1 := by
  unfold visit at run
  obtain ⟨synthesis, _, run⟩ := bind_eq_ok.mp run
  cases outcome : synthesis.outcome with
  | error reason =>
    simp only [outcome] at run
    cases run
    exact ⟨rfl, rfl⟩
  | ok candidate =>
    simp only [outcome] at run
    exact accept_selector run

theorem visit_shrinks (run : o.visit s w = .ok t) (window : s.circuit.HasWindow w) (model : o.cost = gateCount) :
    t.circuit.lines = s.circuit.lines ∧ t.circuit.size ≤ s.circuit.size := by
  rcases visit_spec run with ⟨circuit, _⟩ | ⟨candidate, old, new, accepts, _⟩
  · rw [circuit]
    exact ⟨rfl, Nat.le_refl _⟩
  · exact accepts.shrinks window model

variable {ready : σ → Circuit → Prop} {potential : σ → Circuit → Nat} {rest : σ}

/-- Each step either ends the run with the selector at rest, or it deals with one window and lowers the potential. -/
theorem step_descends {more : Bool} (run : o.step s = .ok (t, more)) (faithful : o.select.Faithful)
    (model : o.cost = gateCount) (descends : o.select.Descends ready potential rest)
    (isReady : ready s.selector s.circuit) :
    (more = false ∧ t.selector = rest ∧ t.report.considered = s.report.considered) ∨
      (more = true ∧ ready t.selector t.circuit ∧ t.report.considered = s.report.considered + 1 ∧
        potential t.selector t.circuit < potential s.selector s.circuit) := by
  unfold step at run
  obtain ⟨window?, selected, run⟩ := bind_eq_ok.mp run
  cases window? with
  | none =>
    cases run
    exact Or.inl ⟨rfl, descends.done isReady selected, rfl⟩
  | some w =>
    obtain ⟨after, visited, run⟩ := bind_eq_ok.mp run
    cases run
    obtain ⟨selector, considered⟩ := visit_selector visited
    obtain ⟨lines, size⟩ := visit_shrinks visited (faithful _ _ _ selected) model
    obtain ⟨readyAfter, less⟩ := descends.next isReady selected lines size
    have moved : t.selector = (o.select s.selector s.circuit).state := selector
    rw [← moved] at readyAfter less
    exact Or.inr ⟨rfl, readyAfter, considered, less⟩

theorem exists_accept (formed : s.circuit.WellFormed) (window : s.circuit.HasWindow w) (model : o.cost = gateCount)
    (proposed : candidate.WellFormed) : ∃ t, o.accept s w candidate = .ok t ∧ t.circuit.WellFormed := by
  obtain ⟨old, oldRun, _⟩ := gateCount_circuitCost w.circuit
  obtain ⟨new, newRun, _⟩ := gateCount_circuitCost candidate
  obtain ⟨start, stop, filter, extent, rfl⟩ := window.extent
  unfold accept
  rw [model, oldRun, newRun]
  by_cases width : candidate.lines = (s.circuit.cut start stop filter).lines
  · rw [if_neg (not_not.mpr width), ok_bind, ok_bind]
    have lines : candidate.lines = filter.length := width.trans Circuit.Extent.cut_lines
    have bound : (s.circuit.cut start stop filter).stop ≤ s.circuit.size := extent.cut_stop.trans_le extent.bound
    have gatesFormed : ∀ g ∈ candidate.gates, g.WellFormed filter.length := lines ▸ proposed
    have fits : ∀ g ∈ candidate.gates, g.Fits filter.length := fun g member => (gatesFormed g member).fits
    have put := Circuit.replaceWindow_eq_replaced extent.placed rfl bound fits lines
    have putFormed := Circuit.replaced_wellFormed formed extent.placed rfl gatesFormed
    by_cases cheaper : new < old
    · rw [if_pos cheaper, put]
      exact ⟨_, rfl, putFormed⟩
    · rw [if_neg cheaper]
      exact ⟨_, rfl, formed⟩
  · rw [if_pos width]
    exact ⟨_, rfl, formed⟩

/-- A window of a well-formed circuit is dealt with, and the circuit stays well-formed. -/
theorem exists_visit (formed : s.circuit.WellFormed) (window : s.circuit.HasWindow w) (model : o.cost = gateCount)
    (proper : o.replacement.Proper) : ∃ t, o.visit s w = .ok t ∧ t.circuit.WellFormed := by
  have windowFormed : w.circuit.WellFormed := by
    obtain ⟨start, stop, filter, extent, rfl⟩ := window.extent
    exact extent.cut_wellFormed formed
  obtain ⟨synthesis, replaced, built⟩ := proper _ windowFormed
  unfold visit
  simp only [replaced, ok_bind]
  cases outcome : synthesis.outcome with
  | error reason => exact ⟨_, rfl, formed⟩
  | ok candidate => exact exists_accept formed window model (built candidate outcome)

theorem exists_step (formed : s.circuit.WellFormed) (faithful : o.select.Faithful) (model : o.cost = gateCount)
    (proper : o.replacement.Proper) (answers : ∃ window?, (o.select s.selector s.circuit).window = .ok window?) :
    ∃ t more, o.step s = .ok (t, more) ∧ t.circuit.WellFormed := by
  obtain ⟨window?, selected⟩ := answers
  unfold step
  simp only [selected, ok_bind]
  cases window? with
  | none => exact ⟨_, _, rfl, formed⟩
  | some w =>
    let selection := o.select s.selector s.circuit
    obtain ⟨t, visited, formedAfter⟩ := exists_visit (o := o) (w := w)
      (s := { s with selector := selection.state, report.events := s.report.events ++ selection.events })
      formed (faithful _ _ _ selected) model proper
    exact ⟨t, true, bind_eq_ok.mpr ⟨t, visited, rfl⟩, formedAfter⟩

section

variable (faithful : o.select.Faithful) (model : o.cost = gateCount)
  (descends : o.select.Descends ready potential rest)

include faithful model descends

theorem steps_considered {n : Nat} (isReady : ready s.selector s.circuit) (run : o.steps n s = .ok (some t)) :
    t.report.considered ≤ s.report.considered + potential s.selector s.circuit ∧ t.selector = rest := by
  induction n generalizing s with
  | zero => cases run
  | succ n ih =>
    unfold steps at run
    obtain ⟨⟨next, more⟩, stepped, run⟩ := bind_eq_ok.mp run
    rcases step_descends stepped faithful model descends isReady with
      ⟨rfl, selector, considered⟩ | ⟨rfl, readyAfter, considered, less⟩
    · cases run
      exact ⟨by omega, selector⟩
    · obtain ⟨bound, selector⟩ := ih readyAfter run
      exact ⟨by omega, selector⟩

theorem steps_ne_none {n : Nat} (isReady : ready s.selector s.circuit)
    (enough : potential s.selector s.circuit < n) : o.steps n s ≠ .ok none := by
  induction n generalizing s with
  | zero => exact absurd enough (Nat.not_lt_zero _)
  | succ n ih =>
    intro run
    unfold steps at run
    obtain ⟨⟨next, more⟩, stepped, run⟩ := bind_eq_ok.mp run
    rcases step_descends stepped faithful model descends isReady with ⟨rfl, _, _⟩ | ⟨rfl, readyAfter, _, less⟩
    · cases run
    · exact ih readyAfter (by omega) run

theorem exists_steps {n : Nat} (isReady : ready s.selector s.circuit) (enough : potential s.selector s.circuit < n)
    (proper : o.replacement.Proper) (formed : s.circuit.WellFormed) : ∃ t, o.steps n s = .ok (some t) := by
  induction n generalizing s with
  | zero => exact absurd enough (Nat.not_lt_zero _)
  | succ n ih =>
    obtain ⟨next, more, stepped, formedAfter⟩ :=
      exists_step formed faithful model proper (descends.answers isReady formed)
    unfold steps
    rw [stepped]
    rcases step_descends stepped faithful model descends isReady with ⟨rfl, _, _⟩ | ⟨rfl, readyAfter, _, less⟩
    · exact ⟨next, rfl⟩
    · exact ih readyAfter (by omega) formedAfter

end

end Peephole

namespace Sliding

/-- How many windows are left. -/
def potential (s : Sliding) (c : Circuit) : Nat := (c.size - s.position + s.offset - 1) / s.offset

/-- The position may be any, but none that can follow overflows. -/
structure Ready (length offset : Nat) (s : Sliding) (c : Circuit) : Prop where
  ofLength : s.length = length
  ofOffset : s.offset = offset
  room : offset + c.size < UInt64.size

theorem potential_lt {s : Sliding} {c d : Circuit} (moving : 0 < s.offset) (within : s.position < c.size)
    (size : d.size ≤ c.size) : potential { s with position := s.position + s.offset } d < potential s c := by
  unfold potential
  simp only
  rcases Nat.le_total d.size (s.position + s.offset) with past | more
  · have none : (d.size - (s.position + s.offset) + s.offset - 1) / s.offset = 0 := Nat.div_eq_of_lt (by omega)
    have one : 0 < (c.size - s.position + s.offset - 1) / s.offset := Nat.div_pos (by omega) moving
    omega
  · have left : d.size - (s.position + s.offset) + s.offset - 1 + s.offset ≤ c.size - s.position + s.offset - 1 := by
      omega
    have bound := Nat.div_le_div_right (c := s.offset) left
    rw [Nat.add_div_right _ moving] at bound
    exact bound

theorem select_descends {length offset : Nat} (long : 0 < length) (moving : 0 < offset) :
    Selector.Descends select (Ready length offset) potential { length, offset } where
  next := by
    intro s c w d ready selected _ size
    obtain ⟨rfl, rfl, room⟩ := ready
    rcases select_cases selected with ⟨none, _⟩ | ⟨_, _, state, within, _⟩
    · cases none
    · rw [state]
      exact ⟨⟨rfl, rfl, by omega⟩, potential_lt moving within size⟩
  done := by
    intro s c ready selected
    obtain ⟨rfl, rfl, _⟩ := ready
    rcases select_cases selected with ⟨_, state⟩ | ⟨_, some, _⟩
    · exact state
    · cases some
  answers := by
    intro s c ready formed
    obtain ⟨rfl, rfl, room⟩ := ready
    exact exists_select formed long moving room

theorem potential_start (length offset : Nat) (c : Circuit) :
    potential { length, offset } c = (c.size + offset - 1) / offset := rfl

end Sliding

namespace Growing

/-- The gates that are left on this level, and all gates once for each level above it. -/
def potential (s : Growing) (c : Circuit) : Nat := c.size - s.position + (c.lines - 1 - s.level) * c.size

variable {s : Growing} {c d : Circuit} {w : Window}

theorem potential_lt_of_run {selection : Selection Growing} (run : s.runOnLevel? c = some selection)
    (lines : d.lines = c.lines) (size : d.size ≤ c.size) : potential selection.state d < potential s c := by
  obtain ⟨stop, state, moved, inside⟩ := runOnLevel?_moves run
  have above := Nat.mul_le_mul_left (c.lines - 1 - s.level) size
  unfold potential
  rw [state, lines]
  simp only
  omega

theorem potential_raised {t : Growing} (start : t.position = 0) (above : s.level < t.level)
    (below : t.level ≤ c.lines - 1) : potential t c ≤ potential s c := by
  have levels := Nat.mul_le_mul_right c.size (show c.lines - 1 - t.level + 1 ≤ c.lines - 1 - s.level by omega)
  rw [Nat.succ_mul] at levels
  unfold potential
  omega

theorem select_descends : Selector.Descends select (fun _ _ => True) potential {} where
  next := by
    intro s c w d _ selected lines size
    rcases select_cases s c with ⟨t, selection, raised, run, _, state⟩ | ⟨window, _⟩
    · have less := potential_lt_of_run run lines size
      rw [← state] at less
      rcases raised with rfl | ⟨start, above, below⟩
      · exact ⟨trivial, less⟩
      · exact ⟨trivial, less.trans_le (potential_raised start above below)⟩
    · rw [window] at selected
      cases selected
  done := by
    intro s c _ selected
    rcases select_cases s c with ⟨t, selection, _, run, window, _⟩ | ⟨_, state⟩
    · exact absurd (window ▸ selected) (runOnLevel?_window run)
    · exact state
  answers := by
    intro s c _ formed
    rcases select_cases s c with ⟨t, selection, _, run, window, _⟩ | ⟨window, _⟩
    · obtain ⟨w, found, _⟩ := runOnLevel?_spec formed run
      exact ⟨some w, window.trans found⟩
    · exact ⟨none, window⟩

theorem potential_start (c : Circuit) : potential {} c = max 1 (c.lines - 2) * c.size := by
  have levels : max 1 (c.lines - 2) = c.lines - 1 - 2 + 1 := by omega
  unfold potential
  rw [levels, Nat.succ_mul, Nat.add_comm]
  rfl

end Growing

namespace Peephole

/-- A run that starts with `selector` looks at no more than `bound` windows and leaves the selector as it was. Steps for
more windows are never used up. If the replacement never fails, the run does not either. -/
structure EndsWithin {σ : Type} (o : Peephole σ) (selector : σ) (c : Circuit) (bound : Nat) : Prop where
  ends : ∀ n, bound < n → o.steps n { selector, circuit := c } ≠ .ok none
  answers : o.replacement.Proper → ∀ n, bound < n → ∃ s, o.steps n { selector, circuit := c } = .ok (some s)
  considered : ∀ n s, o.steps n { selector, circuit := c } = .ok (some s) → s.report.considered ≤ bound
  restarts : ∀ n s, o.steps n { selector, circuit := c } = .ok (some s) → s.selector = selector

theorem EndsWithin.of_descends {σ : Type} {o : Peephole σ} {selector : σ} {c : Circuit} {ready : σ → Circuit → Prop}
    {potential : σ → Circuit → Nat} (formed : c.WellFormed) (faithful : o.select.Faithful)
    (model : o.cost = .gateCount) (descends : o.select.Descends ready potential selector)
    (isReady : ready selector c) : o.EndsWithin selector c (potential selector c) where
  ends _ enough := steps_ne_none faithful model descends isReady enough
  answers proper _ enough := exists_steps faithful model descends isReady enough proper formed
  considered _ _ run := by
    have bound := (steps_considered faithful model descends isReady run).1
    rwa [Nat.zero_add] at bound
  restarts _ _ run := (steps_considered faithful model descends isReady run).2

/-- The pass that replaces windows by fewer gates. -/
def counting {σ : Type} (select : Selector σ) (replacement : Replacement) : Peephole σ :=
  ⟨select, replacement, .gateCount⟩

/-- Under gate counts the sliding windows are no more than fit between the start and the end, and the growing windows no
more than there are gates on each level, whatever replaces them and however the circuit shrinks in between. Sliding
windows never come near the limit of a run. -/
theorem counting_ends_within (replacement : Replacement) {c : Circuit} (formed : c.WellFormed) :
    (∀ length offset, 0 < length → 0 < offset → offset + c.size < UInt64.size →
      (counting Sliding.select replacement).EndsWithin { length, offset } c ((c.size + offset - 1) / offset) ∧
        (counting Sliding.select replacement).run { length, offset } c ≠ .ok none) ∧
    (counting Growing.select replacement).EndsWithin {} c (max 1 (c.lines - 2) * c.size) := by
  constructor
  · intro length offset long moving room
    have isReady : Sliding.Ready length offset { length, offset } c := ⟨rfl, rfl, room⟩
    have within : (counting Sliding.select replacement).EndsWithin { length, offset } c
        ((c.size + offset - 1) / offset) := by
      rw [← Sliding.potential_start length]
      exact .of_descends formed Sliding.select_faithful rfl (Sliding.select_descends long moving) isReady
    have few : (c.size + offset - 1) / offset < stepLimit := by
      have windows := Nat.div_le_self (c.size + offset - 1) offset
      unfold stepLimit
      omega
    exact ⟨within, within.ends stepLimit few⟩
  · rw [← Growing.potential_start]
    exact .of_descends formed Growing.select_faithful rfl Growing.select_descends trivial

/-- Two gates that cancel, a gate on other lines and a gate that is too wide to be replaced. -/
def shrinking : Circuit :=
  { Circuit.blank 4 with gates := [.toffoli (NatSet.ofList [0]) 1, .toffoli (NatSet.ofList [0]) 1,
      .toffoli (NatSet.ofList [2]) 3, .toffoli (NatSet.ofList [0, 1]) 2] }

/-- Both passes take out windows on two lines, and then the saved position is past gates that were never looked at. -/
theorem counting_ends_within_shrinking : shrinking.WellFormed ∧ (Replacement.fixed (.blank 2)).Proper ∧
    ((counting Sliding.select (.fixed (.blank 2))).run { length := 2 } shrinking).map
      (Option.map fun s => (s.report.considered, s.circuit.size)) = .ok (some (2, 2)) ∧
    (counting Sliding.select (.fixed (.blank 2))).EndsWithin { length := 2 } shrinking 4 ∧
    ((counting Growing.select (.fixed (.blank 2))).run {} shrinking).map
      (Option.map fun s => (s.report.considered, s.circuit.size)) = .ok (some (2, 1)) ∧
    (counting Growing.select (.fixed (.blank 2))).EndsWithin {} shrinking 8 := by
  have formed : shrinking.WellFormed := by decide
  have proper : (Replacement.fixed (.blank 2)).Proper := fun _ _ => ⟨_, rfl, fun _ built => by cases built; exact nofun⟩
  obtain ⟨sliding, growing⟩ := counting_ends_within (.fixed (.blank 2)) formed
  refine ⟨formed, proper, ?_, (sliding 2 1 ?_ ?_ ?_).1, ?_, growing⟩
  all_goals decide +kernel

end Peephole

end Reversible
