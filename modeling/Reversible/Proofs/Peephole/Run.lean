import Reversible.Peephole
import Reversible.Proofs.Windows

namespace Reversible

namespace Circuit

/-- The window is one of the circuit. -/
def HasWindow (c : Circuit) (w : Window) : Prop := ∃ start stop filter, c.window start stop filter = .ok w

theorem HasWindow.extent {c : Circuit} {w : Window} (window : c.HasWindow w) :
    ∃ start stop filter, c.Extent start stop filter ∧ w = c.cut start stop filter := by
  obtain ⟨start, stop, filter, run⟩ := window
  exact ⟨start, stop, filter, Extent.of_window run⟩

end Circuit

/-- Every window that is proposed for a circuit is one of this circuit. -/
def Selector.Faithful {σ : Type} (select : Selector σ) : Prop :=
  ∀ s c w, (select s c).window = .ok (some w) → c.HasWindow w

namespace Peephole

variable {σ : Type}

/-- A window of `c` is replaced by a cheaper circuit on as many lines, and that makes `d`. -/
structure Accepts (o : Peephole σ) (c : Circuit) (w : Window) (candidate : Circuit) (old new : UInt64) (d : Circuit) :
    Prop where
  proposed : ∃ synthesis, o.replacement w.circuit = .ok synthesis ∧ synthesis.outcome = .ok candidate
  width : candidate.lines = w.lines
  oldCost : o.cost.circuitCost w.circuit = .ok old
  newCost : o.cost.circuitCost candidate = .ok new
  cheaper : new < old
  placed : c.replaceWindow w candidate = .ok d

/-- The report lists `replacements` after those of an earlier one, and counts them. -/
structure Report.Adds (r earlier : Report) (replacements : List (UInt64 × UInt64)) : Prop where
  listed : r.replacements = earlier.replacements ++ replacements
  counted : r.replaced = earlier.replaced + replacements.length

theorem Report.Adds.none {r earlier : Report} (listed : r.replacements = earlier.replacements)
    (counted : r.replaced = earlier.replaced) : r.Adds earlier [] :=
  ⟨listed.trans (List.append_nil _).symm, counted⟩

/-- What one step can do to the circuit: nothing, or one replacement, which is reported. -/
inductive Moves (o : Peephole σ) (s t : State σ) : Prop
  | keeps (circuit : t.circuit = s.circuit) (report : t.report.Adds s.report [])
  | replaces {w : Window} {candidate : Circuit} {old new : UInt64}
      (selected : (o.select s.selector s.circuit).window = .ok (some w))
      (accepts : o.Accepts s.circuit w candidate old new t.circuit) (report : t.report.Adds s.report [(old, new)])

/-- Steps lead from one state to another. -/
inductive Reaches (o : Peephole σ) (s : State σ) : State σ → Prop
  | start : Reaches o s s
  | next {t u : State σ} {more : Bool} (previous : Reaches o s t) (step : o.step t = .ok (u, more)) : Reaches o s u

variable {o : Peephole σ} {s t : State σ} {w : Window} {candidate : Circuit}

theorem accept_spec (run : o.accept s w candidate = .ok t)
    (proposed : ∃ synthesis, o.replacement w.circuit = .ok synthesis ∧ synthesis.outcome = .ok candidate) :
    (t.circuit = s.circuit ∧ t.report.Adds s.report []) ∨
      ∃ old new, o.Accepts s.circuit w candidate old new t.circuit ∧ t.report.Adds s.report [(old, new)] := by
  unfold accept at run
  split at run
  · cases run
    exact Or.inl ⟨rfl, .none rfl rfl⟩
  · rename_i width
    obtain ⟨old, oldCost, run⟩ := bind_eq_ok.mp run
    obtain ⟨new, newCost, run⟩ := bind_eq_ok.mp run
    split at run
    · rename_i cheaper
      obtain ⟨d, placed, run⟩ := bind_eq_ok.mp run
      cases run
      exact Or.inr ⟨old, new, ⟨proposed, not_not.mp width, oldCost, newCost, cheaper, placed⟩, ⟨rfl, rfl⟩⟩
    · cases run
      exact Or.inl ⟨rfl, .none rfl rfl⟩

theorem visit_spec (run : o.visit s w = .ok t) :
    (t.circuit = s.circuit ∧ t.report.Adds s.report []) ∨
      ∃ candidate old new, o.Accepts s.circuit w candidate old new t.circuit ∧
        t.report.Adds s.report [(old, new)] := by
  unfold visit at run
  obtain ⟨synthesis, replaced, run⟩ := bind_eq_ok.mp run
  cases outcome : synthesis.outcome with
  | error reason =>
    simp only [outcome] at run
    cases run
    exact Or.inl ⟨rfl, .none rfl rfl⟩
  | ok candidate =>
    simp only [outcome] at run
    rcases accept_spec run ⟨synthesis, replaced, outcome⟩ with ⟨circuit, report⟩ | ⟨old, new, accepts, report⟩
    · exact Or.inl ⟨circuit, report.listed, report.counted⟩
    · exact Or.inr ⟨candidate, old, new, accepts, report.listed, report.counted⟩

theorem step_moves {more : Bool} (run : o.step s = .ok (t, more)) : o.Moves s t := by
  unfold step at run
  obtain ⟨window?, selected, run⟩ := bind_eq_ok.mp run
  cases window? with
  | none =>
    cases run
    exact .keeps rfl (.none rfl rfl)
  | some w =>
    obtain ⟨next, visited, run⟩ := bind_eq_ok.mp run
    cases run
    rcases visit_spec visited with ⟨circuit, report⟩ | ⟨candidate, old, new, accepts, report⟩
    · exact .keeps circuit ⟨report.listed, report.counted⟩
    · exact .replaces selected accepts ⟨report.listed, report.counted⟩

/-- What every replacement keeps holds of the circuit of every state that is reached. -/
theorem Reaches.invariant {start : State σ} {P : Circuit → Prop} (reached : o.Reaches start s) (base : P start.circuit)
    (kept : ∀ {t w candidate old new d}, o.Reaches start t → P t.circuit →
      (o.select t.selector t.circuit).window = .ok (some w) → o.Accepts t.circuit w candidate old new d → P d) :
    P s.circuit := by
  induction reached with
  | start => exact base
  | next previous step ih =>
    cases step_moves step with
    | keeps circuit _ => exact circuit ▸ ih
    | replaces selected accepts _ => exact kept previous ih selected accepts

theorem steps_reaches {n : Nat} {start : State σ} (reached : o.Reaches start s) (run : o.steps n s = .ok (some t)) :
    o.Reaches start t := by
  induction n generalizing s with
  | zero => cases run
  | succ n ih =>
    unfold steps at run
    obtain ⟨⟨next, more⟩, stepped, run⟩ := bind_eq_ok.mp run
    cases more with
    | true => exact ih (reached.next stepped) run
    | false =>
      cases run
      exact reached.next stepped

/-- A run that ends is made of steps. -/
theorem run_reaches {selector : σ} {c : Circuit} (run : o.run selector c = .ok (some t)) :
    o.Reaches { selector, circuit := c } t := steps_reaches .start run

end Peephole

end Reversible
