import Reversible.Proofs.Factoring

namespace Reversible.Factoring

/-- A scan in place: the circuit as it is by now, the position that the scan has come to, and the position of the gate
that cleared the helper line last. -/
structure Cursor where
  circuit : Circuit
  position : Nat := 0
  lastClearing : Option Nat := none

namespace Cursor

def pass (s : Cursor) : Cursor := { s with position := s.position + 1 }

/-- The gates of a run give way to what becomes of them, and the scan goes on behind these. -/
def replace (s : Cursor) (f : Factored) : Cursor where
  circuit := { s.circuit with
    gates := s.circuit.gates.take s.position ++ f.gates ++ s.circuit.gates.drop (s.position + f.run.length) }
  position := s.position + f.run.length + 2
  lastClearing := some (s.position + f.run.length + 1)

/-- The circuit without the gate that cleared the helper line last. -/
def finish (s : Cursor) : Circuit :=
  { s.circuit with gates := s.lastClearing.elim s.circuit.gates s.circuit.gates.eraseIdx }

end Cursor

/-- A turn passes the gate at the position of the scan, or replaces the run that the best factor of this gate reaches
from there on. -/
inductive Advances (cost : CostModel) (helper : Nat) (s : Cursor) : List Factored → Cursor → Prop
  | pass {g rest} (ahead : s.circuit.gates.drop s.position = g :: rest)
      (kept : g.isToffoli = true → best? cost s.circuit helper g rest = .ok none) : Advances cost helper s [] s.pass
  | replace {g rest f} (ahead : s.circuit.gates.drop s.position = g :: rest) (inverts : g.isToffoli = true)
      (found : best? cost s.circuit helper g rest = .ok (some f)) : Advances cost helper s [f] (s.replace f)

/-- Turns follow each other until the position is behind all gates, which become more on the way. -/
inductive Sweeps (cost : CostModel) (helper : Nat) : Cursor → List Factored → Cursor → Prop
  | done {s} (past : s.circuit.size ≤ s.position) : Sweeps cost helper s [] s
  | turn {s fs t others u} (first : Advances cost helper s fs t) (later : Sweeps cost helper t others u) :
      Sweeps cost helper s (fs ++ others) u

/-- One helper line after the other is added and scanned for, with the factors that are taken out for each. -/
inductive Widens (cost : CostModel) : Nat → Circuit → List (List Factored) → Circuit → Prop
  | none {c} : Widens cost 0 c [] c
  | add {count c fs e others d} (swept : Sweeps cost c.lines { circuit := c.addLine helperWire } fs e)
      (later : Widens cost count e.finish others d) : Widens cost (count + 1) c (fs :: others) d

variable {cost : CostModel} {c d : Circuit} {helper : Nat} {g : Gate} {rest : List Gate} {f : Factored} {s t : Cursor}
  {fs : List Factored}

/-- The gates of the run are rewritten one by one. -/
theorem Proper.gates_split (proper : Proper cost c helper g rest f) : ∃ replaced,
    f.gates = bracket f.factor helper :: replaced ++ [bracket f.factor helper] ∧
      List.Forall₂ (fun g h => g.factorOut f.factor helper = .ok h) f.run replaced := by
  have rewrites := proper.gates
  unfold rewriteRun at rewrites
  obtain ⟨replaced, mapped, rewrites⟩ := bind_eq_ok.mp rewrites
  obtain ⟨ends, built, rewrites⟩ := bind_eq_ok.mp rewrites
  obtain ⟨-, -, rewrites⟩ := bind_eq_ok.mp rewrites
  obtain ⟨-, built⟩ := require_bind_eq_ok.mp built
  cases built
  exact ⟨replaced, (Except.ok.inj rewrites).symm, forall₂_of_mapM mapped⟩

theorem Proper.length_gates (proper : Proper cost c helper g rest f) : f.gates.length = f.run.length + 2 := by
  obtain ⟨replaced, gates, each⟩ := proper.gates_split
  rw [gates, List.length_append, List.length_cons, List.length_singleton, each.length_eq]

theorem lt_size_of_ahead (ahead : s.circuit.gates.drop s.position = g :: rest) : s.position < s.circuit.size := by
  by_contra past
  rw [List.drop_eq_nil_of_le (Nat.not_lt.mp past)] at ahead
  cases ahead

/-- The circuit before and after a run is replaced. -/
theorem Proper.placed (proper : Proper cost c helper g rest f) (ahead : s.circuit.gates.drop s.position = g :: rest) :
    s.circuit.gates.drop s.position = f.run ++ s.circuit.gates.drop (s.position + f.run.length) := by
  have behind : s.circuit.gates.drop (s.position + f.run.length) = rest.drop (f.run.length - 1) := by
    rw [← List.drop_drop, ahead, ← proper.run_append_drop, List.drop_left]
  rw [behind, proper.run_append_drop, ahead]

theorem Proper.size_replace (proper : Proper cost c helper g rest f)
    (ahead : s.circuit.gates.drop s.position = g :: rest) :
    (s.replace f).circuit.size = s.circuit.size + 2 ∧ s.position + f.run.length ≤ s.circuit.size := by
  have inside := lt_size_of_ahead ahead
  have length := congrArg List.length (proper.placed ahead)
  have longer := proper.length_gates
  unfold Cursor.replace Circuit.size at *
  simp only [List.length_append, List.length_take, List.length_drop] at length ⊢
  omega

theorem Cursor.mem_replace (member : g ∈ (s.replace f).circuit.gates) : g ∈ s.circuit.gates ∨ g ∈ f.gates := by
  rcases List.mem_append.mp member with front | behind
  · exact (List.mem_append.mp front).imp (List.take_sublist _ _).mem id
  · exact Or.inl ((List.drop_sublist _ _).mem behind)

/-- What lies behind the run is ahead afterwards. -/
theorem Proper.drop_replace (proper : Proper cost c helper g rest f)
    (ahead : s.circuit.gates.drop s.position = g :: rest) :
    (s.replace f).circuit.gates.drop (s.replace f).position = s.circuit.gates.drop (s.position + f.run.length) := by
  have inside := (lt_size_of_ahead ahead).le
  unfold Circuit.size at inside
  refine List.drop_left' ?_
  rw [List.length_append, List.length_take_of_le inside, proper.length_gates, ← Nat.add_assoc]
  rfl

theorem Advances.remaining_lt (advances : Advances cost helper s fs t) :
    t.circuit.size - t.position < s.circuit.size - s.position := by
  cases advances with
  | pass ahead _ =>
    have inside := lt_size_of_ahead ahead
    change s.circuit.size - (s.position + 1) < _
    omega
  | @replace g rest f ahead _ found =>
    have proper := best?_proper found
    have inside := lt_size_of_ahead ahead
    have positive : 0 < f.run.length := proper.run ▸ Nat.succ_pos _
    obtain ⟨size, within⟩ := proper.size_replace ahead
    change (s.replace f).circuit.size - (s.position + f.run.length + 2) < _
    omega

/-- No scan takes turns for ever, although its circuit grows. -/
theorem advances_wellFounded (cost : CostModel) (helper : Nat) :
    WellFounded fun later earlier => ∃ fs, Advances cost helper earlier fs later :=
  Subrelation.wf (fun ⟨_, advances⟩ => advances.remaining_lt)
    (measure fun s : Cursor => s.circuit.size - s.position).wf

namespace Scan

variable {s next : Scan} {ahead : List Gate}

/-- The scan in place, where the gates behind it stand before those ahead. -/
def cursor (c : Circuit) (ahead : List Gate) (s : Scan) : Cursor :=
  ⟨{ c with gates := s.gates ++ ahead }, s.gates.length, s.lastClearing⟩

theorem drop_cursor : (s.cursor c ahead).circuit.gates.drop (s.cursor c ahead).position = ahead := List.drop_left

theorem pass_cursor : (s.cursor c (g :: ahead)).pass = (s.keep g).cursor c ahead := by
  simp [cursor, keep, Cursor.pass]

theorem replace_cursor (proper : Proper cost d helper g rest f) (applied : s.apply helper f = .ok next) :
    (s.cursor c (f.run ++ ahead)).replace f = next.cursor c ahead := by
  obtain ⟨saving, -, applied⟩ := bind_eq_ok.mp applied
  cases applied
  have length := proper.length_gates
  have behind : (s.gates ++ (f.run ++ ahead)).drop (s.gates.length + f.run.length) = ahead := by
    rw [← List.drop_drop, List.drop_left, List.drop_left]
  simp only [cursor, Cursor.replace, List.take_left, behind, List.length_append, length, Nat.add_assoc]

theorem finish_cursor : (s.cursor c []).finish = { c with gates := s.lastClearing.elim s.gates s.gates.eraseIdx } := by
  simp only [cursor, Cursor.finish, List.append_nil]

/-- What a turn does at the first of the gates ahead. -/
theorem advances_cases {fs : List Factored} {t : Cursor} (advances : Advances cost helper (s.cursor c ahead) fs t) :
    ∃ g rest, ahead = g :: rest ∧
      (fs = [] ∧ t = (s.keep g).cursor c rest ∧ (g.isToffoli = true → best? cost c helper g rest = .ok none) ∨
        ∃ f, fs = [f] ∧ g.isToffoli = true ∧ best? cost c helper g rest = .ok (some f) ∧
          ∀ next, s.apply helper f = .ok next → t = next.cursor c (rest.drop (f.run.length - 1))) := by
  cases advances with
  | @pass g rest found kept =>
    obtain rfl := drop_cursor.symm.trans found
    exact ⟨g, rest, rfl, Or.inl ⟨rfl, pass_cursor, kept⟩⟩
  | @replace g rest f found inverts search =>
    obtain rfl := drop_cursor.symm.trans found
    have proper := best?_proper search
    refine ⟨g, rest, rfl, Or.inr ⟨f, rfl, inverts, search, fun next applied => ?_⟩⟩
    rw [← replace_cursor proper applied, proper.run_append_drop]

end Scan

/-- A scan that goes through has taken its turns. -/
theorem scan_sweeps {s next : Scan} {skip : Nat} (scanned : scan cost c helper skip s rest = .ok next) :
    ∃ fs, Sweeps cost helper (s.cursor c (rest.drop skip)) fs (next.cursor c []) ∧
      next.report.factors = s.report.factors + fs.length := by
  induction rest generalizing skip s with
  | nil =>
    cases scanned
    rw [List.drop_nil]
    refine ⟨[], .done ?_, rfl⟩
    simp [Scan.cursor, Circuit.size]
  | cons g rest ih =>
    cases skip with
    | succ skip => exact ih scanned
    | zero =>
      have ahead : (s.cursor c (g :: rest)).circuit.gates.drop (s.cursor c (g :: rest)).position = g :: rest :=
        Scan.drop_cursor
      rcases scan_cons_cases scanned with ⟨kept, scanned⟩ | ⟨f, applied, inverts, found, application, scanned⟩
      · obtain ⟨fs, swept, counted⟩ := ih scanned
        exact ⟨[] ++ fs, .turn (.pass ahead kept) (Scan.pass_cursor ▸ swept), counted⟩
      · obtain ⟨fs, swept, counted⟩ := ih scanned
        have proper := best?_proper found
        have placed : (s.cursor c (g :: rest)).replace f = applied.cursor c (rest.drop (f.run.length - 1)) := by
          rw [← Scan.replace_cursor proper application, proper.run_append_drop]
        refine ⟨[f] ++ fs, .turn (.replace ahead inverts found) (placed ▸ swept), ?_⟩
        obtain ⟨saving, -, application⟩ := bind_eq_ok.mp application
        cases application
        rw [counted, List.length_append, List.length_singleton, Nat.add_assoc]

theorem addHelpers_widens {count : Nat} {before after : Report}
    (added : addHelpers cost count c before = .ok (d, after)) :
    ∃ factors, Widens cost count c factors d ∧ after.factors = before.factors + factors.flatten.length := by
  induction count generalizing c before with
  | zero =>
    cases added
    exact ⟨[], .none, rfl⟩
  | succ count ih =>
    obtain ⟨⟨middle, report⟩, first, others⟩ := bind_eq_ok.mp added
    obtain ⟨s, scanned, first⟩ := bind_eq_ok.mp first
    obtain ⟨fs, swept, counted⟩ := scan_sweeps scanned
    cases first
    obtain ⟨factors, widened, total⟩ := ih others
    refine ⟨fs :: factors, .add swept (Scan.finish_cursor ▸ widened), ?_⟩
    rw [total, counted, List.flatten_cons, List.length_append, Nat.add_assoc]

end Reversible.Factoring
