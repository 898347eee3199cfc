import Reversible.Proofs.Circuit.Run
import Reversible.Proofs.Selection.Draining
import Reversible.Selection.Growing

namespace Reversible

namespace Circuit

variable {c : Circuit} {level position : Nat} {w : Window} {windows : List Window}

/-- A range of gates, at least one, on exactly the lines that they touch. These are at most `level` lines, and with the
next gate they would be more. -/
structure IsRun (c : Circuit) (level : Nat) (w : Window) : Prop where
  window : c.window w.offset w.stop w.filter = .ok w
  filter : w.filter = (linesOf (c.between w.offset w.stop)).toList
  nonempty : w.offset < w.stop
  narrow : w.filter.length ≤ level
  maximal : ∀ g, c.gates[w.stop]? = some g → level < (linesOf (c.between w.offset (w.stop + 1))).size

/-- From `position` on, the windows are runs from left to right that do not overlap. Every gate on at most `level`
lines lies in exactly one of them, and any other gate in none. -/
structure Splits (c : Circuit) (level position : Nat) (windows : List Window) : Prop where
  ordered : windows.Pairwise fun v w => v.stop ≤ w.offset
  later : ∀ w ∈ windows, position ≤ w.offset
  run : ∀ w ∈ windows, c.IsRun level w
  counted : ∀ i g, position ≤ i → c.gates[i]? = some g →
    windows.countP (·.Holds i) = if (linesOf [g]).size ≤ level then 1 else 0

theorem FirstRun.isRun (formed : c.WellFormed) {skipped length : Nat} {touched : NatSet}
    (first : FirstRun level (c.gates.drop position) skipped length touched) :
    ∃ w, c.window (position + skipped) (position + skipped + length) touched.toList = .ok w ∧
      w.offset = position + skipped ∧ w.stop = position + skipped + length ∧ c.IsRun level w := by
  obtain ⟨_, nonempty, inside, lines, narrow, maximal⟩ := first
  have between (n : Nat) : ((c.gates.drop position).drop skipped).take n =
      c.between (position + skipped) (position + skipped + n) := by
    rw [Circuit.between, List.drop_drop, Nat.add_sub_cancel_left]
  simp only [between] at lines maximal
  rw [List.length_drop] at inside
  have bound : position + skipped + length ≤ c.size := by
    unfold size
    omega
  have extent := Extent.of_touched formed (Nat.le_add_right (position + skipped) length) bound
  rw [← lines] at extent
  have stop := extent.cut_stop
  refine ⟨_, extent.window_eq_cut formed, rfl, stop, ?_, ?_, ?_, narrow, fun g found => ?_⟩
  · rw [stop]
    exact extent.window_eq_cut formed
  · rw [stop, lines]
    rfl
  · rw [stop]
    exact Nat.lt_add_of_pos_right nonempty
  · rw [stop] at found ⊢
    refine maximal g ?_
    rwa [List.getElem?_drop, ← Nat.add_assoc]

theorem Splits.nil (wide : ∀ i g, position ≤ i → c.gates[i]? = some g → level < (linesOf [g]).size) :
    c.Splits level position [] := by
  refine ⟨.nil, nofun, nofun, fun i g after found => ?_⟩
  have exceeds := wide i g after found
  rw [if_neg (by omega), List.countP_nil]

/-- The gates of a run are narrow themselves. -/
theorem IsRun.gate_narrow (run : c.IsRun level w) {i : Nat} {g : Gate} (holds : w.Holds i)
    (found : c.gates[i]? = some g) : (linesOf [g]).size ≤ level := by
  have member : g ∈ c.between w.offset w.stop := by
    obtain ⟨lower, upper⟩ := holds
    refine List.mem_of_getElem? (i := i - w.offset) ?_
    rw [between, List.getElem?_take, if_pos (by omega), List.getElem?_drop, Nat.add_sub_cancel' lower, found]
  have alone : (linesOf [g]).size ≤ (linesOf (c.between w.offset w.stop)).size :=
    linesOf_size_mono fun other same => List.mem_singleton.mp same ▸ member
  have narrow := run.narrow
  rw [run.filter] at narrow
  exact alone.trans narrow

theorem Splits.cons (run : c.IsRun level w) (after : position ≤ w.offset)
    (wide : ∀ i g, position ≤ i → i < w.offset → c.gates[i]? = some g → level < (linesOf [g]).size)
    (rest : c.Splits level w.stop windows) : c.Splits level position (w :: windows) := by
  have nonempty := run.nonempty
  -- All the other windows start where this one stops.
  have notLater {i : Nat} (before : i < w.stop) : windows.countP (·.Holds i) = 0 := by
    refine List.countP_eq_zero.mpr fun v member => ?_
    have later := rest.later v member
    rw [decide_eq_true_eq]
    exact fun holds => absurd holds.1 (by omega)
  refine ⟨List.pairwise_cons.mpr ⟨rest.later, rest.ordered⟩, List.forall_mem_cons.mpr ⟨after, fun v member => ?_⟩,
    List.forall_mem_cons.mpr ⟨run, rest.run⟩, fun i g inside found => ?_⟩
  · have later := rest.later v member
    omega
  -- A gate is in this window, or it was skipped before it, or the windows after it decide.
  by_cases own : w.Holds i
  · rw [List.countP_cons, notLater own.2, if_pos (run.gate_narrow own found), if_pos (decide_eq_true own)]
  rw [List.countP_cons, if_neg (by rwa [decide_eq_true_eq]), Nat.add_zero]
  rcases Nat.lt_or_ge i w.offset with skipped | beyond
  · have exceeds := wide i g inside skipped found
    rw [notLater (by omega), if_neg (by omega)]
  · exact rest.counted i g (Nat.not_lt.mp fun before => own ⟨beyond, before⟩) found

end Circuit

namespace Growing

variable {c : Circuit} {s : Growing} {selection : Selection Growing}

/-- There is no run exactly where there is no first one among the gates from the position on. -/
theorem runOnLevel?_eq (s : Growing) (c : Circuit) : s.runOnLevel? c =
    (Circuit.firstRun? s.level (c.gates.drop s.position)).map fun (skipped, length, touched) =>
      let start := s.position + skipped
      let stop := start + length
      { state := { s with position := stop }, window := some <$> c.window start stop touched.toList } := by
  unfold runOnLevel?
  cases Circuit.firstRun? s.level (c.gates.drop s.position) <;> rfl

theorem runOnLevel?_eq_none (absent : s.runOnLevel? c = none) :
    ∀ i g, s.position ≤ i → c.gates[i]? = some g → s.level < (Circuit.linesOf [g]).size := by
  intro i g after found
  rw [runOnLevel?_eq, Option.map_eq_none_iff] at absent
  refine Circuit.isWide_iff.mp (Circuit.firstRun?_eq_none absent g (List.mem_of_getElem? (i := i - s.position) ?_))
  rw [List.getElem?_drop, Nat.add_sub_cancel' after, found]

/-- Also in a circuit that is not well-formed a run takes the selector on, and not past the end. -/
theorem runOnLevel?_moves (found : s.runOnLevel? c = some selection) :
    ∃ stop, selection.state = { s with position := stop } ∧ s.position < stop ∧ stop ≤ c.size := by
  rw [runOnLevel?_eq] at found
  obtain ⟨⟨skipped, length, touched⟩, first, rfl⟩ := Option.map_eq_some_iff.mp found
  have first := Circuit.firstRun?_spec first
  have nonempty := first.nonempty
  have inside := first.inside
  rw [List.length_drop] at inside
  unfold Circuit.size
  exact ⟨_, rfl, by omega, by omega⟩

theorem runOnLevel?_window (found : s.runOnLevel? c = some selection) : selection.window ≠ .ok none := by
  rw [runOnLevel?_eq] at found
  obtain ⟨⟨skipped, length, touched⟩, first, rfl⟩ := Option.map_eq_some_iff.mp found
  simp only
  cases c.window (s.position + skipped) (s.position + skipped + length) touched.toList <;> nofun

theorem runOnLevel?_spec (formed : c.WellFormed) (found : s.runOnLevel? c = some selection) :
    ∃ w, selection.window = .ok (some w) ∧ selection.state = { s with position := w.stop } ∧
      s.position ≤ w.offset ∧ c.IsRun s.level w ∧
      ∀ i g, s.position ≤ i → i < w.offset → c.gates[i]? = some g → s.level < (Circuit.linesOf [g]).size := by
  rw [runOnLevel?_eq] at found
  obtain ⟨⟨skipped, length, touched⟩, first, rfl⟩ := Option.map_eq_some_iff.mp found
  have first := Circuit.firstRun?_spec first
  obtain ⟨w, window, offset, stop, run⟩ := first.isRun formed
  refine ⟨w, congrArg (some <$> ·) window, ?_, by omega, run, fun i g lower upper gate => ?_⟩
  · rw [stop]
  · refine Circuit.isWide_iff.mp (first.wide g (List.mem_of_getElem? (i := i - s.position) ?_))
    rw [List.getElem?_take, if_pos (by omega), List.getElem?_drop, Nat.add_sub_cancel' lower, gate]

theorem search_cases (c : Circuit) (more : Nat) (s : Growing) :
    (∃ t selection, (t = s ∨ t.position = 0 ∧ s.level < t.level ∧ t.level ≤ s.level + more) ∧
      t.runOnLevel? c = some selection ∧ (search c more s).window = selection.window ∧
        (search c more s).state = selection.state) ∨
      ((search c more s).window = .ok none ∧ (search c more s).state = {}) := by
  induction more generalizing s with
  | zero =>
    rw [search]
    cases run : s.runOnLevel? c with
    | none => exact Or.inr ⟨rfl, rfl⟩
    | some selection => exact Or.inl ⟨s, selection, Or.inl rfl, run, rfl, rfl⟩
  | succ more ih =>
    rw [search]
    cases run : s.runOnLevel? c with
    | some selection => exact Or.inl ⟨s, selection, Or.inl rfl, run, rfl, rfl⟩
    | none =>
      rcases ih { level := s.level + 1 } with ⟨t, selection, raised, found, answer⟩ | rest
      · refine Or.inl ⟨t, selection, Or.inr ?_, found, answer⟩
        rcases raised with rfl | ⟨start, above, below⟩
        · exact ⟨rfl, Nat.lt_succ_self _, by simp only; omega⟩
        · simp only at above below
          exact ⟨start, by omega, by omega⟩
      · exact Or.inr rest

/-- The selector takes a run on its level or on one above, or it goes back to its initial state. -/
theorem select_cases (s : Growing) (c : Circuit) :
    (∃ t selection, (t = s ∨ t.position = 0 ∧ s.level < t.level ∧ t.level ≤ c.lines - 1) ∧
      t.runOnLevel? c = some selection ∧ (select s c).window = selection.window ∧
        (select s c).state = selection.state) ∨
      ((select s c).window = .ok none ∧ (select s c).state = {}) := by
  rcases search_cases c (c.lines - 1 - s.level) s with ⟨t, selection, raised, answer⟩ | rest
  · refine Or.inl ⟨t, selection, raised.imp_right ?_, answer⟩
    rintro ⟨start, above, below⟩
    exact ⟨start, above, by omega⟩
  · exact Or.inr rest

theorem select_of_run (run : s.runOnLevel? c = some selection) : select s c = selection := by
  unfold select
  cases c.lines - 1 - s.level with
  | zero =>
    unfold search
    rw [run]
    rfl
  | succ more =>
    unfold search
    rw [run]

/-- Without a run on its level the selector goes on as it does from the start of the next level. -/
theorem select_of_raised (done : s.runOnLevel? c = none) (lower : s.level < c.lines - 1) :
    (select s c).window = (select { level := s.level + 1 } c).window ∧
      (select s c).state = (select { level := s.level + 1 } c).state := by
  unfold select
  rw [show c.lines - 1 - s.level = c.lines - 1 - (s.level + 1) + 1 by omega, search, done]
  exact ⟨rfl, rfl⟩

theorem select_of_top (done : s.runOnLevel? c = none) (top : c.lines - 1 ≤ s.level) :
    select s c = { state := {}, window := .ok none } := by
  unfold select
  rw [Nat.sub_eq_zero_of_le top]
  unfold search
  rw [done]
  rfl

/-- The runs of one level are drained before anything else. -/
theorem exists_splits (formed : c.WellFormed) (level position : Nat) : ∃ windows last,
    c.Splits level position windows ∧ runOnLevel? ⟨level, last⟩ c = none ∧
      ∀ rest t, Selector.Drains select c ⟨level, last⟩ rest t →
        Selector.Drains select c ⟨level, position⟩ (windows ++ rest) t := by
  -- On the gates that are left: with every run the position gets closer to the end.
  induction remaining : c.size - position using Nat.strong_induction_on generalizing position with
  | h n ih =>
    cases run : runOnLevel? ⟨level, position⟩ c with
    | none => exact ⟨[], position, .nil (runOnLevel?_eq_none run), run, fun _ _ drains => drains⟩
    | some selection =>
      obtain ⟨w, window, state, after, isRun, wide⟩ := runOnLevel?_spec formed run
      have nonempty := isRun.nonempty
      have bound := (Circuit.Extent.of_window isRun.window).1.bound
      simp only at after
      obtain ⟨windows, last, splits, done, drains⟩ := ih (c.size - w.stop) (by omega) w.stop rfl
      refine ⟨w :: windows, last, splits.cons isRun after wide, done, fun rest t onward => ?_⟩
      have selected := select_of_run run
      refine .next (by rw [selected, window]) ?_
      rw [selected, state]
      exact drains rest t onward

/-- A selector that starts anew answers, level by level, with runs that split the circuit. When it has been drained it
is as at the start. -/
theorem select_drains (formed : c.WellFormed) : ∃ runs : Nat → List Window,
    (∀ level, 2 ≤ level → level ≤ max 2 (c.lines - 1) → c.Splits level 0 (runs level)) ∧
      ∀ windows t, Selector.Drains select c {} windows t ↔
        windows = (List.range' 2 (max 2 (c.lines - 1) - 1)).flatMap runs ∧ t = {} := by
  choose runs last splits done drains using fun level => exists_splits formed level 0
  -- Down from the top level, from which the selector starts anew.
  have levels (more level : Nat) (lower : 2 ≤ level) (top : level + more = max 2 (c.lines - 1)) :
      Selector.Drains select c { level } ((List.range' level (more + 1)).flatMap runs) {} := by
    induction more generalizing level with
    | zero =>
      have ends := select_of_top (done level) (by simp only; omega)
      exact drains level [] {} (.done (by rw [ends]) (by rw [ends]))
    | succ more ih =>
      obtain ⟨window, state⟩ := select_of_raised (done level) (by simp only; omega)
      rw [List.range'_succ, List.flatMap_cons]
      exact drains level _ {} (.congr window state (ih (level + 1) (by omega) (by omega)))
  have all : Selector.Drains select c {} ((List.range' 2 (max 2 (c.lines - 1) - 1)).flatMap runs) {} := by
    have fresh := levels (max 2 (c.lines - 1) - 2) 2 (Nat.le_refl _) (by omega)
    rwa [show max 2 (c.lines - 1) - 2 + 1 = max 2 (c.lines - 1) - 1 by omega] at fresh
  refine ⟨runs, fun level _ _ => splits level, fun windows t => ⟨fun given => given.unique all, ?_⟩⟩
  rintro ⟨rfl, rfl⟩
  exact all

/-- Two pairs of lines, and then a gate on three lines. -/
def pairs : Circuit :=
  ⟨(List.range 4).map Wire.fresh, [.toffoli (NatSet.ofList [0]) 1, .toffoli .empty 1, .toffoli (NatSet.ofList [2]) 3,
    .toffoli (NatSet.ofList [0, 1]) 3]⟩

theorem select_drains_pairs : pairs.WellFormed ∧ ∃ runs : Nat → List Window,
    (∀ level, 2 ≤ level → level ≤ 3 → pairs.Splits level 0 (runs level)) ∧
      ∀ windows t, Selector.Drains select pairs {} windows t ↔ windows = runs 2 ++ runs 3 ∧ t = {} := by
  have formed : pairs.WellFormed := by decide
  obtain ⟨runs, splits, drains⟩ := select_drains formed
  have levels : (List.range' 2 (max 2 (pairs.lines - 1) - 1)).flatMap runs = runs 2 ++ runs 3 := by
    change [2, 3].flatMap runs = _
    simp
  exact ⟨formed, runs, splits, fun windows t => levels ▸ drains windows t⟩

example : ∃ windows, Selector.Drains select pairs {} windows {} ∧ windows.map (fun w => (w.offset, w.stop, w.filter)) =
    [(0, 2, [0, 1]), (2, 3, [2, 3]), (0, 2, [0, 1]), (2, 3, [2, 3]), (3, 4, [0, 1, 3])] :=
  ⟨_, .next rfl (.next rfl (.next rfl (.next rfl (.next rfl (.done rfl rfl))))), rfl⟩

end Growing

end Reversible
