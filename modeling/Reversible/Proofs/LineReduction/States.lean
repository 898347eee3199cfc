import Reversible.Proofs.LineReduction.Window
import Reversible.Proofs.TruthTable

namespace Reversible

namespace Circuit

theorem testBit_numberOf (bits : List Bool) (i : Nat) : (numberOf bits).testBit i = bits.getD i false := by
  induction bits generalizing i with
  | nil => simp [numberOf]
  | cons bit rest ih =>
    have split : numberOf (bit :: rest) = bit.toNat + 2 * numberOf rest := rfl
    cases i with
    | zero => cases bit <;> simp [split, Nat.testBit_zero]
    | succ i =>
      rw [Nat.testBit_add_one, split, List.getD_cons_succ, ← ih]
      congr 1
      have small : bit.toNat < 2 := Bool.toNat_lt bit
      omega

theorem numberOf_lt (bits : List Bool) : numberOf bits < 2 ^ bits.length := by
  refine Nat.lt_pow_two_of_testBit _ fun i above => ?_
  rw [testBit_numberOf, List.getD_eq_default _ _ above]

theorem map_testBit_numberOf (bits : List Bool) : (List.range bits.length).map (numberOf bits).testBit = bits := by
  refine List.ext_getElem (by simp) fun i _ inside => ?_
  rw [List.getElem_map, List.getElem_range, testBit_numberOf, List.getD_eq_getElem _ _ inside]

theorem number_ofBools {bits : List Bool} (fits : bits.length ≤ 64) : (Bits.ofBools bits).number = numberOf bits := by
  refine Nat.eq_of_testBit_eq fun i => ?_
  rw [Bits.testBit_number (Bits.ofBools_canonical bits) (by simpa using fits), Bits.testBit_ofBools, testBit_numberOf]

end Circuit

/-- The value that a wire has at the start, if it has a fixed one, is `value`. -/
def Wire.Allows (w : Wire) (value : Bool) : Prop := ∀ fixed, w.constant = some fixed → value = fixed

namespace Circuit

variable {c : Circuit}

theorem length_fillLines (wires : List Wire) (free : List Bool) : (fillLines wires free).length = wires.length := by
  induction wires generalizing free with
  | nil => rfl
  | cons w rest ih =>
    unfold fillLines
    split <;> rw [List.length_cons, List.length_cons, ih]

theorem fillLines_allowed (wires : List Wire) (free : List Bool) :
    List.Forall₂ Wire.Allows wires (fillLines wires free) := by
  induction wires generalizing free with
  | nil => exact .nil
  | cons w rest ih =>
    cases constant : w.constant with
    | some value =>
      simp only [fillLines, constant]
      exact .cons (fun fixed same => Option.some.inj (constant.symm.trans same)) (ih free)
    | none =>
      have any : ∀ value, w.Allows value := fun value fixed same => by cases constant.symm.trans same
      cases free with
      | nil =>
        simp only [fillLines, constant]
        exact .cons (any false) (ih [])
      | cons value more =>
        simp only [fillLines, constant]
        exact .cons (any value) (ih more)

/-- Every assignment that the constants allow comes from some assignment to the free lines. -/
theorem exists_fillLines {wires : List Wire} {values : List Bool} (allowed : List.Forall₂ Wire.Allows wires values) :
    ∃ free, free.length = wires.countP (·.constant.isNone) ∧ fillLines wires free = values := by
  induction allowed with
  | nil => exact ⟨[], rfl, rfl⟩
  | @cons w value wires values here _ ih =>
    obtain ⟨free, length, filled⟩ := ih
    cases constant : w.constant with
    | some fixed =>
      refine ⟨free, by simp [constant, length], ?_⟩
      simp only [fillLines, constant, filled, here fixed constant]
    | none =>
      refine ⟨value :: free, by simp [constant, length], ?_⟩
      simp only [fillLines, constant, filled]

theorem fullInput_eq_ok {free : Bits} (width : free.width = c.freeCount) :
    c.fullInput free = .ok (Bits.ofBools (fillLines c.wires free.toBools)) := by
  unfold fullInput
  rw [require_of width]
  rfl

/-- What is simulated for the number `x` of an assignment to the free lines. -/
def filled (c : Circuit) (x : Nat) : List Bool :=
  fillLines c.wires ((List.range c.freeCount).map x.testBit)

@[simp] theorem filled_length (c : Circuit) (x : Nat) : (c.filled x).length = c.lines := length_fillLines _ _

theorem fullInput_ofWord {x : Nat} (fits : x < 2 ^ 64) :
    c.fullInput (Bits.ofWord c.freeCount x.toUInt64) = .ok (Bits.ofBools (c.filled x)) := by
  rw [Bits.ofWord_toUInt64 _ fits, fullInput_eq_ok (Bits.pack_width _ _), Bits.toBools_pack]
  rfl

/-- What is simulated for some number is what the constants allow. -/
theorem filled_eq_iff {values : List Bool} :
    (∃ x < 2 ^ c.freeCount, c.filled x = values) ↔ List.Forall₂ Wire.Allows c.wires values := by
  constructor
  · rintro ⟨x, _, rfl⟩
    exact fillLines_allowed c.wires _
  · intro allowed
    obtain ⟨free, length, filled⟩ := exists_fillLines allowed
    have count : free.length = c.freeCount := length
    refine ⟨numberOf free, count ▸ numberOf_lt free, ?_⟩
    unfold Circuit.filled
    rw [← count, map_testBit_numberOf, filled]

theorem foldFrom_insert (f : NatSet → Nat → Except Fault NatSet) (value : Nat → Nat) (start count : Nat)
    (s : NatSet) (step : ∀ s x, start ≤ x → x < start + count → f s x = .ok (s.insert (value x))) :
    ∃ states, foldFrom f start count s = .ok states ∧
      ∀ y, y ∈ states ↔ y ∈ s ∨ ∃ x, start ≤ x ∧ x < start + count ∧ value x = y := by
  induction count generalizing start s with
  | zero => exact ⟨s, rfl, fun y => by simp; omega⟩
  | succ count ih =>
    obtain ⟨states, run, members⟩ := ih (start + 1) (s.insert (value start)) fun s x lower upper =>
      step s x (by omega) (by omega)
    refine ⟨states, ?_, fun y => ?_⟩
    · unfold foldFrom
      rw [step s start (Nat.le_refl _) (by omega), ok_bind, run]
    · rw [members y, NatSet.mem_insert]
      constructor
      · rintro ((rfl | old) | ⟨x, lower, upper, same⟩)
        · exact Or.inr ⟨start, Nat.le_refl _, by omega, rfl⟩
        · exact Or.inl old
        · exact Or.inr ⟨x, by omega, by omega, same⟩
      · rintro (old | ⟨x, lower, upper, same⟩)
        · exact Or.inl (Or.inr old)
        · rcases Nat.eq_or_lt_of_le lower with rfl | later
          · exact Or.inl (Or.inl same.symm)
          · exact Or.inr ⟨x, later, by omega, same⟩

/-- The numbers of the assignments that the constants allow. -/
theorem initialStates_spec (narrow : c.lines ≤ 63) : ∃ states, c.initialStates = .ok states ∧
    ∀ y, y ∈ states ↔ ∃ values, List.Forall₂ Wire.Allows c.wires values ∧ numberOf values = y := by
  have free : c.freeCount ≤ c.lines := List.countP_le_length
  have word : 2 ^ c.freeCount < 2 ^ 64 := two_pow_lt_word (by omega)
  have toWord : ∀ x, (Bits.ofBools (c.filled x)).number = numberOf (c.filled x) :=
    fun x => number_ofBools (by rw [filled_length]; omega)
  obtain ⟨states, run, members⟩ := foldFrom_insert
    (fun states x => do
      let state ← (← c.fullInput (Bits.ofWord c.freeCount x.toUInt64)).toWord
      return states.insert state.toNat)
    (fun x => numberOf (c.filled x)) 0 (2 ^ c.freeCount) .empty fun s x _ upper => by
    rw [fullInput_ofWord (by omega), ok_bind, Bits.toWord_eq_ok (by rw [Bits.ofBools_width, filled_length]; omega),
      ok_bind, ← toWord]
    rfl
  refine ⟨states, ?_, fun y => ?_⟩
  · unfold initialStates
    simp only [assignmentCount_eq_ok (show c.freeCount < 64 by omega), ok_bind, Nat.one_shiftLeft]
    exact run
  · simp only [members y, NatSet.not_mem_empty, false_or, Nat.zero_le, true_and, Nat.zero_add, ← filled_eq_iff]
    constructor
    · rintro ⟨x, below, same⟩
      exact ⟨_, ⟨x, below, rfl⟩, same⟩
    · rintro ⟨_, ⟨x, below, rfl⟩, same⟩
      exact ⟨x, below, same⟩

end Circuit

/-- Simulation of a well-formed circuit never fails, and it answers with one bit per line. -/
def Simulator.WidthPreserving (simulator : Simulator) : Prop :=
  ∀ c input, c.WellFormed → input.Canonical → input.width = c.lines →
    ∃ output, simulator c input = .ok output ∧ output.width = c.lines

namespace Circuit

theorem simulate_widthPreserving : Simulator.WidthPreserving simulate :=
  fun _ _ formed canonical width => ⟨_, simulate_eq_ok formed canonical width, Bits.pack_width _ _⟩

variable {c : Circuit} {simulator : Simulator}

theorem projectState_eq_ok {state : Bits} {positions : List Nat} (inside : ∀ i ∈ positions, i < state.width)
    (fits : positions.length ≤ 64) : projectState state positions = .ok (numberOf (positions.map state.testBit)) := by
  have bits : positions.mapM state.get = .ok (positions.map state.testBit) := mapM_eq_ok fun i member => by
    unfold Bits.get
    rw [require_of (inside i member)]
    rfl
  unfold projectState
  rw [bits, ok_bind, require_of fits]
  rfl

/-- What the lines at `positions` hold after the assignments that the constants allow. -/
theorem finalStates_spec (formed : c.WellFormed) (preserving : simulator.WidthPreserving) (free : c.freeCount ≤ 63)
    {positions : List Nat} (inside : ∀ i ∈ positions, i < c.lines) (fits : positions.length ≤ 64) :
    ∃ states, finalStates simulator c positions = .ok states ∧
      ∀ y, y ∈ states ↔ ∃ values output, List.Forall₂ Wire.Allows c.wires values ∧
        simulator c (Bits.ofBools values) = .ok output ∧ numberOf (positions.map output.testBit) = y := by
  have word : 2 ^ c.freeCount < 2 ^ 64 := two_pow_lt_word (by omega)
  choose output simulated width using fun x => preserving c (Bits.ofBools (c.filled x)) formed
    (Bits.ofBools_canonical _) (by rw [Bits.ofBools_width, filled_length])
  obtain ⟨states, run, members⟩ := foldFrom_insert
    (fun states x => do
      let state ← c.simulateFree simulator (Bits.ofWord c.freeCount x.toUInt64)
      return states.insert (← projectState state positions))
    (fun x => numberOf (positions.map (output x).testBit)) 0 (2 ^ c.freeCount) .empty fun s x _ upper => by
    unfold simulateFree
    rw [fullInput_ofWord (by omega), ok_bind, simulated, ok_bind,
      projectState_eq_ok (fun i member => (width x).symm ▸ inside i member) fits]
    rfl
  refine ⟨states, ?_, fun y => ?_⟩
  · unfold finalStates
    simp only [assignmentCount_eq_ok (show c.freeCount < 64 by omega), ok_bind, Nat.one_shiftLeft]
    exact run
  · simp only [members y, NatSet.not_mem_empty, false_or, Nat.zero_le, true_and, Nat.zero_add, ← filled_eq_iff]
    constructor
    · rintro ⟨x, below, same⟩
      exact ⟨_, _, ⟨x, below, rfl⟩, simulated x, same⟩
    · rintro ⟨_, answer, ⟨x, below, rfl⟩, answers, same⟩
      cases (simulated x).symm.trans answers
      exact ⟨x, below, same⟩

/-- An assignment with the constants on their lines. -/
def Allows (c : Circuit) (σ : Assignment) : Prop := ∀ i < c.lines, (c.wire i).Allows (σ i)

/-- Values of some lines are those of an allowed assignment if each of them is allowed on its line. -/
theorem forall₂_allows_iff {lines : List Nat} (distinct : lines.Nodup) (inside : ∀ i ∈ lines, i < c.lines)
    {values : List Bool} :
    List.Forall₂ Wire.Allows (lines.map c.wire) values ↔ ∃ σ, c.Allows σ ∧ lines.map σ = values := by
  induction lines generalizing values with
  | nil =>
    rw [List.map_nil, List.forall₂_nil_left_iff]
    constructor
    · rintro rfl
      exact ⟨fun i => (c.constant i).getD false, fun i _ fixed same => by simp [constant, same], rfl⟩
    · rintro ⟨σ, _, same⟩
      exact same.symm
  | cons i rest ih =>
    obtain ⟨other, distinctRest⟩ := List.nodup_cons.mp distinct
    obtain ⟨here, insideRest⟩ := List.forall_mem_cons.mp inside
    rw [List.map_cons, List.forall₂_cons_left_iff]
    constructor
    · rintro ⟨value, later, own, allowed, rfl⟩
      obtain ⟨σ, ofRest, rfl⟩ := (ih distinctRest insideRest).mp allowed
      refine ⟨Function.update σ i value, fun j below => ?_, ?_⟩
      · by_cases same : j = i
        · rw [same, Function.update_self]
          exact own
        · rw [Function.update_of_ne same]
          exact ofRest j below
      · rw [List.map_cons, Function.update_self]
        refine congrArg (value :: ·) (List.map_congr_left fun j member => ?_)
        exact Function.update_of_ne (ne_of_mem_of_not_mem member other) _ _
    · rintro ⟨σ, allowed, rfl⟩
      exact ⟨σ i, rest.map σ, allowed i here, (ih distinctRest insideRest).mpr ⟨σ, allowed, rfl⟩, rfl⟩

/-- The free lines that the gates before the end of a window touch or that are lines of the window. -/
def inputsBefore (c : Circuit) (stop : Nat) (filter : List Nat) : List Nat :=
  c.freeLines.filter fun l => l ∈ filter ∨ ∃ g ∈ c.gates.take stop, l ∈ g.lines

theorem mem_inputsBefore {stop : Nat} {filter : List Nat} {l : Nat} : l ∈ c.inputsBefore stop filter ↔
    (l < c.lines ∧ (c.constant l).isNone = true) ∧ l ∈ c.linesBefore stop filter := by
  simp only [inputsBefore, freeLines, List.mem_filter, List.mem_range, decide_eq_true_eq, ← mem_linesBefore]

theorem Extent.freeCount_before {start stop : Nat} {filter : List Nat} (extent : c.Extent start stop filter)
    (formed : c.WellFormed) :
    (c.cut 0 start (c.linesBefore stop filter)).circuit.freeCount = (c.inputsBefore stop filter).length := by
  have before := extent.before formed
  have distinct : (c.inputsBefore stop filter).Nodup := (List.nodup_range.filter _).filter _
  have same : ((c.linesBefore stop filter).filter fun l => (c.constant l).isNone).Perm
      (c.inputsBefore stop filter) := by
    refine (List.perm_ext_iff_of_nodup (before.distinct.filter _) distinct).mpr fun l => ?_
    rw [mem_inputsBefore, List.mem_filter]
    exact ⟨fun ⟨own, free⟩ => ⟨⟨before.inside l own, free⟩, own⟩, fun ⟨⟨_, free⟩, own⟩ => ⟨own, free⟩⟩
  rw [← same.length_eq, ← List.countP_eq_length_filter]
  exact List.countP_map

/-- On the lines of the gates before its end, a window finds at its start what these gates lead to. -/
theorem Extent.simulate_before {start stop : Nat} {filter : List Nat} (extent : c.Extent start stop filter)
    (formed : c.WellFormed) (σ : Assignment) :
    ∃ output, simulate (c.cut 0 start (c.linesBefore stop filter)).circuit
        (Bits.ofBools ((c.linesBefore stop filter).map σ)) = .ok output ∧
      (filter.map (c.linesBefore stop filter).idxOf).map output.testBit = filter.map (act (c.gates.take start) σ) := by
  let lines := c.linesBefore stop filter
  have before := extent.before formed
  have width : (c.cut 0 start lines).circuit.lines = lines.length := cut_lines
  let τ : Assignment := ((lines.map σ).getD · false)
  have input : Bits.ofBools (lines.map σ) = Bits.pack (c.cut 0 start lines).circuit.lines τ := by
    rw [Bits.ofBools_eq_pack, List.length_map, width]
  refine ⟨_, input ▸ simulate_pack (before.cut_wellFormed formed) τ, ?_⟩
  rw [List.map_map]
  refine List.map_congr_left fun l own => ?_
  have member : l ∈ lines := mem_linesBefore.mpr (Or.inl own)
  have inside : lines.idxOf l < lines.length := List.idxOf_lt_length_of_mem member
  have agree : ∀ i < lines.length, τ i = σ (lines.getD i 0) := fun i below => by simp [τ, below]
  rw [Function.comp_apply, Bits.testBit_pack_of_lt (width.symm ▸ inside), before.act_cut agree inside,
    getD_idxOf member]
  rfl

/-- Without gates before a window, its lines start with what the constants allow. -/
theorem Extent.initialStates_spec {start stop : Nat} {filter : List Nat} (extent : c.Extent start stop filter)
    (narrow : filter.length ≤ 63) : ∃ states, (c.cut start stop filter).circuit.initialStates = .ok states ∧
      ∀ y, y ∈ states ↔ ∃ σ, c.Allows σ ∧ numberOf (filter.map σ) = y := by
  have lines : (c.cut start stop filter).circuit.lines = filter.length := cut_lines
  obtain ⟨states, run, members⟩ := (c.cut start stop filter).circuit.initialStates_spec (lines ▸ narrow)
  refine ⟨states, run, fun y => (members y).trans ?_⟩
  constructor
  · rintro ⟨_, allowed, number⟩
    obtain ⟨σ, allows, rfl⟩ := (forall₂_allows_iff extent.distinct extent.inside).mp allowed
    exact ⟨σ, allows, number⟩
  · rintro ⟨σ, allows, number⟩
    exact ⟨_, (forall₂_allows_iff extent.distinct extent.inside).mpr ⟨σ, allows, rfl⟩, number⟩

/-- The gates before a window lead from what the constants allow to what its lines hold at its start. -/
theorem Extent.finalStates_spec {start stop : Nat} {filter : List Nat} (extent : c.Extent start stop filter)
    (formed : c.WellFormed) (preserving : simulator.WidthPreserving) (narrow : filter.length ≤ 63)
    (few : (c.inputsBefore stop filter).length ≤ 63) :
    ∃ states, finalStates simulator (c.cut 0 start (c.linesBefore stop filter)).circuit
        (filter.map (c.linesBefore stop filter).idxOf) = .ok states ∧
      (∀ y ∈ states, y < 2 ^ filter.length) ∧ (simulator = simulate →
        ∀ y, y ∈ states ↔ ∃ σ, c.Allows σ ∧ numberOf (filter.map (act (c.gates.take start) σ)) = y) := by
  let lines := c.linesBefore stop filter
  have before := extent.before formed
  have width : (c.cut 0 start lines).circuit.lines = lines.length := cut_lines
  have positions : ∀ i ∈ filter.map lines.idxOf, i < (c.cut 0 start lines).circuit.lines := by
    intro i member
    obtain ⟨l, own, rfl⟩ := List.mem_map.mp member
    rw [width]
    exact List.idxOf_lt_length_of_mem (mem_linesBefore.mpr (Or.inl own))
  obtain ⟨states, run, members⟩ := Circuit.finalStates_spec (before.cut_wellFormed formed) preserving
    (extent.freeCount_before formed ▸ few) positions (by rw [List.length_map]; omega)
  refine ⟨states, run, fun y member => ?_, fun simulates y => (members y).trans ?_⟩
  · obtain ⟨_, output, _, _, rfl⟩ := (members y).mp member
    have below := numberOf_lt ((filter.map lines.idxOf).map output.testBit)
    rwa [List.length_map, List.length_map] at below
  · subst simulates
    constructor
    · rintro ⟨_, output, allowed, simulated, number⟩
      obtain ⟨σ, allows, rfl⟩ := (forall₂_allows_iff before.distinct before.inside).mp allowed
      obtain ⟨_, same, values⟩ := extent.simulate_before formed σ
      cases same.symm.trans simulated
      exact ⟨σ, allows, values ▸ number⟩
    · rintro ⟨σ, allows, number⟩
      obtain ⟨output, simulated, values⟩ := extent.simulate_before formed σ
      have allowed := (forall₂_allows_iff before.distinct before.inside).mpr ⟨σ, allows, rfl⟩
      exact ⟨_, output, allowed, simulated, values.symm ▸ number⟩

end Circuit

namespace LineReduction

open Circuit

variable {r : LineReduction} {c : Circuit} {start stop : Nat} {filter : List Nat}

/-- The states at the start of a window are those that the allowed assignments lead to. They are not looked for if the
window has gates before it and too many free lines play a part there. -/
theorem reachable_spec (r : LineReduction) (preserving : r.simulator.WidthPreserving) (formed : c.WellFormed)
    (extent : c.Extent start stop filter) (narrow : filter.length ≤ 63)
    (few : (c.inputsBefore stop filter).length < r.variableLimit → (c.inputsBefore stop filter).length ≤ 63) :
    ∃ result, r.reachable c (c.cut start stop filter) = .ok result ∧
      (∀ count, result = .error count ↔
        start ≠ 0 ∧ r.variableLimit ≤ count ∧ count = (c.inputsBefore stop filter).length) ∧
      ∀ states, result = .ok states → (∀ y ∈ states, y < 2 ^ filter.length) ∧ (r.simulator = simulate →
        ∀ y, y ∈ states ↔ ∃ σ, c.Allows σ ∧ numberOf (filter.map (act (c.gates.take start) σ)) = y) := by
  have offset : (c.cut start stop filter).offset = start := rfl
  unfold reachable
  rw [offset]
  by_cases atStart : start = 0
  · obtain ⟨states, run, members⟩ := extent.initialStates_spec narrow
    refine ⟨.ok states, by rw [if_pos atStart, run]; rfl, fun count => ⟨nofun, fun gates => absurd atStart gates.1⟩, ?_⟩
    rintro _ ⟨⟩
    refine ⟨fun y member => ?_, fun _ y => atStart ▸ members y⟩
    obtain ⟨σ, _, rfl⟩ := (members y).mp member
    have below := numberOf_lt (filter.map σ)
    rwa [List.length_map] at below
  · rw [if_neg atStart, extent.windowBefore_eq formed, ok_bind]
    simp only [extent.freeCount_before formed]
    by_cases many : r.variableLimit ≤ (c.inputsBefore stop filter).length
    · refine ⟨_, if_pos many, fun count => ?_, nofun⟩
      rw [Except.error.injEq]
      exact ⟨fun same => ⟨atStart, same ▸ many, same.symm⟩, fun all => all.2.2.symm⟩
    · obtain ⟨states, run, members⟩ := extent.finalStates_spec formed preserving narrow (few (Nat.lt_of_not_le many))
      refine ⟨.ok states, ?_, fun count => ⟨nofun, fun all => absurd (all.2.2 ▸ all.2.1) many⟩, ?_⟩
      · rw [if_neg many]
        change (finalStates r.simulator (c.cut 0 start (c.linesBefore stop filter)).circuit
          (filter.map (c.linesBefore stop filter).idxOf) >>= _) = _
        rw [run]
        rfl
      · rintro _ ⟨⟩
        exact members

end LineReduction

end Reversible
