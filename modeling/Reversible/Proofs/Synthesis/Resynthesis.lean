import Reversible.Proofs.Synthesis.Realization
import Reversible.Replacement

namespace Reversible

namespace Circuit

variable {c : Circuit} {simulator : Simulator} {output : Nat → Bits}

/-- The row that says what is simulated for each number. -/
def simulatedCube (output : Nat → Bits) (x : Nat) : Cube := (output x).toBools.map some

/-- The table of a circuit with the rows for the numbers below `count`. -/
def simulatedRows (n count : Nat) (output : Nat → Bits) : TruthTable :=
  .ofRows n n (simulatedCube output) (List.range count)

theorem foldFrom_addSimulated (narrow : c.lines ≤ 63)
    (simulated : ∀ x, simulator c (Bits.pack c.lines x.testBit) = .ok (output x))
    (width : ∀ x, (output x).width = c.lines) {start count : Nat} (room : start + count ≤ 2 ^ c.lines) :
    foldFrom (addSimulated simulator c) start count (simulatedRows c.lines start output) =
      .ok (simulatedRows c.lines (start + count) output) := by
  induction count generalizing start with
  | zero => rfl
  | succ count ih =>
    have word : 2 ^ c.lines < 2 ^ 64 := two_pow_lt_word (by omega)
    have length : (simulatedCube output start).length = c.lines := by simp [simulatedCube, Bits.toBools, width]
    have added := TruthTable.add_ofRows (by omega) length (fun y below => List.mem_range.mp below)
      (show start < 2 ^ c.lines by omega)
    rw [← List.range_succ] at added
    unfold foldFrom addSimulated
    simp only
    rw [Bits.ofWord_toUInt64 _ (by omega), simulated, ok_bind]
    change (TruthTable.add (.ofRows c.lines c.lines (simulatedCube output) (List.range start))
      (Bits.pack c.lines start.testBit) (simulatedCube output start) >>= _) = _
    rw [added, ok_bind]
    have rest := ih (show start + 1 + count ≤ 2 ^ c.lines by omega)
    rwa [show start + 1 + count = start + (count + 1) by omega] at rest

/-- Where simulation never fails, the table of a circuit has a row for every assignment. -/
theorem truthTable_eq (narrow : c.lines ≤ maxEnumeratedInputs)
    (simulated : ∀ x, simulator c (Bits.pack c.lines x.testBit) = .ok (output x))
    (width : ∀ x, (output x).width = c.lines) :
    c.truthTable simulator = .ok (simulatedRows c.lines (2 ^ c.lines) output) := by
  have bound : c.lines ≤ 24 := narrow
  have room : 0 + 2 ^ c.lines ≤ 2 ^ c.lines := by omega
  have folded := foldFrom_addSimulated (by omega) simulated width room
  rw [Nat.zero_add] at folded
  unfold truthTable
  rw [require_of narrow, ok_bind, Nat.one_shiftLeft]
  exact folded

theorem simulatedRows_wellFormed {n : Nat} (narrow : n ≤ 64) (width : ∀ x, (output x).width = n) :
    (simulatedRows n (2 ^ n) output).WellFormed :=
  TruthTable.ofRows_wellFormed narrow (fun x _ => by simp [simulatedCube, Bits.toBools, width]) List.pairwise_lt_range
    fun _ => List.mem_range.mp

/-- The table of what the gates of a circuit do. -/
def actRows (c : Circuit) : TruthTable :=
  simulatedRows c.lines (2 ^ c.lines) fun x => Bits.pack c.lines (act c.gates x.testBit)

theorem truthTable_simulate (narrow : c.lines ≤ maxEnumeratedInputs)
    (within : Within c.lines c.gates) : c.truthTable simulate = .ok c.actRows :=
  truthTable_eq narrow (fun x => simulate_inside within x.testBit) fun _ => Bits.pack_width _ _

theorem actRows_wellFormed (narrow : c.lines ≤ 64) : c.actRows.WellFormed :=
  simulatedRows_wellFormed narrow fun _ => Bits.pack_width _ _

theorem actRows_validOrder : c.actRows.ValidOrder (List.range c.lines) :=
  ⟨List.length_range, fun _ => List.mem_range.mp, List.nodup_range⟩

/-- A well-formed circuit that realizes the table of another one on the same lines computes what that one computes. -/
theorem RealizesTable.act_eq {d : Circuit} (formed : d.WellFormed) (lines : d.lines = c.lines)
    (realizes : d.RealizesTable c.actRows (List.range c.lines)) {x : Nat} (bound : x < 2 ^ c.lines) {i : Nat}
    (inside : i < c.lines) : act d.gates x.testBit i = act c.gates x.testBit i := by
  let output (x : Nat) : Bits := Bits.pack c.lines (act c.gates x.testBit)
  have row : TruthTable.rowOf c.lines (simulatedCube output) x ∈ c.actRows.rows := by
    rw [actRows, simulatedRows, TruthTable.rows_ofRows]
    exact List.mem_map_of_mem (List.mem_range.mpr bound)
  obtain ⟨out, simulated, entries⟩ := realizes _ row
  have computed := simulate_pack formed x.testBit
  rw [lines] at computed
  cases computed.symm.trans simulated
  have entry : (i, some (act c.gates x.testBit i)) ∈ (List.range c.lines).zip (simulatedCube output x) := by
    refine List.mem_iff_getElem.mpr ⟨i, by simp [simulatedCube, output, inside], ?_⟩
    simp [simulatedCube, output]
  have got := entries i _ entry
  rw [Bits.get_pack inside] at got
  exact Except.ok.inj got

/-- Any values of at most 64 lines are the inputs of a row, so the table settles all of them. -/
theorem RealizesTable.act_agrees {d : Circuit} (formed : d.WellFormed) (lines : d.lines = c.lines)
    (realizes : d.RealizesTable c.actRows (List.range c.lines)) (within : Within c.lines c.gates)
    (narrow : c.lines ≤ 64) : ∀ σ, ∀ i < c.lines, act d.gates σ i = act c.gates σ i := by
  intro σ i inside
  obtain ⟨x, number, agree⟩ := Bits.exists_testBit_eq narrow σ
  have withinOther : Within c.lines d.gates := lines ▸ formed.inside
  have left := act_congr (S := {line | line < c.lines}) withinOther agree i inside
  have right := act_congr (S := {line | line < c.lines}) within agree i inside
  exact left.trans ((realizes.act_eq formed lines number inside).trans right.symm)

end Circuit

namespace Replacement

/-- What resynthesis builds on the lines of a circuit computes what the circuit computes. -/
theorem resynthesis_act {synthesizer : Synthesizer} (realizing : synthesizer.Realizing) {maxLines : Nat} {c : Circuit}
    (inside : Circuit.Within c.lines c.gates) {synthesis : Synthesis} {d : Circuit}
    (run : resynthesis simulate synthesizer maxLines c = .ok synthesis) (built : synthesis.outcome = .ok d)
    (lines : d.lines = c.lines) : d.WellFormed ∧
      ∀ σ, ∀ i < c.lines, Circuit.act d.gates σ i = Circuit.act c.gates σ i := by
  unfold resynthesis at run
  split at run
  · cases run
    cases built
  obtain ⟨table, tabulated, synthesized⟩ := bind_eq_ok.mp run
  have narrow : c.lines ≤ maxEnumeratedInputs := by
    unfold Circuit.truthTable at tabulated
    exact (require_bind_eq_ok.mp tabulated).1
  have bound : c.lines ≤ 24 := narrow
  cases (Circuit.truthTable_simulate narrow inside).symm.trans tabulated
  have formedTable : c.actRows.WellFormed := Circuit.actRows_wellFormed (by omega)
  obtain ⟨proper, realizes⟩ := realizing
  obtain ⟨found, same, formed⟩ := proper _ _ formedTable Circuit.actRows_validOrder
  cases same.symm.trans synthesized
  have realized := realizes _ _ _ d formedTable Circuit.actRows_validOrder synthesized built lines
  exact ⟨formed d built, realized.act_agrees (formed d built) lines inside (by omega)⟩

end Replacement

end Reversible
