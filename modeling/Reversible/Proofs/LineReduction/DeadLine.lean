import Reversible.Proofs.LineReduction.Window
import Reversible.Proofs.Merging

namespace Reversible

namespace Circuit

variable {c : Circuit} {line : Nat}

theorem isDead_iff : c.isDead line = true ↔ (c.constant line).isSome = true ∧
    ∀ g ∈ c.gates, line ∈ g.lines → g.isToffoli = true ∧ g.hasTarget line = true := by
  unfold isDead
  simp only [Bool.and_eq_true, List.all_eq_true, Bool.or_eq_true, Bool.not_eq_true', Gate.touches_eq_false,
    or_iff_not_imp_left, not_not]

theorem lt_lines_of_isDead (dead : c.isDead line = true) : line < c.lines :=
  lt_lines_of_constant (isDead_iff.mp dead).1

/-- A target of a gate is none of its controls, so that a dead line controls nothing. -/
theorem isDead_iff_of_wellFormed (formed : c.WellFormed) : c.isDead line = true ↔ (c.constant line).isSome = true ∧
    (∀ g ∈ c.gates, line ∉ g.controls) ∧ ∀ g ∈ c.gates, line ∈ g.targets → g.isToffoli = true := by
  rw [isDead_iff, ← forall₂_and]
  refine and_congr_right' (forall₂_congr fun g member => ?_)
  have targets : g.hasTarget line = true ↔ line ∈ g.targets := List.contains_iff_mem
  rw [targets, Gate.mem_lines]
  constructor
  · intro dead
    refine ⟨fun control => ?_, fun target => (dead (Or.inr target)).1⟩
    exact (Gate.lines_nodup_iff.mp (formed g member).1).2 line (dead (Or.inl control)).2 control
  · rintro ⟨uncontrolled, inverts⟩ touched
    have target := touched.resolve_left uncontrolled
    exact ⟨inverts target, target⟩

theorem filterGates_wellFormed (formed : c.WellFormed) (keep : Gate → Bool) :
    (c.filterGates keep).WellFormed := fun g member => formed g (List.mem_filter.mp member).1

/-- Without the gates that target a dead line the other lines get the same values. -/
theorem act_without_dead {gates : List Gate}
    (dead : ∀ g ∈ gates, line ∈ g.lines → g.isToffoli = true ∧ g.hasTarget line = true) {σ τ : Assignment}
    (agree : ∀ i, i ≠ line → τ i = σ i) :
    ∀ i, i ≠ line → act (gates.filter fun g => !g.hasTarget line) τ i = act gates σ i := by
  induction gates generalizing σ τ with
  | nil => exact agree
  | cons g rest ih =>
    have deadRest := fun other member => dead other (List.mem_cons_of_mem g member)
    by_cases target : g.hasTarget line = true
    · rw [List.filter_cons_of_neg (by simp [target])]
      refine ih deadRest fun i different => ?_
      have inverts := (dead g List.mem_cons_self (Gate.touches_iff.mp (by simp [Gate.touches, target]))).1
      have kept : i ∉ g.targets := by
        cases g with
        | toffoli cs t =>
          have same : line = t := by simpa [Gate.hasTarget, Gate.targets] using target
          simpa [Gate.targets, ← same] using different
        | fredkin cs a b => cases inverts
      rw [agree i different, Gate.act_of_not_target kept]
    · rw [List.filter_cons_of_pos (by simp [target])]
      have untouched : line ∉ g.lines := fun touched => target (dead g List.mem_cons_self touched).2
      refine ih deadRest fun i different => ?_
      exact Gate.act_congr (S := {i | i ≠ line}) (fun l touched same => untouched (same ▸ touched)) agree i different

end Circuit

namespace LineReduction

open Circuit

variable {c : Circuit} {line : Nat}

/-- The circuit without a dead line and the gates on it. -/
def withoutDead (c : Circuit) (line : Nat) : Circuit := (c.filterGates fun g => !g.hasTarget line).dropped line

theorem untouched_of_isDead (dead : c.isDead line = true) :
    ∀ g ∈ (c.filterGates fun g => !g.hasTarget line).gates, line ∉ g.lines := by
  intro g member touched
  obtain ⟨inGates, kept⟩ := List.mem_filter.mp member
  rw [((isDead_iff.mp dead).2 g inGates touched).2] at kept
  cases kept

theorem dropLine_eq_withoutDead (formed : c.WellFormed) (dead : c.isDead line = true) :
    (c.filterGates fun g => !g.hasTarget line).dropLine line = .ok (withoutDead c line) := by
  have inside : line < c.lines := lt_lines_of_isDead dead
  exact dropLine_eq_dropped (filterGates_wellFormed formed _) inside (untouched_of_isDead dead)

theorem withoutDead_lines (dead : c.isDead line = true) : (withoutDead c line).lines = c.lines - 1 := by
  have inside : line < c.lines := lt_lines_of_isDead dead
  exact dropped_lines (c := c.filterGates fun g => !g.hasTarget line) inside

theorem withoutDead_wellFormed (formed : c.WellFormed) (dead : c.isDead line = true) :
    (withoutDead c line).WellFormed := by
  have inside : line < c.lines := lt_lines_of_isDead dead
  exact dropped_wellFormed (filterGates_wellFormed formed _) inside (untouched_of_isDead dead)

/-- From what the other lines hold, whatever the dead one holds, the rest of the circuit does what it did. -/
theorem act_withoutDead (formed : c.WellFormed) (dead : c.isDead line = true) {σ τ : Assignment}
    (start : ∀ i < c.lines, i ≠ line → τ (closeGap line i) = σ i) :
    ∀ i < c.lines, i ≠ line → act (withoutDead c line).gates τ (closeGap line i) = act c.gates σ i := by
  have inside : line < c.lines := lt_lines_of_isDead dead
  intro i below different
  have renumbered := act_dropped (filterGates_wellFormed formed fun g => !g.hasTarget line) inside
    (untouched_of_isDead dead) start i below different
  exact renumbered.trans (act_without_dead (isDead_iff.mp dead).2 (fun _ _ => rfl) i different)

/-- A line is dead if it is constant, controls no gate and is inverted at most. Such a line can be dropped together
with the gates that target it. The other lines keep their wires, and from every assignment to all lines, also one
against the constants, they end with what they ended with. -/
theorem withoutDead_simulates (formed : c.WellFormed) (line : Nat) :
    (c.isDead line = true ↔ (c.constant line).isSome = true ∧ (∀ g ∈ c.gates, line ∉ g.controls) ∧
      ∀ g ∈ c.gates, line ∈ g.targets → g.isToffoli = true) ∧
    (c.isDead line = true → ∃ d, (c.filterGates fun g => !g.hasTarget line).dropLine line = .ok d ∧
      d.WellFormed ∧ d.lines + 1 = c.lines ∧ d.wires = c.wires.eraseIdx line ∧
      ∀ input : Bits, input.Canonical → input.width = c.lines →
        ∃ final, simulate c input = .ok final ∧ simulate d (input.erase line) = .ok (final.erase line)) := by
  refine ⟨isDead_iff_of_wellFormed formed, fun dead => ?_⟩
  have inside : line < c.lines := lt_lines_of_isDead dead
  have lines : (withoutDead c line).lines = c.lines - 1 := withoutDead_lines dead
  refine ⟨withoutDead c line, dropLine_eq_withoutDead formed dead, withoutDead_wellFormed formed dead, by omega, rfl,
    fun input canonical width => ⟨_, simulate_eq_ok formed canonical width, ?_⟩⟩
  have erased : (input.erase line).width = (withoutDead c line).lines := by
    rw [Bits.erase_width (width ▸ inside), width, lines]
  have start : ∀ i < c.lines, i ≠ line → (input.erase line).testBit (closeGap line i) = input.testBit i :=
    fun i below different => Bits.testBit_erase (width ▸ below) different
  rw [simulate_eq_ok (withoutDead_wellFormed formed dead) (Bits.erase_canonical input line) erased, lines,
    Bits.erase_pack inside (act_withoutDead formed dead start)]

/-- Line 1 is inverted by the first, the third and the last gate, and read by none. -/
def inverting : Circuit :=
  { wires := [⟨"a", "x", none, false⟩, ⟨"zero", "scrap", some false, true⟩, ⟨"b", "y", none, false⟩,
      ⟨"one", "z", some true, false⟩]
    gates := [.toffoli (NatSet.ofList [0]) 1, .toffoli (NatSet.ofList [0, 3]) 2, .toffoli (NatSet.ofList [2]) 1,
      .fredkin (NatSet.ofList [0]) 2 3, .toffoli .empty 1] }

/-- The gates that stay are renumbered above the line that goes, and need not see what it held. -/
theorem withoutDead_simulates_inverting : inverting.WellFormed ∧ inverting.isDead 1 = true ∧
    inverting.isDead 3 = false ∧ ∃ d, (inverting.filterGates fun g => !g.hasTarget 1).dropLine 1 = .ok d ∧
      d.gates = [.toffoli (NatSet.ofList [0, 2]) 1, .fredkin (NatSet.ofList [0]) 1 2] ∧
      d.wires.map Wire.input = ["a", "b", "one"] ∧
      simulate inverting (Bits.ofBools [true, true, true, true]) = .ok (Bits.ofBools [true, true, true, false]) ∧
      simulate d (Bits.ofBools [true, true, true]) = .ok (Bits.ofBools [true, true, false]) := by
  have formed : inverting.WellFormed := by decide
  have dead : inverting.isDead 1 = true := by decide
  have all : simulate inverting (Bits.ofBools [true, true, true, true]) =
      .ok (Bits.ofBools [true, true, true, false]) := by decide
  obtain ⟨d, drops, -, -, wires, computes⟩ := (withoutDead_simulates formed 1).2 dead
  obtain ⟨final, ends, without⟩ := computes (Bits.ofBools [true, true, true, true]) (Bits.ofBools_canonical _) rfl
  cases all.symm.trans ends
  refine ⟨formed, dead, by decide, d, drops, ?_, by rw [wires]; rfl, all, without⟩
  cases drops
  rfl

end LineReduction

end Reversible
