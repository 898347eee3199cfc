import Reversible.Proofs.Expansion
import Reversible.Proofs.LineReduction.States

namespace Reversible

namespace Circuit

variable {c : Circuit} {start stop : Nat} {filter : List Nat}

/-- From some state of all lines that agrees with the constants, the gates before the window leave its lines with the
bits of `y`. -/
def StartsWith (c : Circuit) (w : Window) (y : Nat) : Prop :=
  ∃ input state : Bits, input.Canonical ∧ input.width = c.lines ∧ c.Allows input.testBit ∧
    simulate (c.upTo w.offset) input = .ok state ∧ (state.pick w.filter).number = y

theorem number_pick_pack {n : Nat} (σ : Assignment) (inside : ∀ l ∈ filter, l < n) (fits : filter.length ≤ 64) :
    ((Bits.pack n σ).pick filter).number = numberOf (filter.map σ) := by
  unfold Bits.pick
  rw [number_ofBools (by rwa [List.length_map])]
  exact congrArg numberOf (List.map_congr_left fun l member => Bits.testBit_pack_of_lt (inside l member))

theorem Extent.startsWith_iff (extent : c.Extent start stop filter) (formed : c.WellFormed)
    (fits : filter.length ≤ 64) (y : Nat) : c.StartsWith (c.cut start stop filter) y ↔
      ∃ σ, c.Allows σ ∧ numberOf (filter.map (act (c.gates.take start) σ)) = y := by
  have lines : (c.upTo start).lines = c.lines := rfl
  have number := fun σ => number_pick_pack (act (c.gates.take start) σ) extent.inside fits
  constructor
  · rintro ⟨input, state, canonical, width, allowed, run, same⟩
    have simulated := simulate_eq_ok (formed.upTo start) canonical (width.trans lines.symm)
    cases simulated.symm.trans run
    exact ⟨input.testBit, allowed, (number _).symm.trans same⟩
  · rintro ⟨σ, allowed, same⟩
    refine ⟨_, _, Bits.pack_canonical c.lines σ, Bits.pack_width _ _, fun i inside => ?_,
      simulate_pack (formed.upTo start) σ, (number σ).trans same⟩
    rw [Bits.testBit_pack_of_lt inside]
    exact allowed i inside

end Circuit

namespace LineReduction

open Circuit

variable {r : LineReduction} {c : Circuit} {line : Nat}

/-- The states that line reduction takes the window behind a line to start with are those it can start with, no more
and no less. They are left open only if the window has gates before it and the number of free lines that play a part
up to its end reaches the limit. -/
theorem reachable_exact (simulates : r.simulator = simulate) (formed : c.WellFormed) (bound : Nat)
    (inside : line < c.lines) : ∃ w, c.windowBehind bound line = .ok w ∧
      (w.circuit.lines ≤ 63 → (c.inputsBefore w.stop w.filter).length ≤ 63 →
        ∃ result, r.reachable c w = .ok result ∧
          (∀ states, result = .ok states → ∀ y, y ∈ states ↔ c.StartsWith w y) ∧
          ∀ count, result = .error count ↔
            w.offset ≠ 0 ∧ r.variableLimit ≤ count ∧ count = (c.inputsBefore w.stop w.filter).length) := by
  obtain ⟨start, stop, filter, window, behind⟩ := windowBehind_spec formed bound inside
  have extent := behind.toExtent
  refine ⟨_, window, fun narrow few => ?_⟩
  rw [Extent.cut_lines] at narrow
  rw [extent.cut_stop, Extent.cut_filter] at few
  obtain ⟨result, reaches, limit, members⟩ :=
    reachable_spec r (simulates ▸ simulate_widthPreserving) formed extent narrow fun _ => few
  refine ⟨result, reaches, fun states found y => ?_, fun count => ?_⟩
  · rw [extent.startsWith_iff formed (by omega)]
    exact (members states found).2 simulates y
  · rw [extent.cut_stop, Extent.cut_filter]
    exact limit count

/-- The second gate reads what the first one leaves. -/
def chained : Circuit :=
  ⟨[⟨"a", "f", none, false⟩, ⟨"k", "g", some false, false⟩, ⟨"m", "h", some true, true⟩],
    [.toffoli (NatSet.ofList [0]) 1, .toffoli (NatSet.ofList [1]) 2]⟩

theorem reachable_exact_chained : chained.WellFormed ∧ ∃ w, chained.windowBehind 2 2 = .ok w ∧
    w.offset = 1 ∧ w.filter = [1, 2] ∧ ({} : LineReduction).reachable chained w = .ok (.ok (NatSet.ofList [2, 3])) ∧
    (∀ y, y ∈ NatSet.ofList [2, 3] ↔ chained.StartsWith w y) ∧
    ({ variableLimit := 1 } : LineReduction).reachable chained w = .ok (.error 1) := by
  have formed : chained.WellFormed := by decide +kernel
  have inside : 2 < chained.lines := by decide
  have window : chained.windowBehind 2 2 = .ok (chained.cut 1 2 [1, 2]) := by decide +kernel
  have states : ({} : LineReduction).reachable chained (chained.cut 1 2 [1, 2]) =
      .ok (.ok (NatSet.ofList [2, 3])) := by decide +kernel
  obtain ⟨_, found, exact⟩ := reachable_exact (r := {}) rfl formed 2 inside
  cases window.symm.trans found
  obtain ⟨_, reaches, members, _⟩ := exact (by decide) (by decide +kernel)
  cases states.symm.trans reaches
  obtain ⟨_, found, exact⟩ := reachable_exact (r := { variableLimit := 1 }) rfl formed 2 inside
  cases window.symm.trans found
  obtain ⟨_, limited, _, limit⟩ := exact (by decide) (by decide +kernel)
  refine ⟨formed, _, window, rfl, rfl, states, members _ rfl, ?_⟩
  rw [limited, (limit 1).mpr ⟨by decide, by decide, by decide +kernel⟩]

end LineReduction

end Reversible
