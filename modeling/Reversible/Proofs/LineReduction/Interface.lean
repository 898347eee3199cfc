import Reversible.Proofs.LineReduction.Run

namespace Reversible

/-- The names of the outputs that are read, in the order of the lines. -/
def Circuit.readOutputs (c : Circuit) : List String := (c.wires.filter (!·.garbage)).map (·.output)

theorem Circuit.readOutputs_eq_map (c : Circuit) :
    c.readOutputs = ((List.range c.lines).filter (!c.garbage ·)).map fun i => (c.wire i).output := by
  unfold readOutputs
  conv_lhs => rw [wires_eq_map, List.filter_map, List.map_map]
  rfl

namespace LineReduction

open Circuit

variable {r : LineReduction} {c d : Circuit} {origin moved : List Nat} {line : Nat} {place : Nat → Nat}

theorem Reduces.readOutputs (reduces : Reduces c origin line place d moved) (unread : c.garbage line = true) :
    d.readOutputs.Perm c.readOutputs := by
  rw [readOutputs_eq_map, readOutputs_eq_map]
  refine ((reduces.read_perm unread).symm.map _).trans (List.Perm.of_eq ?_)
  rw [List.map_map]
  refine List.map_congr_left fun i member => ?_
  obtain ⟨inside, read⟩ : i < c.lines ∧ c.garbage i = false := by simpa using member
  exact reduces.output i inside (ne_of_read read unread)

/-- However many garbage lines go, the free lines keep their names and their order, and no output that is read is
lost. -/
theorem Shrunk.interface (shrunk : Shrunk r c d) :
    d.freeInputs = c.freeInputs ∧ d.readOutputs.Perm c.readOutputs := by
  induction shrunk with
  | start => exact ⟨rfl, List.Perm.refl _⟩
  | next _ unread reduces _ ih => exact ⟨reduces.inputs.trans ih.1, (reduces.readOutputs unread).trans ih.2⟩

/-- Whatever the plugged-in parts answer, line reduction ends with a well-formed circuit that has the inputs of the
given one in the same order, and the same outputs. -/
theorem run_keeps_interface (runnable : r.Runnable) (formed : c.WellFormed) :
    ∃ s, r.run c = .ok s ∧ s.next? = none ∧ s.circuit.WellFormed ∧ s.circuit.freeInputs = c.freeInputs ∧
      s.circuit.readOutputs.Perm c.readOutputs := by
  obtain ⟨s, runs, progress, done⟩ := run_progress runnable formed
  exact ⟨s, runs, done, progress.formed, progress.shrunk.interface⟩

/-- Simulation that computes nothing, and synthesis that builds nothing. -/
def careless : LineReduction := { simulator := Simulator.identity, synthesizer := Synthesizer.blank 0 }

theorem careless_runnable : careless.Runnable where
  windows := by decide
  grown := by decide
  enumerable := by decide
  preserving := fun _ input _ _ width => ⟨input, rfl, width⟩
  proper := fun _ _ _ _ => ⟨_, rfl, fun _ built => by cases built; exact nofun⟩

theorem run_keeps_interface_careless : careless.Runnable ∧ copies.WellFormed ∧
    (careless.run copies).map (fun s => (s.tally.removed, s.circuit.readOutputs)) = .ok (1, ["k", "f", "h"]) ∧
    ∃ s, careless.run copies = .ok s ∧ s.next? = none ∧ s.circuit.WellFormed ∧ s.circuit.freeInputs = ["a"] ∧
      s.circuit.readOutputs.Perm ["f", "h", "k"] := by
  have formed : copies.WellFormed := by decide
  have reduced : (careless.run copies).map (fun s => (s.tally.removed, s.circuit.readOutputs)) =
      .ok (1, ["k", "f", "h"]) := by decide +kernel
  exact ⟨careless_runnable, formed, reduced, run_keeps_interface careless_runnable formed⟩

end LineReduction

end Reversible
