import Reversible.Proofs.Peephole.Selection
import Reversible.Proofs.Synthesis.Resynthesis

namespace Reversible

/-- What is proposed for a window, if it is on as many lines, is simulated like the window on every assignment. -/
def Replacement.Preserving (replacement : Replacement) : Prop :=
  ∀ (c : Circuit) w synthesis candidate, c.HasWindow w → replacement w.circuit = .ok synthesis →
    synthesis.outcome = .ok candidate → candidate.lines = w.lines →
      ∀ input : Bits, input.Canonical → input.width = w.lines → simulate candidate input = simulate w.circuit input

theorem Replacement.resynthesis_preserving {synthesizer : Synthesizer} (realizing : synthesizer.Realizing)
    (maxLines : Nat) : (resynthesis simulate synthesizer maxLines).Preserving := by
  intro c w synthesis candidate window run built lines input canonical width
  obtain ⟨start, stop, filter, extent, rfl⟩ := window.extent
  obtain ⟨formed, same⟩ := resynthesis_act realizing extent.cut_within run built lines
  exact (Circuit.simulate_eq_iff extent.cut_within formed.inside lines).mpr same input canonical width

namespace Peephole

variable {σ : Type} {o : Peephole σ} {c d : Circuit} {w : Window} {candidate : Circuit} {old new : UInt64}

/-- The circuits have the same wires, and their gates, which stay within the lines, do the same. -/
structure Agrees (c d : Circuit) : Prop where
  wires : d.wires = c.wires
  within : Circuit.Within d.lines d.gates
  act : ∀ τ, Circuit.act d.gates τ = Circuit.act c.gates τ

theorem Accepts.agrees (accepts : o.Accepts c w candidate old new d) (window : c.HasWindow w)
    (preserving : o.replacement.Preserving) (within : Circuit.Within c.lines c.gates) : Agrees c d := by
  obtain ⟨synthesis, run, built⟩ := accepts.proposed
  have same := preserving c w synthesis candidate window run built accepts.width
  obtain ⟨start, stop, filter, extent, rfl⟩ := window.extent
  obtain ⟨width, bound, rfl⟩ := Circuit.of_replaceWindow accepts.placed
  refine ⟨rfl, Circuit.replaced_within within extent.placed rfl bound, extent.act_replaced bound ?_⟩
  have candidateWithin : Circuit.Within candidate.lines candidate.gates := width ▸ bound
  have lines : (c.cut start stop filter).circuit.lines = filter.length := Circuit.Extent.cut_lines
  rw [← lines]
  exact (Circuit.simulate_eq_iff extent.cut_within candidateWithin accepts.width).mp same

theorem Reaches.agrees {start s : State σ} (reached : o.Reaches start s) (faithful : o.select.Faithful)
    (preserving : o.replacement.Preserving) (within : Circuit.Within start.circuit.lines start.circuit.gates) :
    Agrees start.circuit s.circuit := by
  refine reached.invariant ⟨rfl, within, fun _ => rfl⟩ fun _ agreed selected accepts => ?_
  have agrees := accepts.agrees (faithful _ _ _ selected) preserving agreed.within
  exact ⟨agrees.wires.trans agreed.wires, agrees.within, fun τ => (agrees.act τ).trans (agreed.act τ)⟩

/-- A run that ends keeps the wires and what is simulated on any assignment to all lines. -/
theorem run_preserves_function (faithful : o.select.Faithful) (preserving : o.replacement.Preserving)
    (formed : c.WellFormed) {selector : σ} {s : State σ} (run : o.run selector c = .ok (some s)) :
    s.circuit.wires = c.wires ∧ ∀ input : Bits, input.Canonical → input.width = c.lines →
      ∃ output, simulate c input = .ok output ∧ simulate s.circuit input = .ok output := by
  obtain ⟨wires, within, same⟩ := (run_reaches run).agrees faithful preserving formed.inside
  have lines : s.circuit.lines = c.lines := congrArg List.length wires
  refine ⟨wires, fun input canonical width => ?_⟩
  have alike := (Circuit.simulate_eq_iff formed.inside within lines).mpr (fun τ i _ => congrFun (same τ) i)
    input canonical width
  have simulated := Circuit.simulate_eq_ok formed canonical width
  exact ⟨_, simulated, alike.trans simulated⟩

/-- The first gate does nothing together with the third, as the second one leaves its lines alone. -/
def cancelling : Circuit :=
  ⟨[⟨"a", "f", none, false⟩, ⟨"b", "g", some true, false⟩, ⟨"c", "h", none, true⟩],
    [.toffoli (NatSet.ofList [0]) 1, .toffoli .empty 2, .toffoli (NatSet.ofList [0]) 1]⟩

/-- Windows of neighbouring gates are synthesized again, and the fewer gates the better. -/
def resynthesizing : Peephole Sliding :=
  ⟨Sliding.select, Replacement.resynthesis simulate ({} : Transformation).synthesizer 16, CostModel.gateCount⟩

theorem run_preserves_function_cancelling : resynthesizing.select.Faithful ∧ resynthesizing.replacement.Preserving ∧
    cancelling.WellFormed ∧ ∃ s, resynthesizing.run { length := 3 } cancelling = .ok (some s) ∧ s.report.replaced = 1 ∧
      s.circuit.gates = [.toffoli .empty 2] ∧ s.circuit.wires = cancelling.wires ∧
      ∀ input : Bits, input.Canonical → input.width = 3 →
        ∃ output, simulate cancelling input = .ok output ∧ simulate s.circuit input = .ok output := by
  have faithful : resynthesizing.select.Faithful := Sliding.select_faithful
  have preserving : resynthesizing.replacement.Preserving :=
    Replacement.resynthesis_preserving (Transformation.synthesizer_realizing {} (by decide)) 16
  have formed : cancelling.WellFormed := by decide
  have ends : (resynthesizing.run { length := 3 } cancelling).map
      (Option.map fun s => (s.report.replaced, s.circuit.gates)) = .ok (some (1, [.toffoli .empty 2])) := by
    decide +kernel
  obtain ⟨s, run, views⟩ := exists_of_map_map_eq ends
  obtain ⟨replaced, gates⟩ := Prod.mk.inj views
  obtain ⟨wires, same⟩ := run_preserves_function faithful preserving formed run
  exact ⟨faithful, preserving, formed, s, run, replaced, gates, wires, same⟩

end Peephole

end Reversible
