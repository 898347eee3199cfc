import Reversible.Proofs.LineReduction.Run

namespace Reversible

namespace Circuit

variable {c : Circuit}

/-- The assignment to all lines when the named inputs have the values of `v`. -/
def inputFor (c : Circuit) (v : String → Bool) : Bits := Bits.ofBools (c.wires.map (·.start v))

/-- The outputs that are read, each name with its value. -/
def namedOutputs (c : Circuit) (σ : Assignment) : List (String × Bool) :=
  c.observables.map fun (name, line) => (name, σ line)

theorem inputFor_eq_pack (c : Circuit) (v : String → Bool) : c.inputFor v = Bits.pack c.lines (c.wired v) := by
  unfold inputFor
  rw [Bits.ofBools_eq_pack, List.length_map]
  refine Bits.pack_congr fun i inside => ?_
  have bound : i < c.wires.length := inside
  simp [wired, wire, List.getD_eq_getElem?_getD, bound]

theorem simulate_inputFor (formed : c.WellFormed) (v : String → Bool) :
    simulate c (c.inputFor v) = .ok (Bits.pack c.lines (act c.gates (c.wired v))) := by
  rw [inputFor_eq_pack]
  exact simulate_pack formed _

theorem observables_eq_map (c : Circuit) : c.observables =
    ((List.range c.lines).filter (!c.garbage ·)).map fun i => ((c.wire i).output, i) := by
  have wires : c.wires.zipIdx = (List.range c.lines).map fun i => (c.wire i, i) :=
    List.ext_getElem (by simp [lines]) fun i inside _ => by
      rw [List.length_zipIdx] at inside
      simp [wire, List.getD_eq_getElem?_getD, inside]
  unfold observables
  rw [wires, List.filter_map, List.map_map]
  rfl

theorem mem_observables {name : String} {i : Nat} (member : (name, i) ∈ c.observables) : i < c.lines := by
  rw [observables_eq_map] at member
  obtain ⟨j, kept, equal⟩ := List.mem_map.mp member
  cases equal
  exact List.mem_range.mp (List.mem_filter.mp kept).1

theorem map_fst_namedOutputs (c : Circuit) (σ : Assignment) :
    (c.namedOutputs σ).map Prod.fst = c.observables.map Prod.fst := by
  unfold namedOutputs
  rw [List.map_map]
  rfl

/-- Where no name is used twice, a name stands for one value. -/
theorem namedOutputs_unique {d : Circuit} {σ τ : Assignment} (distinct : (c.observables.map Prod.fst).Nodup)
    (perm : (d.namedOutputs τ).Perm (c.namedOutputs σ)) {name : String} {i j : Nat}
    (inC : (name, i) ∈ c.observables) (inD : (name, j) ∈ d.observables) : τ j = σ i := by
  have left : (name, σ i) ∈ c.namedOutputs σ := List.mem_map.mpr ⟨_, inC, rfl⟩
  have right : (name, τ j) ∈ c.namedOutputs σ := perm.mem_iff.mp (List.mem_map.mpr ⟨_, inD, rfl⟩)
  rw [← map_fst_namedOutputs c σ] at distinct
  exact congrArg Prod.snd (List.inj_on_of_nodup_map distinct right left rfl)

end Circuit

namespace LineReduction

open Circuit

variable {r : LineReduction} {c d : Circuit} {origin moved : List Nat} {line : Nat} {place : Nat → Nat}

theorem Reduces.namedOutputs (reduces : Reduces c origin line place d moved) (unread : c.garbage line = true)
    (keeps : KeepsOutputs c place d) (v : String → Bool) :
    (d.namedOutputs (act d.gates (d.wired v))).Perm (c.namedOutputs (act c.gates (c.wired v))) := by
  unfold Circuit.namedOutputs
  rw [observables_eq_map, observables_eq_map, List.map_map, List.map_map]
  refine ((reduces.read_perm unread).symm.map _).trans (List.Perm.of_eq ?_)
  rw [List.map_map]
  refine List.map_congr_left fun i member => ?_
  obtain ⟨inside, read⟩ : i < c.lines ∧ c.garbage i = false := by simpa using member
  simp only [Function.comp_apply, reduces.output i inside (ne_of_read read unread), keeps v i inside read]

/-- However many garbage lines go, inputs and outputs stay, by name and with their values. -/
theorem Shrunk.namedOutputs (shrunk : Shrunk r c d) (simulates : r.simulator = simulate)
    (realizing : r.synthesizer.Realizing) : d.inputNames = c.inputNames ∧ ∀ v,
      (d.namedOutputs (act d.gates (d.wired v))).Perm (c.namedOutputs (act c.gates (c.wired v))) := by
  induction shrunk with
  | start => exact ⟨rfl, fun _ => List.Perm.refl _⟩
  | next earlier unread reduces keeps ih =>
    exact ⟨(inputNames_congr reduces.inputs).trans ih.1,
      fun v => (reduces.namedOutputs unread (keeps simulates realizing) v).trans (ih.2 v)⟩

/-- Line reduction never fails, and the circuit that it leaves has the same inputs and outputs by name. From all
values of the inputs every output has the value that it has in the given circuit. -/
theorem run_preserves_outputs (simulates : r.simulator = simulate)
    (realizing : (∃ t : Transformation, t.maxLines ≤ 63 ∧ r.synthesizer = t.synthesizer) ∨ r.synthesizer.Realizing)
    (windows : r.windowLines ≤ 63) (grown : r.growLimit ≤ 63) (enumerable : r.variableLimit ≤ 64)
    (formed : c.WellFormed) (distinct : (c.observables.map Prod.fst).Nodup) :
    ∃ s, r.run c = .ok s ∧ s.next? = none ∧ s.circuit.inputNames = c.inputNames ∧
      (s.circuit.observables.map Prod.fst).Perm (c.observables.map Prod.fst) ∧
      ∀ v, ∃ before after, simulate c (c.inputFor v) = .ok before ∧
        simulate s.circuit (s.circuit.inputFor v) = .ok after ∧
        ∀ name i j, (name, i) ∈ c.observables → (name, j) ∈ s.circuit.observables →
          ∃ value, before.get i = .ok value ∧ after.get j = .ok value := by
  have realizing : r.synthesizer.Realizing := by
    rcases realizing with ⟨t, limit, equal⟩ | given
    · exact equal ▸ t.synthesizer_realizing limit
    · exact given
  have runnable : r.Runnable := ⟨windows, grown, enumerable, simulates ▸ simulate_widthPreserving, realizing.1⟩
  obtain ⟨s, runs, progress, done⟩ := run_progress runnable formed
  obtain ⟨inputs, outputs⟩ := progress.shrunk.namedOutputs simulates realizing
  refine ⟨s, runs, done, inputs, ?_, fun v => ⟨_, _, simulate_inputFor formed v,
    simulate_inputFor progress.formed v, ?_⟩⟩
  · have names := (outputs fun _ => false).map Prod.fst
    rwa [map_fst_namedOutputs, map_fst_namedOutputs] at names
  · intro name i j inC inD
    have same := namedOutputs_unique distinct (outputs v) inC inD
    exact ⟨_, Bits.get_pack (mem_observables inC), same ▸ Bits.get_pack (mem_observables inD)⟩

theorem run_preserves_outputs_copies : copies.WellFormed ∧ (copies.observables.map Prod.fst).Nodup ∧
    ∃ s, ({} : LineReduction).run copies = .ok s ∧ s.next? = none ∧ s.circuit.inputNames = copies.inputNames ∧
      (s.circuit.observables.map Prod.fst).Perm (copies.observables.map Prod.fst) ∧
      ∀ v, ∃ before after, simulate copies (copies.inputFor v) = .ok before ∧
        simulate s.circuit (s.circuit.inputFor v) = .ok after ∧
        ∀ name i j, (name, i) ∈ copies.observables → (name, j) ∈ s.circuit.observables →
          ∃ value, before.get i = .ok value ∧ after.get j = .ok value := by
  have formed : copies.WellFormed := by decide
  have distinct : (copies.observables.map Prod.fst).Nodup := by decide
  refine ⟨formed, distinct, run_preserves_outputs rfl (Or.inl ⟨{}, by decide, rfl⟩) ?_ ?_ ?_ formed distinct⟩
  · decide
  · decide
  · decide

end LineReduction

end Reversible
