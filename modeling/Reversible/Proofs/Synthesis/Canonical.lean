import Reversible.Proofs.Reversal
import Reversible.Proofs.Synthesis.Uniform

namespace Reversible

/-- A table without open outputs that asks for no outputs twice is always completed. -/
theorem TruthTable.embed_of_nodup {t : TruthTable} {order : List Nat} {maxLines : Nat} (formed : t.WellFormed)
    (ordered : t.ValidOrder order) (limit : t.inputs ≤ maxLines) (narrow : t.inputs ≤ 63)
    (settled : ∀ row ∈ t.rows, none ∉ row.2) (distinct : (t.rows.map Prod.snd).Nodup) :
    ∃ perm, t.embed order maxLines = .ok (.ok perm) := by
  have fixes : ∀ row ∈ t.rows, Embedding.Fixes order order row.2 := by
    intro row member
    have none : row.2.OpenAt ∅ := fun k _ =>
      iff_of_false (fun found => settled row member (List.mem_of_getElem? found)) (Finset.notMem_empty k)
    have fixed := Embedding.fixes_of_openAt none
      ((formed.outputs row (List.mem_reverse.mp member)).trans ordered.1.symm)
    rwa [Embedding.linesOutside_empty] at fixed
  have embedded := t.embed_crowded formed ordered limit narrow fixes
  obtain ⟨before, after, split, found, -, full⟩ := crowded?_spec t.rows
    (show ∀ cube, ([] : List (Bits × Cube)).countP (·.2 == cube) ≤ 2 ^ (t.inputs - order.length) from
      fun _ => Nat.zero_le _)
  rw [found] at embedded
  cases after with
  | nil => exact embedded
  | cons row rest =>
    -- There is room for one row, so some row before this one has the same outputs.
    have earlier : 0 < before.countP (·.2 == row.2) := by
      have count := full row rfl
      rw [List.append_nil] at count
      exact count ▸ Nat.two_pow_pos _
    obtain ⟨other, member, same⟩ := List.countP_pos_iff.mp earlier
    rw [split, List.map_append, List.nodup_append] at distinct
    exact absurd (beq_iff_eq.mp same) (distinct.2.2 _ (List.mem_map_of_mem member) _ (by simp))

/-- Without a limit the circuit for a table that can be completed is always built, and it realizes the table. -/
theorem Transformation.synthesizer_builds {s : Transformation} (unlimited : s.gateLimit = none) {t : TruthTable}
    (formed : t.WellFormed) (narrow : t.inputs ≤ 63) {order : List Nat} (ordered : t.ValidOrder order)
    {perm : Array Nat} (embedded : t.embed order s.maxLines = .ok (.ok perm)) :
    ∃ synthesis c, s.synthesizer t order = .ok synthesis ∧ synthesis.outcome = .ok c ∧ c.WellFormed ∧
      c.lines = t.inputs ∧ c.RealizesTable t order := by
  obtain ⟨_, embeds, spec⟩ := t.embed_spec formed order ((Nat.min_le_left _ s.maxLines).trans narrow)
  cases embeds.symm.trans embedded
  obtain ⟨-, permutes, allowed⟩ := spec perm rfl
  obtain ⟨built, builds, realizes, finishes⟩ := permutation_spec s narrow permutes
  obtain ⟨c, rfl⟩ := finishes unlimited
  have circuit := realizes c rfl
  refine ⟨{ outcome := .ok c, events := [.tableSynthesized t.size t.inputs c.size] }, c, ?_, rfl, circuit.formed,
    circuit.lines, circuit.table formed ordered (by omega) allowed⟩
  unfold synthesizer
  simp only [embedded, builds, ok_bind, pure_eq_ok]

/-- The table of a circuit depends on nothing but what its gates do to its lines. -/
theorem Circuit.actRows_congr {v w : Circuit} (lines : v.lines = w.lines)
    (same : ∀ σ, ∀ i < w.lines, act v.gates σ i = act w.gates σ i) : v.actRows = w.actRows := by
  have outputs : (fun x : Nat => Bits.pack w.lines (act v.gates x.testBit)) =
      fun x : Nat => Bits.pack w.lines (act w.gates x.testBit) := funext fun x => Bits.pack_congr (same x.testBit)
  unfold actRows
  rw [lines, outputs]

namespace Replacement

variable {s : Transformation} {maxLines : Nat} {v w : Circuit}

/-- Within its limits resynthesis sees nothing of a circuit but its table. -/
theorem resynthesis_eq (synthesizer : Synthesizer) (formed : w.WellFormed) (own : w.lines ≤ maxLines)
    (enumerable : w.lines ≤ maxEnumeratedInputs) :
    resynthesis simulate synthesizer maxLines w = synthesizer w.actRows (List.range w.lines) := by
  unfold resynthesis
  rw [if_neg (Nat.not_lt.mpr own), Circuit.truthTable_simulate enumerable formed.inside, ok_bind]

/-- As no outputs are asked for twice, the table of a circuit is always completed, and a circuit for it is built. -/
theorem resynthesis_builds (unlimited : s.gateLimit = none) (formed : w.WellFormed) (own : w.lines ≤ maxLines)
    (enumerable : w.lines ≤ maxEnumeratedInputs) (limit : w.lines ≤ s.maxLines) :
    ∃ synthesis c, resynthesis simulate s.synthesizer maxLines w = .ok synthesis ∧ synthesis.outcome = .ok c ∧
      c.WellFormed ∧ c.lines = w.lines ∧ ∀ σ, ∀ i < w.lines, Circuit.act c.gates σ i = Circuit.act w.gates σ i := by
  have narrow : w.lines ≤ 24 := enumerable
  have table : w.actRows.WellFormed := Circuit.actRows_wellFormed (by omega)
  have settled : ∀ row ∈ w.actRows.rows, none ∉ row.2 := by
    intro row member
    rw [formed.rows_actRows] at member
    obtain ⟨x, -, rfl⟩ := List.mem_map.mp member
    simp [Circuit.tableRow]
  obtain ⟨perm, embedded⟩ := w.actRows.embed_of_nodup table Circuit.actRows_validOrder limit
    (show w.lines ≤ 63 by omega) settled (formed.cubes_nodup (by omega))
  obtain ⟨synthesis, c, run, built, formedC, lines, realizes⟩ := Transformation.synthesizer_builds unlimited table
    (show w.lines ≤ 63 by omega) Circuit.actRows_validOrder embedded
  refine ⟨synthesis, c, ?_, built, formedC, lines, realizes.act_agrees formedC lines formed.inside (by omega)⟩
  rw [resynthesis_eq _ formed own enumerable, run]

/-- Resynthesis within its limits always builds a circuit. What it builds computes the function of the given circuit and
depends on nothing else, so that resynthesis does not change it again. -/
theorem resynthesis_canonical (unlimited : s.gateLimit = none) (formed : w.WellFormed) (own : w.lines ≤ maxLines)
    (enumerable : w.lines ≤ maxEnumeratedInputs) (limit : w.lines ≤ s.maxLines) :
    ∃ synthesis c, resynthesis simulate s.synthesizer maxLines w = .ok synthesis ∧ synthesis.outcome = .ok c ∧
      c.WellFormed ∧ c.lines = w.lines ∧
      (∀ input ∈ Bits.assignments w.lines, ∃ output, simulate w input = .ok output ∧ simulate c input = .ok output) ∧
      (∀ v : Circuit, v.WellFormed → v.lines = w.lines →
        ((∀ input ∈ Bits.assignments w.lines, simulate v input = simulate w input) ↔
          resynthesis simulate s.synthesizer maxLines v = .ok synthesis)) ∧
      resynthesis simulate s.synthesizer maxLines c = .ok synthesis := by
  obtain ⟨synthesis, c, run, built, formedC, lines, acts⟩ := resynthesis_builds unlimited formed own enumerable limit
  -- Circuits that act alike have the same table.
  have again {v : Circuit} (formedV : v.WellFormed) (linesV : v.lines = w.lines)
      (same : ∀ σ, ∀ i < w.lines, Circuit.act v.gates σ i = Circuit.act w.gates σ i) :
      resynthesis simulate s.synthesizer maxLines v = .ok synthesis := by
    rw [resynthesis_eq _ formedV (linesV ▸ own) (linesV ▸ enumerable), Circuit.actRows_congr linesV same, linesV,
      ← resynthesis_eq s.synthesizer formed own enumerable, run]
  refine ⟨synthesis, c, run, built, formedC, lines, fun input given => ?_, fun v formedV linesV => ?_,
    again formedC lines acts⟩
  · have simulated := formed.simulate_image given
    exact ⟨_, simulated, ((formed.simulate_eq_iff formedC lines).mpr acts input given).trans simulated⟩
  · rw [formed.simulate_eq_iff formedV linesV]
    refine ⟨again formedV linesV, fun runV σ i inside => ?_⟩
    obtain ⟨_, d, found, builtD, -, -, actsV⟩ :=
      resynthesis_builds unlimited formedV (linesV ▸ own) (linesV ▸ enumerable) (linesV ▸ limit)
    cases found.symm.trans runV
    cases builtD.symm.trans built
    exact (actsV σ i (linesV ▸ inside)).symm.trans (acts σ i inside)

/-- The same function with a gate in front that is undone at once. -/
def detour (n : Nat) : Circuit :=
  { Circuit.reaching n with gates := .toffoli .empty 0 :: .toffoli .empty 0 :: (Circuit.reaching n).gates }

theorem resynthesis_canonical_detour : ({} : Transformation).gateLimit = none ∧ (Circuit.reaching 3).WellFormed ∧
    (detour 3).WellFormed ∧ (Circuit.reaching 3).lines ≤ 16 ∧ (Circuit.reaching 3).lines ≤ maxEnumeratedInputs ∧
    (Circuit.reaching 3).lines ≤ ({} : Transformation).maxLines ∧
    ∃ synthesis c, resynthesis simulate ({} : Transformation).synthesizer 16 (Circuit.reaching 3) = .ok synthesis ∧
      synthesis.outcome = .ok c ∧ c.WellFormed ∧ c.lines = 3 ∧
      (∀ input ∈ Bits.assignments 3, ∃ output,
        simulate (Circuit.reaching 3) input = .ok output ∧ simulate c input = .ok output) ∧
      resynthesis simulate ({} : Transformation).synthesizer 16 (detour 3) = .ok synthesis ∧
      resynthesis simulate ({} : Transformation).synthesizer 16 c = .ok synthesis := by
  have formed : (Circuit.reaching 3).WellFormed := by decide
  have formedDetour : (detour 3).WellFormed := by decide
  have own : (Circuit.reaching 3).lines ≤ 16 := by decide
  have enumerable : (Circuit.reaching 3).lines ≤ maxEnumeratedInputs := by decide
  have limit : (Circuit.reaching 3).lines ≤ ({} : Transformation).maxLines := by decide
  obtain ⟨synthesis, c, run, built, formedC, lines, simulated, canonical, again⟩ :=
    resynthesis_canonical (s := {}) rfl formed own enumerable limit
  have same := (formed.simulate_eq_iff formedDetour rfl).mpr fun σ i _ => by
    rw [detour, Circuit.act_cons, Circuit.act_cons, Gate.act_act (by decide)]
  exact ⟨rfl, formed, formedDetour, own, enumerable, limit, synthesis, c, run, built, formedC, lines, simulated,
    (canonical _ formedDetour rfl).mp same, again⟩

/-- The exchange becomes three inverters. -/
example : ((resynthesis simulate ({} : Transformation).synthesizer 16 (detour 3)).toOption.bind
    fun synthesis => synthesis.outcome.toOption).map Circuit.gates =
      some [.toffoli (NatSet.ofList [0, 2]) 1, .toffoli (NatSet.ofList [0, 1]) 2, .toffoli (NatSet.ofList [0, 2]) 1,
        .toffoli (NatSet.ofList [2]) 0] := by decide +kernel

end Replacement

end Reversible
