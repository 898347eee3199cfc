import Reversible.Proofs.Peephole.Selection
import Reversible.Proofs.QuantumCost
import Reversible.Replacement
import Reversible.Synthesis.Transformation

namespace Reversible

/-- Among more lines no gate is dearer that fits on fewer than `limit` lines. -/
def CostModel.Easing (m : CostModel) (limit : Nat) : Prop :=
  ∀ (g : Gate) (lines : Nat), (∀ line ∈ g.lines, line < lines) → lines < limit → m.Eases g

theorem Gate.size_controls_le {g : Gate} {lines : Nat} (inside : ∀ line ∈ g.lines, line < lines) :
    g.controls.size ≤ lines :=
  length_le_of_lt g.controls.nodup fun line control => inside line (mem_lines.mpr (Or.inl control))

theorem Gate.size_rename_controls_le (ρ : Nat → Nat) (g : Gate) : (g.rename ρ).controls.size ≤ g.controls.size := by
  have size : (g.rename ρ).controls.size ≤ (g.controls.toList.map ρ).length :=
    NatSet.size_le_of_subset fun line control => List.mem_map.mpr (mem_rename_controls.mp control)
  rwa [List.length_map] at size

theorem CostModel.quantum_easing : quantum.Easing UInt32.size :=
  fun _ _ inside narrow => quantum_eases ((Gate.size_controls_le inside).trans_lt narrow)

namespace Peephole

open CostModel

variable {σ : Type} {o : Peephole σ} {limit : Nat} {c d : Circuit} {w : Window} {candidate : Circuit} {old new : UInt64}

/-- A replacement that is accepted makes the circuit cheaper if no gate of the window is cheaper among the lines of the
circuit than among those of the window. -/
theorem Accepts.total_lt (accepts : o.Accepts c w candidate old new d) (window : c.HasWindow w)
    (summing : o.cost.Summing) (blind : o.cost.Blind)
    (easing : o.cost.Easing limit) (narrow : c.lines < limit)
    (kept : ∀ g ∈ w.circuit.gates, o.cost.price w.lines g ≤ o.cost.price c.lines g)
    (priced : o.cost.Prices c.lines c.gates) :
    d.lines = c.lines ∧ o.cost.Prices c.lines d.gates ∧
      o.cost.total c.lines d.gates < o.cost.total c.lines c.gates := by
  obtain ⟨proposed, width, oldCost, newCost, cheaper, placed⟩ := accepts
  obtain ⟨start, stop, filter, extent, rfl⟩ := window.extent
  obtain ⟨lines, bound, rfl⟩ := Circuit.of_replaceWindow placed
  obtain ⟨-, oldSum⟩ := summing.circuitCost_eq_ok.mp oldCost
  obtain ⟨newPriced, newSum⟩ := summing.circuitCost_eq_ok.mp newCost
  have within : Circuit.Within candidate.lines candidate.gates := lines ▸ bound
  have fewer : candidate.lines ≤ c.lines := lines ▸ length_le_of_lt extent.distinct extent.inside
  have eases : ∀ g ∈ candidate.gates, o.cost.Eases g :=
    fun g member => easing g candidate.lines (within g member) (fewer.trans_lt narrow)
  refine ⟨rfl, extent.prices_replaced blind bound priced (prices_of_eases eases fewer newPriced), ?_⟩
  have exchanged := extent.total_replaced blind bound c.lines
  have eased := total_le_of_eases eases fewer newPriced
  have whole : o.cost.total (c.cut start stop filter).lines (c.cut start stop filter).circuit.gates ≤
      o.cost.total c.lines (c.cut start stop filter).circuit.gates := List.sum_le_sum kept
  have saved : new.toNat < old.toNat := UInt64.lt_iff_toNat_lt.mp cheaper
  change old.toNat = min (o.cost.total (c.cut start stop filter).lines _) _ at oldSum
  omega

/-- Where no gate of a replaced window is cheaper among the lines of the circuit than among those of the window. -/
def KeepsPrices (o : Peephole σ) (start : State σ) : Prop :=
  ∀ s w candidate old new d, o.Reaches start s → (o.select s.selector s.circuit).window = .ok (some w) →
    o.Accepts s.circuit w candidate old new d →
      ∀ g ∈ w.circuit.gates, o.cost.price w.lines g ≤ o.cost.price start.circuit.lines g

theorem Reaches.total_le {start s : State σ} (reached : o.Reaches start s) (faithful : o.select.Faithful)
    (summing : o.cost.Summing) (blind : o.cost.Blind)
    (easing : o.cost.Easing limit) (narrow : start.circuit.lines < limit)
    (kept : o.KeepsPrices start)
    (priced : o.cost.Prices start.circuit.lines start.circuit.gates) :
    s.circuit.lines = start.circuit.lines ∧ o.cost.Prices start.circuit.lines s.circuit.gates ∧
      o.cost.total start.circuit.lines s.circuit.gates ≤
        o.cost.total start.circuit.lines start.circuit.gates := by
  let below (d : Circuit) : Prop := d.lines = start.circuit.lines ∧
    o.cost.Prices start.circuit.lines d.gates ∧
      o.cost.total start.circuit.lines d.gates ≤
        o.cost.total start.circuit.lines start.circuit.gates
  refine reached.invariant (P := below) ⟨rfl, priced, le_rfl⟩ ?_
  rintro t w candidate old new d reached ⟨lines, pricedBefore, below⟩ selected accepts
  have prices := kept t _ _ _ _ _ reached selected accepts
  rw [← lines] at narrow pricedBefore prices
  obtain ⟨same, pricedAfter, less⟩ :=
    accepts.total_lt (faithful _ _ _ selected) summing blind easing narrow prices pricedBefore
  rw [lines] at same pricedAfter less
  exact ⟨same, pricedAfter, less.le.trans below⟩

/-- Gates with few controls stay gates with few controls. -/
theorem Reaches.few {start s : State σ} {bound : Nat} (reached : o.Reaches start s)
    (proposed : ∀ c synthesis candidate, o.replacement c = .ok synthesis → synthesis.outcome = .ok candidate →
      ∀ g ∈ candidate.gates, g.controls.size ≤ bound)
    (few : ∀ g ∈ start.circuit.gates, g.controls.size ≤ bound) : ∀ g ∈ s.circuit.gates, g.controls.size ≤ bound := by
  refine reached.invariant (P := fun d => ∀ g ∈ d.gates, g.controls.size ≤ bound) few ?_
  intro t w candidate old new d _ fewBefore _ accepts
  obtain ⟨synthesis, run, built⟩ := accepts.proposed
  obtain ⟨-, -, rfl⟩ := Circuit.of_replaceWindow accepts.placed
  refine Circuit.forall_mem_replaced fewBefore fun g lifted => ?_
  obtain ⟨inCandidate, member, rfl⟩ := List.mem_map.mp lifted
  exact (inCandidate.size_rename_controls_le _).trans (proposed _ _ _ run built inCandidate member)

theorem keepsPrices_of_few {start : State σ} (faithful : o.select.Faithful) (model : o.cost = quantum)
    (proposed : ∀ c synthesis candidate, o.replacement c = .ok synthesis → synthesis.outcome = .ok candidate →
      ∀ g ∈ candidate.gates, g.controls.size ≤ 2)
    (few : ∀ g ∈ start.circuit.gates, g.controls.size ≤ 2) : o.KeepsPrices start := by
  intro s w candidate old new d reached selected _ g member
  have gates := reached.few proposed few
  obtain ⟨start, stop, filter, extent, rfl⟩ := (faithful _ _ _ selected).extent
  obtain ⟨inCircuit, between, rfl⟩ := List.mem_map.mp member
  have size : (inCircuit.rename filter.idxOf).controls.size ≤ 2 :=
    (inCircuit.size_rename_controls_le _).trans (gates inCircuit (Circuit.mem_of_mem_between between))
  rw [model]
  exact (price_congr (quantumGate_of_few size _ _)).le

/-- With quantum costs the circuit that a run ends with costs at most as much as the given one, if no gate of a window
that is replaced is cheaper among the lines of the circuit than among those of the window. -/
theorem run_quantum_cost_le (faithful : o.select.Faithful) (model : o.cost = quantum) (narrow : c.lines < UInt32.size)
    {selector : σ} (kept : o.KeepsPrices { selector, circuit := c }) {s : State σ}
    (run : o.run selector c = .ok (some s)) {before : UInt64} (priced : quantum.circuitCost c = .ok before) :
    ∃ after, quantum.circuitCost s.circuit = .ok after ∧ after ≤ before := by
  rw [← model] at priced ⊢
  have summing : o.cost.Summing := model ▸ quantum_summing
  have blind : o.cost.Blind := model ▸ quantum_blind
  have easing : o.cost.Easing UInt32.size := model ▸ quantum_easing
  obtain ⟨prices, sum⟩ := summing.circuitCost_eq_ok.mp priced
  obtain ⟨lines, pricesAfter, below⟩ := (run_reaches run).total_le faithful summing blind easing narrow kept prices
  change s.circuit.lines = c.lines at lines
  rw [← lines] at pricesAfter
  obtain ⟨after, cost, value⟩ := summing.circuitCost_of_prices pricesAfter
  refine ⟨after, cost, UInt64.le_iff_toNat_le.mpr ?_⟩
  rw [value, sum, lines]
  exact min_le_min_right _ below

/-- The first two gates cancel. -/
def doubled : Circuit :=
  { Circuit.blank 3 with gates := [.toffoli (NatSet.ofList [0, 1]) 2, .toffoli (NatSet.ofList [0, 1]) 2,
      .toffoli .empty 0] }

/-- Whatever stands on three lines is proposed to be left out. -/
def erasing : Peephole Sliding := ⟨Sliding.select, Replacement.fixed (.blank 3), quantum⟩

theorem run_quantum_cost_le_doubled : erasing.select.Faithful ∧ doubled.lines < UInt32.size ∧
    erasing.KeepsPrices { selector := { length := 2 }, circuit := doubled } ∧
    quantum.circuitCost doubled = .ok 11 ∧ ∃ s, erasing.run { length := 2 } doubled = .ok (some s) ∧
      s.circuit.gates = [.toffoli .empty 0] ∧ ∃ after, quantum.circuitCost s.circuit = .ok after ∧ after ≤ 11 := by
  have faithful : erasing.select.Faithful := Sliding.select_faithful
  have narrow : doubled.lines < UInt32.size := by decide
  have proposed : ∀ c synthesis candidate, erasing.replacement c = .ok synthesis →
      synthesis.outcome = .ok candidate → ∀ g ∈ candidate.gates, g.controls.size ≤ 2 := by
    intro c synthesis candidate run built
    cases run
    cases built
    exact nofun
  have few : ∀ g ∈ doubled.gates, g.controls.size ≤ 2 := by decide
  have kept : erasing.KeepsPrices { selector := { length := 2 }, circuit := doubled } :=
    keepsPrices_of_few faithful rfl proposed few
  have priced : quantum.circuitCost doubled = .ok 11 := by decide +kernel
  have ends : (erasing.run { length := 2 } doubled).map (Option.map fun s => s.circuit.gates) =
      .ok (some [.toffoli .empty 0]) := by decide +kernel
  obtain ⟨s, run, gates⟩ := exists_of_map_map_eq ends
  exact ⟨faithful, narrow, kept, priced, s, run, gates, run_quantum_cost_le faithful rfl narrow kept run priced⟩

/-- Gates with four controls on five of seven lines. On their own lines each costs 29, among all lines only 26. -/
def spreading : Circuit :=
  { Circuit.blank 7 with gates := [.toffoli .empty 2, .toffoli (NatSet.ofList [1, 2, 3, 4]) 0, .toffoli .empty 4,
      .toffoli (NatSet.ofList [0, 1, 2, 3]) 4, .toffoli (NatSet.ofList [1, 2, 3, 4]) 0] }

/-- Windows of neighbouring gates are synthesized again, at quantum costs. -/
def quantumResynthesis : Peephole Sliding :=
  ⟨Sliding.select, Replacement.resynthesis simulate ({} : Transformation).synthesizer 16, quantum⟩

/-- Without that condition a run can make the circuit dearer. The five gates cost 89 on the lines of their window, and
what replaces them 88, but among seven lines the gates cost 80 and what replaces them 85. -/
theorem run_quantum_cost_spreading : spreading.WellFormed ∧ quantum.circuitCost spreading = .ok 80 ∧
    ∃ s, quantumResynthesis.run { length := 5, offset := 8 } spreading = .ok (some s) ∧
      s.report.replacements = [(89, 88)] ∧ quantum.circuitCost s.circuit = .ok 85 := by
  have formed : spreading.WellFormed := by decide
  have priced : quantum.circuitCost spreading = .ok 80 := by decide +kernel
  -- Only what the statement says of the final state is evaluated, the state itself is large.
  have ends : (quantumResynthesis.run { length := 5, offset := 8 } spreading).map
      (Option.map fun s => (s.report.replacements, quantum.circuitCost s.circuit)) =
        .ok (some ([(89, 88)], .ok 85)) := by decide +kernel
  obtain ⟨s, run, views⟩ := exists_of_map_map_eq ends
  obtain ⟨replacements, cost⟩ := Prod.mk.inj views
  exact ⟨formed, priced, s, run, replacements, cost⟩

end Peephole

end Reversible
