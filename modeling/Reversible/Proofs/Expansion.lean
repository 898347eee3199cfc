import Reversible.Proofs.Windows

namespace Reversible

namespace Bits

/-- The bits at some positions, in the order of these. -/
def pick (b : Bits) (positions : List Nat) : Bits := ofBools (positions.map b.testBit)

theorem pick_canonical (b : Bits) (positions : List Nat) : (b.pick positions).Canonical := ofBools_canonical _

@[simp] theorem pick_width (b : Bits) (positions : List Nat) : (b.pick positions).width = positions.length := by
  simp [pick]

theorem testBit_pick {b : Bits} {positions : List Nat} {i : Nat} (inside : i < positions.length) :
    (b.pick positions).testBit i = b.testBit (positions.getD i 0) := by
  simp [pick, inside]

theorem pick_eq_pack {b : Bits} {positions : List Nat} {σ : Assignment}
    (same : ∀ i < positions.length, b.testBit (positions.getD i 0) = σ i) :
    b.pick positions = pack positions.length σ := by
  have packed := eq_pack (pick_canonical b positions) σ fun i inside => by
    rw [pick_width] at inside
    rw [testBit_pick inside, same i inside]
  rwa [pick_width] at packed

end Bits

namespace Circuit

variable {c : Circuit} {start stop : Nat} {filter : List Nat}

/-- The numbers that lines have inside a window lead back to the lines. -/
theorem Extent.lift_cut (extent : c.Extent start stop filter) :
    (c.cut start stop filter).lift (c.cut start stop filter).circuit.gates = c.between start stop := by
  unfold Window.lift cut
  rw [List.map_map]
  refine (List.map_congr_left fun g member => ?_).trans (List.map_id _)
  rw [Function.comp_apply, Gate.rename_rename]
  exact Gate.rename_eq_self fun line touched => getD_idxOf (extent.covers g member line touched)

end Circuit

namespace Window

variable {w : Window} {replacement expanded : Circuit} {state : Bits}

/-- Put back on the lines of the circuit, a replacement does to the lines of the window what it does by itself, and
nothing to the others. -/
theorem simulate_expand (placed : w.Placed) (run : w.expand replacement = .ok expanded) (canonical : state.Canonical)
    (width : state.width = w.parentLines) :
    ∃ after inner, simulate expanded state = .ok after ∧ simulate replacement (state.pick w.filter) = .ok inner ∧
      (∀ line < w.parentLines, line ∉ w.filter → after.testBit line = state.testBit line) ∧
        after.pick w.filter = inner := by
  obtain ⟨lines, fits, same⟩ := of_expand run
  have bound : Circuit.Within w.filter.length replacement.gates := fun g member => (fits g member).inside
  have gates : expanded.gates = w.lift replacement.gates := by rw [same]
  have parent : expanded.lines = w.parentLines := by simp [same, Circuit.lines, Circuit.blank]
  have lifted : Circuit.Within expanded.lines expanded.gates := fun g member line touched =>
    parent ▸ placed.inside line (mem_lift_lines bound (gates ▸ member) touched)
  have inner := Circuit.simulate_within (lines.symm ▸ bound) (Bits.pick_canonical state w.filter)
    ((Bits.pick_width state w.filter).trans lines.symm)
  refine ⟨_, _, Circuit.simulate_within lifted canonical (width.trans parent.symm), inner,
    fun line inside outside => ?_, ?_⟩
  · rw [parent, gates, Bits.testBit_pack_of_lt inside, act_lift_outside bound _ outside]
  · rw [parent, gates, lines]
    refine Bits.pick_eq_pack fun i inside => ?_
    have onLine : w.filter.getD i 0 < w.parentLines := placed.inside _ (getD_mem inside)
    rw [Bits.testBit_pack_of_lt onLine]
    exact act_lift placed bound (fun j below => (Bits.testBit_pick below).symm) inside

end Window

namespace Circuit

variable {c : Circuit} {start stop : Nat} {filter : List Nat}

/-- A window over lines that cover its gates can be taken, and put back it changes nothing. Any circuit on as many
lines can be put in its place, as long as its gates fit on them. It then stands between the gates before the window
and those after it, it does to the lines of the window what it does by itself, and it leaves the others alone. -/
theorem window_faithful (formed : c.WellFormed) (extent : c.Extent start stop filter) :
    ∃ w, c.window start stop filter = .ok w ∧ c.replaceWindow w w.circuit = .ok c ∧
      ∀ replacement : Circuit, replacement.lines = filter.length →
        ((∃ expanded, w.expand replacement = .ok expanded) ↔ ∀ g ∈ replacement.gates, g.Fits filter.length) ∧
        ∀ expanded, w.expand replacement = .ok expanded →
          c.replaceWindow w replacement =
            .ok { c with gates := c.gates.take start ++ expanded.gates ++ c.gates.drop stop } ∧
          ∀ state : Bits, state.Canonical → state.width = c.lines →
            ∃ after inner, simulate expanded state = .ok after ∧ simulate replacement (state.pick filter) = .ok inner ∧
              (∀ line < c.lines, line ∉ filter → after.testBit line = state.testBit line) ∧
                after.pick filter = inner := by
  have bound : (c.cut start stop filter).stop ≤ c.size := extent.cut_stop.trans_le extent.bound
  have own : ∀ g ∈ (c.cut start stop filter).circuit.gates, g.Fits filter.length := fun g member =>
    (Extent.cut_lines (c := c) ▸ extent.cut_wellFormed formed g member).fits
  refine ⟨c.cut start stop filter, extent.window_eq_cut formed, ?_, fun replacement lines => ⟨⟨?_, ?_⟩, ?_⟩⟩
  · rw [replaceWindow_eq_replaced extent.placed rfl bound own Extent.cut_lines]
    rw [extent.replaced_eq, extent.lift_cut, ← extent.split]
  · rintro ⟨expanded, run⟩
    exact (Window.of_expand run).2.1
  · exact fun fits => ⟨_, Window.expand_eq_lift extent.placed fits lines⟩
  · intro expanded run
    obtain ⟨_, fits, same⟩ := Window.of_expand run
    refine ⟨?_, fun state canonical width => Window.simulate_expand extent.placed run canonical width⟩
    rw [replaceWindow_eq_replaced extent.placed rfl bound fits lines, extent.replaced_eq, same]

/-- More lines than a word has bits, with gates that reach over its end. -/
def spanning : Circuit :=
  { blank 67 with gates := [.toffoli (NatSet.ofList [0]) 64, .fredkin (NatSet.ofList [64]) 66 0,
      .toffoli (NatSet.ofList [66]) 1] }

/-- The second gate exchanges a line with itself. -/
def detour : Circuit := { blank 3 with gates := [.fredkin (NatSet.ofList [0]) 2 1, .fredkin .empty 1 1] }

theorem window_faithful_spanning : spanning.WellFormed ∧ spanning.Extent 1 2 [0, 64, 66] ∧
    ∃ w, spanning.window 1 2 [0, 64, 66] = .ok w ∧ w.circuit.gates = [.fredkin (NatSet.ofList [1]) 2 0] ∧
      spanning.replaceWindow w w.circuit = .ok spanning ∧
      ∃ expanded, w.expand detour = .ok expanded ∧
        expanded.gates = [.fredkin (NatSet.ofList [0]) 66 64, .fredkin .empty 64 64] ∧
        spanning.replaceWindow w detour = .ok { spanning with gates := [.toffoli (NatSet.ofList [0]) 64,
          .fredkin (NatSet.ofList [0]) 66 64, .fredkin .empty 64 64, .toffoli (NatSet.ofList [66]) 1] } ∧
        ∃ after, simulate expanded (Bits.pack 67 fun line => line ≤ 64) = .ok after ∧
          (∀ line < 67, line ∉ [0, 64, 66] → after.testBit line = decide (line ≤ 64)) ∧
          after.pick [0, 64, 66] = Bits.ofBools [true, false, true] := by
  have formed : spanning.WellFormed := by decide +kernel
  have extent : spanning.Extent 1 2 [0, 64, 66] :=
    ⟨by decide, by decide, by decide, by decide +kernel, by decide +kernel⟩
  have fits : ∀ g ∈ detour.gates, g.Fits 3 :=
    List.forall_mem_cons.mpr ⟨⟨by decide, by decide⟩, List.forall_mem_singleton.mpr ⟨by decide, by decide⟩⟩
  obtain ⟨w, window, own, replaces⟩ := window_faithful formed extent
  cases (extent.window_eq_cut formed).symm.trans window
  obtain ⟨expands, placed⟩ := replaces detour rfl
  obtain ⟨expanded, run⟩ := expands.mpr fits
  obtain ⟨put, runs⟩ := placed expanded run
  obtain ⟨after, inner, outer, alone, untouched, projected⟩ :=
    runs (Bits.pack 67 fun line => line ≤ 64) (Bits.pack_canonical _ _) (Bits.pack_width _ _)
  have result : simulate detour (Bits.pick (Bits.pack 67 fun line => line ≤ 64) [0, 64, 66]) =
      .ok (Bits.ofBools [true, false, true]) := by decide +kernel
  cases result.symm.trans alone
  have gates : expanded.gates = [.fredkin (NatSet.ofList [0]) 66 64, .fredkin .empty 64 64] := by
    cases run
    rfl
  refine ⟨formed, extent, _, window, rfl, own, expanded, run, gates, ?_, after, outer, fun line inside outside => ?_,
    projected⟩
  · rw [put, gates]
    rfl
  · rw [untouched line inside outside, Bits.testBit_pack_of_lt inside]

end Circuit

end Reversible
