import Reversible.Proofs.Synthesis.Resynthesis

namespace Reversible

/-- The assignments to `n` lines. -/
def Bits.assignments (n : Nat) : Set Bits := {b | b.Canonical ∧ b.width = n}

theorem Bits.pack_mem_assignments (n : Nat) (σ : Assignment) : pack n σ ∈ assignments n :=
  ⟨pack_canonical n σ, pack_width n σ⟩

theorem Bits.eq_pack_testBit {n : Nat} {b : Bits} (given : b ∈ assignments n) : b = pack n b.testBit := by
  obtain ⟨canonical, rfl⟩ := given
  exact canonical.eq_pack

namespace Gate

variable {g : Gate} {σ : Assignment}

/-- What a gate does wherever it fires. -/
def strike (σ : Assignment) : Gate → Assignment
  | toffoli _ t => Function.update σ t (!σ t)
  | fredkin _ a b => Function.update (Function.update σ a (σ b)) b (σ a)

theorem act_of_fires (fires : g.controls.toList.all σ = true) : g.act σ = g.strike σ := by
  unfold act
  rw [if_pos fires]
  cases g <;> rfl

theorem act_of_idle (idle : ¬g.controls.toList.all σ = true) : g.act σ = σ := if_neg idle

/-- To invert twice is to do nothing, and so is to swap twice. -/
theorem strike_strike (g : Gate) (σ : Assignment) : g.strike (g.strike σ) = σ := by
  cases g with
  | toffoli cs t =>
    simp only [strike, Function.update_self, Function.update_idem, Bool.not_not, Function.update_eq_self]
  | fredkin cs a b =>
    funext line
    by_cases second : line = b
    · subst second
      by_cases same : a = line
      · simp [strike, same]
      · simp [strike, same]
    · by_cases first : line = a
      · subst first
        simp [strike, second]
      · simp [strike, first, second]

theorem all_controls_act (apart : ∀ t ∈ g.targets, t ∉ g.controls) (σ : Assignment) :
    g.controls.toList.all (g.act σ) = g.controls.toList.all σ := by
  rw [Bool.eq_iff_iff, List.all_eq_true, List.all_eq_true]
  refine forall_congr' fun line => imp_congr_right fun control => ?_
  rw [act_of_not_target fun target => apart line target control]

/-- A gate does not target its own controls, so it fires again on what it has made and takes that back. -/
theorem act_act (apart : ∀ t ∈ g.targets, t ∉ g.controls) (σ : Assignment) : g.act (g.act σ) = σ := by
  have again := all_controls_act apart σ
  by_cases fires : g.controls.toList.all σ = true
  · rw [act_of_fires (again.trans fires), act_of_fires fires, strike_strike]
  · rw [act_of_idle fires, act_of_idle fires]

end Gate

namespace Circuit

variable {c : Circuit}

/-- The gates in reverse order undo what they have done. -/
theorem act_reverse {gates : List Gate} (apart : ∀ g ∈ gates, ∀ t ∈ g.targets, t ∉ g.controls) (σ : Assignment) :
    act gates.reverse (act gates σ) = σ := by
  induction gates generalizing σ with
  | nil => rfl
  | cons g rest ih =>
    rw [List.reverse_cons, act_append, act_cons, act_cons, act_nil,
      ih fun other member => apart other (List.mem_cons_of_mem g member)]
    exact Gate.act_act (apart g List.mem_cons_self) σ

/-- The same lines with the gates in reverse order. -/
def reversed (c : Circuit) : Circuit := { c with gates := c.gates.reverse }

@[simp] theorem reversed_lines (c : Circuit) : c.reversed.lines = c.lines := rfl

@[simp] theorem reversed_reversed (c : Circuit) : c.reversed.reversed = c := by
  unfold reversed
  rw [List.reverse_reverse]

theorem WellFormed.reversed (formed : c.WellFormed) : c.reversed.WellFormed :=
  fun g member => formed g (List.mem_reverse.mp member)

theorem WellFormed.act_reversed (formed : c.WellFormed) (σ : Assignment) : act c.reversed.gates (act c.gates σ) = σ :=
  act_reverse (fun g member => (formed g member).fits.apart) σ

/-- What the gates make of an assignment to all lines. -/
def image (c : Circuit) (input : Bits) : Bits := Bits.pack c.lines (act c.gates input.testBit)

theorem image_mem (c : Circuit) (input : Bits) : c.image input ∈ Bits.assignments c.lines :=
  Bits.pack_mem_assignments _ _

theorem WellFormed.simulate_image (formed : c.WellFormed) {input : Bits} (given : input ∈ Bits.assignments c.lines) :
    simulate c input = .ok (c.image input) := simulate_eq_ok formed given.1 given.2

/-- Well-formed circuits on the same lines are simulated alike exactly if their gates do the same to these lines. -/
theorem WellFormed.simulate_eq_iff {d : Circuit} (formed : c.WellFormed) (other : d.WellFormed)
    (lines : d.lines = c.lines) : (∀ input ∈ Bits.assignments c.lines, simulate d input = simulate c input) ↔
      ∀ σ, ∀ i < c.lines, act d.gates σ i = act c.gates σ i := by
  rw [← Circuit.simulate_eq_iff formed.inside other.inside lines]
  exact ⟨fun same input canonical width => same input ⟨canonical, width⟩,
    fun same input given => same input given.1 given.2⟩

theorem WellFormed.reversed_image (formed : c.WellFormed) {input : Bits} (given : input ∈ Bits.assignments c.lines) :
    c.reversed.image (c.image input) = input := by
  have back := simulate_pack formed.reversed (act c.gates input.testBit)
  rw [formed.act_reversed, reversed_lines, ← Bits.eq_pack_testBit given] at back
  exact Except.ok.inj ((formed.reversed.simulate_image (c.image_mem input)).symm.trans back)

theorem WellFormed.bijOn_image (formed : c.WellFormed) :
    Set.BijOn c.image (Bits.assignments c.lines) (Bits.assignments c.lines) := by
  have undone : Set.InvOn c.reversed.image c.image (Bits.assignments c.lines) (Bits.assignments c.lines) := by
    refine ⟨fun input given => formed.reversed_image given, fun output given => ?_⟩
    have redone := formed.reversed.reversed_image given
    rwa [reversed_reversed] at redone
  exact undone.bijOn (fun input _ => c.image_mem input) fun output _ => c.reversed.image_mem output

/-- The row that says what the gates make of an assignment. -/
def tableRow (c : Circuit) (input : Bits) : Bits × Cube := (input, (c.image input).toBools.map some)

theorem WellFormed.image_pack (formed : c.WellFormed) (σ : Assignment) :
    c.image (Bits.pack c.lines σ) = Bits.pack c.lines (act c.gates σ) :=
  Except.ok.inj ((formed.simulate_image (Bits.pack_mem_assignments _ σ)).symm.trans (simulate_pack formed σ))

theorem WellFormed.rows_actRows (formed : c.WellFormed) :
    c.actRows.rows = (List.range (2 ^ c.lines)).map fun x => c.tableRow (Bits.pack c.lines x.testBit) := by
  refine (TruthTable.rows_ofRows _).trans (List.map_congr_left fun x _ => ?_)
  unfold tableRow
  rw [formed.image_pack]
  rfl

theorem WellFormed.tableRow_mem (formed : c.WellFormed) (narrow : c.lines ≤ 64) {input : Bits}
    (given : input ∈ Bits.assignments c.lines) : c.tableRow input ∈ c.actRows.rows := by
  obtain ⟨canonical, width⟩ := given
  have fits : input.width ≤ 64 := width ▸ narrow
  have packed := Bits.eq_pack_number canonical fits
  rw [width] at packed
  rw [formed.rows_actRows]
  refine List.mem_map.mpr ⟨input.number, List.mem_range.mpr (width ▸ Bits.number_lt canonical fits), ?_⟩
  rw [← packed]

theorem WellFormed.actRows_isFullySpecified (formed : c.WellFormed) (narrow : c.lines < 64) :
    c.actRows.isFullySpecified = true := by
  have size : c.actRows.size = 1 <<< c.lines := by
    have rows := congrArg List.length formed.rows_actRows
    rwa [TruthTable.rows, List.length_reverse, List.length_map, List.length_range, ← Nat.one_shiftLeft] at rows
  have filled : ∀ row ∈ c.actRows.descending, row.2.all (·.isSome) = true := by
    intro row member
    have listed : row ∈ c.actRows.rows := List.mem_reverse.mpr member
    rw [formed.rows_actRows] at listed
    obtain ⟨x, -, rfl⟩ := List.mem_map.mp listed
    simp [tableRow]
  unfold TruthTable.isFullySpecified
  rw [Bool.and_eq_true, Bool.and_eq_true, List.all_eq_true]
  exact ⟨⟨decide_eq_true narrow, beq_iff_eq.mpr size⟩, filled⟩

/-- No two rows have the same outputs. -/
theorem WellFormed.cubes_nodup (formed : c.WellFormed) (narrow : c.lines ≤ 64) :
    (c.actRows.rows.map Prod.snd).Nodup := by
  rw [formed.rows_actRows, List.map_map]
  refine List.nodup_range.map_on fun x inX y inY equal => ?_
  have bits := List.map_injective_iff.mpr (Option.some_injective _) equal
  have images := congrArg Bits.ofBools bits
  unfold image at images
  rw [Bits.toBools_pack, Bits.toBools_pack] at images
  have inputs := formed.bijOn_image.injOn (Bits.pack_mem_assignments _ x.testBit)
    (Bits.pack_mem_assignments _ y.testBit) images
  have numbers := congrArg Bits.number inputs
  rwa [Bits.number_pack narrow (List.mem_range.mp inX), Bits.number_pack narrow (List.mem_range.mp inY)] at numbers

/-- Simulation is a bijection of the assignments to the lines of a circuit, and the gates in reverse order take it back.
So the table of a circuit asks for every output on one input only. -/
theorem simulate_reversible (formed : c.WellFormed) :
    (∀ input ∈ Bits.assignments c.lines, ∃ output ∈ Bits.assignments c.lines,
      simulate c input = .ok output ∧ simulate c.reversed output = .ok input) ∧
    (∃ f, Set.BijOn f (Bits.assignments c.lines) (Bits.assignments c.lines) ∧
      ∀ input ∈ Bits.assignments c.lines, simulate c input = .ok (f input)) ∧
    (c.lines ≤ maxEnumeratedInputs → ∃ t, c.truthTable simulate = .ok t ∧ t.isFullySpecified = true ∧
      (t.rows.map Prod.snd).Nodup ∧
      ∀ input ∈ Bits.assignments c.lines, ∃ output, simulate c input = .ok output ∧
        (input, output.toBools.map some) ∈ t.rows) := by
  refine ⟨fun input given => ⟨c.image input, c.image_mem input, formed.simulate_image given, ?_⟩,
    ⟨c.image, formed.bijOn_image, fun input => formed.simulate_image⟩, fun enumerable => ?_⟩
  · rw [formed.reversed.simulate_image (c.image_mem input), formed.reversed_image given]
  · have narrow : c.lines ≤ 24 := enumerable
    exact ⟨c.actRows, truthTable_simulate enumerable formed.inside, formed.actRows_isFullySpecified (by omega),
      formed.cubes_nodup (by omega),
      fun input given => ⟨c.image input, formed.simulate_image given, formed.tableRow_mem (by omega) given⟩⟩

/-- Exchanges the second line with the last one, which may be stored in another word, and then inverts the first. -/
def reaching (n : Nat) : Circuit :=
  { blank n with gates := [.fredkin (NatSet.ofList [0]) 1 (n - 1), .toffoli (NatSet.ofList [n - 1]) 0] }

theorem simulate_reversible_reaching : (reaching 130).WellFormed ∧
    (∀ input ∈ Bits.assignments 130, ∃ output ∈ Bits.assignments 130,
      simulate (reaching 130) input = .ok output ∧ simulate (reaching 130).reversed output = .ok input) ∧
    (∃ f, Set.BijOn f (Bits.assignments 130) (Bits.assignments 130) ∧
      ∀ input ∈ Bits.assignments 130, simulate (reaching 130) input = .ok (f input)) ∧
    (reaching 3).WellFormed ∧ (reaching 3).lines ≤ maxEnumeratedInputs ∧
    ∃ t, (reaching 3).truthTable simulate = .ok t ∧ t.isFullySpecified = true ∧ (t.rows.map Prod.snd).Nodup ∧
      ∀ input ∈ Bits.assignments 3, ∃ output, simulate (reaching 3) input = .ok output ∧
        (input, output.toBools.map some) ∈ t.rows := by
  have wide : (reaching 130).WellFormed := by decide +kernel
  have narrow : (reaching 3).WellFormed := by decide
  have few : (reaching 3).lines ≤ maxEnumeratedInputs := by decide
  have lines (n : Nat) : (reaching n).lines = n := by simp [reaching, Circuit.lines, blank]
  obtain ⟨undone, bijective, -⟩ := simulate_reversible wide
  obtain ⟨-, -, tabulated⟩ := simulate_reversible narrow
  rw [lines] at undone bijective
  have table := tabulated few
  rw [lines] at table
  exact ⟨wide, undone, bijective, narrow, few, table⟩

end Circuit

end Reversible
