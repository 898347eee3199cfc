import Reversible.Proofs.Merging

namespace Reversible

namespace Gate

variable {g h : Gate} {m : Nat → Nat}

/-- No two lines of the gate come together, unless both are targets. -/
def MergesTargetsOnly (m : Nat → Nat) (g : Gate) : Prop :=
  ∀ a ∈ g.lines, ∀ b ∈ g.lines, a ≠ b → m a = m b → a ∈ g.targets ∧ b ∈ g.targets

/-- Two targets of a gate are not checked against each other. -/
theorem relabel_eq_ok_iff_merges (distinct : g.lines.Nodup) :
    g.relabel (fun line => pure (m line)) = .ok h ↔ g.MergesTargetsOnly m ∧ h = g.rename m := by
  have checks : g.relabel (fun line => pure (m line)) = .ok h ↔ _ := relabel_eq_ok_iff fun _ _ => rfl
  rw [checks, ← and_assoc]
  refine and_congr_left' ⟨?_, fun merges => ⟨?_, ?_⟩⟩
  · rintro ⟨controls, apart⟩ a inA b inB different same
    have injective := List.inj_on_of_nodup_map controls
    rcases mem_lines.mp inA with controlA | targetA
    · rcases mem_lines.mp inB with controlB | targetB
      · exact absurd (injective controlA controlB same) different
      · exact absurd (List.mem_map.mpr ⟨a, controlA, same⟩) (apart b targetB)
    · rcases mem_lines.mp inB with controlB | targetB
      · exact absurd (List.mem_map.mpr ⟨b, controlB, same.symm⟩) (apart a targetA)
      · exact ⟨targetA, targetB⟩
  · refine g.controls.nodup.map_on fun a inA b inB same => ?_
    by_contra different
    have targets := merges a (mem_lines.mpr (Or.inl inA)) b (mem_lines.mpr (Or.inl inB)) different same
    exact (lines_nodup_iff.mp distinct).2 a targets.1 inA
  · intro t target merged
    obtain ⟨a, control, same⟩ := List.mem_map.mp merged
    have different : a ≠ t := fun equal => (lines_nodup_iff.mp distinct).2 t target (equal ▸ control)
    have targets := merges a (mem_lines.mpr (Or.inl control)) t (mem_lines.mpr (Or.inr target)) different same
    exact (lines_nodup_iff.mp distinct).2 a targets.1 control

end Gate

namespace Circuit

variable {c d : Circuit} {removed kept : Nat}

theorem mergeTarget_eq_iff (different : removed ≠ kept) {a b : Nat} :
    mergeTarget removed kept a = mergeTarget removed kept b ↔
      a = b ∨ (a = removed ∧ b = kept) ∨ (a = kept ∧ b = removed) := by
  unfold mergeTarget closeGap
  split_ifs <;> omega

/-- A gate that touches both lines does so by swapping them. -/
def SwapsOnly (removed kept : Nat) (g : Gate) : Prop :=
  removed ∈ g.lines → kept ∈ g.lines → removed ∈ g.targets ∧ kept ∈ g.targets

theorem mergesTargetsOnly_iff (different : removed ≠ kept) {g : Gate} :
    g.MergesTargetsOnly (mergeTarget removed kept) ↔ SwapsOnly removed kept g := by
  constructor
  · intro merges touched other
    exact merges removed touched kept other different ((mergeTarget_eq_iff different).mpr (Or.inr (Or.inl ⟨rfl, rfl⟩)))
  · intro swaps a inA b inB apart same
    rcases (mergeTarget_eq_iff different).mp same with equal | ⟨rfl, rfl⟩ | ⟨rfl, rfl⟩
    · exact absurd equal apart
    · exact swaps inA inB
    · exact (swaps inB inA).symm

theorem mergeGate_eq_ok_iff (different : removed ≠ kept) {g h : Gate} (distinct : g.lines.Nodup) :
    (if g.lines.any (removed ≤ ·) then g.relabel fun line => pure (mergeTarget removed kept line) else pure g) =
      .ok h ↔ SwapsOnly removed kept g ∧ h = g.rename (mergeTarget removed kept) := by
  by_cases above : g.lines.any (removed ≤ ·) = true
  · rw [if_pos above, Gate.relabel_eq_ok_iff_merges distinct, mergesTargetsOnly_iff different]
  · have untouched : removed ∉ g.lines := fun touched => Nat.lt_irrefl _ (lt_of_below above removed touched)
    rw [if_neg above, rename_mergeTarget_below above, pure_eq_ok, Except.ok.injEq, eq_comm]
    exact (and_iff_right fun touched => absurd touched untouched).symm

/-- Two lines can be merged exactly if no gate touches both, other than by swapping them. -/
theorem mergeLine_eq_ok_iff (formed : c.WellFormed) : c.mergeLine removed kept = .ok d ↔
    (removed < c.lines ∧ kept < c.lines ∧ removed ≠ kept) ∧ (∀ g ∈ c.gates, SwapsOnly removed kept g) ∧
      d = c.merged removed kept := by
  unfold mergeLine
  rw [require_bind_eq_ok, require_bind_eq_ok, require_bind_eq_ok, and_assoc, and_assoc]
  refine and_congr_right fun _ => and_congr_right fun _ => and_congr_right fun different => ?_
  have each : ∀ g ∈ c.gates, ∀ h, _ := fun g member h => mergeGate_eq_ok_iff (h := h) different (formed g member).1
  rw [bind_eq_ok]
  constructor
  · rintro ⟨gates, mapped, run⟩
    obtain ⟨swaps, rfl⟩ := (mapM_eq_ok_iff each).mp mapped
    exact ⟨swaps, (Except.ok.inj run).symm⟩
  · rintro ⟨swaps, rfl⟩
    exact ⟨_, (mapM_eq_ok_iff each).mpr ⟨swaps, rfl⟩, rfl⟩

theorem merged_within (formed : c.WellFormed) (removedInside : removed < c.lines) (keptInside : kept < c.lines)
    (different : removed ≠ kept) : Within (c.merged removed kept).lines (c.merged removed kept).gates := by
  rw [merged_lines removedInside]
  intro g member line touched
  obtain ⟨old, inGates, rfl⟩ := List.mem_map.mp member
  obtain ⟨before, inOld, rfl⟩ := Gate.mem_rename_lines.mp touched
  exact mergeTarget_lt removedInside keptInside different (formed.inside old inGates before inOld)

/-- A gate that swapped the two lines would swap a line with itself. -/
theorem not_wellFormed_rename {g : Gate} {n : Nat} (different : removed ≠ kept) (swapped : removed ∈ g.targets)
    (other : kept ∈ g.targets) : ¬(g.rename (mergeTarget removed kept)).WellFormed n := by
  intro formed
  have targets := (List.nodup_append.mp formed.1).2.1
  rw [Gate.rename_targets] at targets
  exact different (List.inj_on_of_nodup_map targets swapped other ((mergeTarget_eq_iff different).mpr (by simp)))

theorem merged_wellFormed_iff (formed : c.WellFormed) (removedInside : removed < c.lines) (keptInside : kept < c.lines)
    (different : removed ≠ kept) (swaps : ∀ g ∈ c.gates, SwapsOnly removed kept g) :
    (c.merged removed kept).WellFormed ↔ ∀ g ∈ c.gates, ¬(removed ∈ g.targets ∧ kept ∈ g.targets) := by
  constructor
  · intro result g member both
    exact not_wellFormed_rename different both.1 both.2 (result _ (List.mem_map.mpr ⟨g, member, rfl⟩))
  · intro apart
    refine merged_wellFormed formed removedInside keptInside different fun g member => ?_
    by_contra touched
    rw [not_or, not_not, not_not] at touched
    exact apart g member (swaps g member touched.1 touched.2)

theorem mergeLine_eq_error_iff (formed : c.WellFormed) (removedInside : removed < c.lines) (keptInside : kept < c.lines)
    (different : removed ≠ kept) :
    (∃ fault, c.mergeLine removed kept = .error fault) ↔ ∃ g ∈ c.gates, ¬SwapsOnly removed kept g := by
  constructor
  · rintro ⟨fault, fails⟩
    by_contra none
    have swaps : ∀ g ∈ c.gates, SwapsOnly removed kept g := by simpa using none
    have merges := (mergeLine_eq_ok_iff formed).mpr ⟨⟨removedInside, keptInside, different⟩, swaps, rfl⟩
    cases merges.symm.trans fails
  · rintro ⟨g, member, touches⟩
    cases run : c.mergeLine removed kept with
    | error fault => exact ⟨fault, rfl⟩
    | ok d => exact absurd (((mergeLine_eq_ok_iff formed).mp run).2.1 g member) touches

/-- Relabelling refuses to bring lines of a gate together, except for two targets. So a line is merged into another one
exactly if no gate touches both, other than by swapping them. The gates then stay within the lines that are left, and
they are all well-formed exactly if no gate swaps the two lines. -/
theorem mergeLine_wellFormed_iff (formed : c.WellFormed) (removedInside : removed < c.lines)
    (keptInside : kept < c.lines) (different : removed ≠ kept) :
    (∀ (g h : Gate) (m : Nat → Nat), g.lines.Nodup →
      (g.relabel (fun line => pure (m line)) = .ok h ↔ g.MergesTargetsOnly m ∧ h = g.rename m)) ∧
    ((∃ fault, c.mergeLine removed kept = .error fault) ↔ ∃ g ∈ c.gates, ¬SwapsOnly removed kept g) ∧
    ∀ d, c.mergeLine removed kept = .ok d → d.lines + 1 = c.lines ∧ Within d.lines d.gates ∧
      (d.WellFormed ↔ ∀ g ∈ c.gates, ¬(removed ∈ g.targets ∧ kept ∈ g.targets)) := by
  refine ⟨fun _ _ _ distinct => Gate.relabel_eq_ok_iff_merges distinct,
    mergeLine_eq_error_iff formed removedInside keptInside different, fun d run => ?_⟩
  obtain ⟨-, swaps, rfl⟩ := (mergeLine_eq_ok_iff formed).mp run
  refine ⟨?_, merged_within formed removedInside keptInside different,
    merged_wellFormed_iff formed removedInside keptInside different swaps⟩
  rw [merged_lines removedInside]
  omega

/-- Lines 1 and 2 are exchanged under a control. -/
def exchanging : Circuit :=
  { blank 4 with gates := [.toffoli (NatSet.ofList [0]) 1, .fredkin (NatSet.ofList [0]) 1 2,
      .toffoli (NatSet.ofList [3]) 2] }

theorem mergeLine_wellFormed_iff_exchanging : exchanging.WellFormed ∧
    (∀ (g h : Gate) (m : Nat → Nat), g.lines.Nodup →
      (g.relabel (fun line => pure (m line)) = .ok h ↔ g.MergesTargetsOnly m ∧ h = g.rename m)) ∧
    ((∃ fault, exchanging.mergeLine 3 0 = .error fault) ↔ ∃ g ∈ exchanging.gates, ¬SwapsOnly 3 0 g) ∧
    ∃ d, exchanging.mergeLine 3 0 = .ok d ∧ d.gates = [.toffoli (NatSet.ofList [0]) 1,
        .fredkin (NatSet.ofList [0]) 1 2, .toffoli (NatSet.ofList [0]) 2] ∧
      d.lines + 1 = 4 ∧ Within d.lines d.gates ∧
      (d.WellFormed ↔ ∀ g ∈ exchanging.gates, ¬(3 ∈ g.targets ∧ 0 ∈ g.targets)) := by
  have formed : exchanging.WellFormed := by decide
  obtain ⟨relabels, fails, merges⟩ := mergeLine_wellFormed_iff formed (show 3 < exchanging.lines by decide)
    (show 0 < exchanging.lines by decide) (by decide)
  exact ⟨formed, relabels, fails, exchanging.merged 3 0, rfl, rfl, merges _ rfl⟩

/-- Nothing refuses to merge two lines that a gate swaps, and then it swaps a line with itself. -/
theorem mergeLine_exchanging_silent : exchanging.WellFormed ∧ ∃ d, exchanging.mergeLine 2 1 = .ok d ∧
    d.gates = [.toffoli (NatSet.ofList [0]) 1, .fredkin (NatSet.ofList [0]) 1 1, .toffoli (NatSet.ofList [2]) 1] ∧
      ¬d.WellFormed :=
  ⟨by decide, exchanging.merged 2 1, rfl, rfl, by decide⟩

end Circuit

end Reversible
