import Reversible.Proofs.Merging

namespace Reversible.Circuit

variable {c : Circuit} {removed kept k : Nat}

/-- The kept line ends with what the removed one would have ended with, and the others end with what they would. -/
theorem act_merged_erase (formed : c.WellFormed) (consecutive : c.Consecutive kept removed k) {input : Bits}
    (width : input.width = c.lines) (handover : act (c.gates.take k) input.testBit kept = input.testBit removed)
    {i : Nat} (inside : i < c.lines) (different : i ≠ removed) :
    act (c.merged removed kept).gates (input.erase removed).testBit (closeGap removed i) =
      Function.update (act c.gates input.testBit) kept (act c.gates input.testBit removed) i := by
  have start : ∀ i < c.lines, i ≠ removed → (input.erase removed).testBit (closeGap removed i) = input.testBit i :=
    fun i below other => Bits.testBit_erase (width ▸ below) other
  have merges := act_merged formed consecutive start handover
  -- What the kept line ends with is followed through the removed one, whose gates act on it from position `k` on.
  by_cases continued : i = kept
  · subst continued
    rw [Function.update_self, ← merges removed consecutive.lateInside consecutive.different, mergeTarget_removed]
  · rw [Function.update_of_ne continued, ← merges i inside continued, mergeTarget_of_ne different]

/-- Two lines of which one is used only after the other are merged into one. From an assignment under which the
earlier line ends its use with the value that the later one has at the start, the result computes what the circuit
computes, with the value of the later line on the one that is kept. -/
theorem mergeLine_simulates (formed : c.WellFormed) (consecutive : c.Consecutive kept removed k) :
    ∃ d, c.mergeLine removed kept = .ok d ∧ d.size = c.size ∧
      ∀ input : Bits, input.Canonical → input.width = c.lines →
        ∃ middle final, simulate (c.upTo k) input = .ok middle ∧ simulate c input = .ok final ∧
          (middle.testBit kept = input.testBit removed →
            simulate d (input.erase removed) = .ok ((final.put kept (final.testBit removed)).erase removed)) := by
  have removedInside := consecutive.lateInside
  have keptInside := consecutive.earlyInside
  have different := consecutive.different
  have lines : (c.merged removed kept).lines = c.lines - 1 := merged_lines removedInside
  have mergedFormed := merged_wellFormed formed removedInside keptInside different consecutive.apart
  refine ⟨c.merged removed kept, mergeLine_eq_merged formed removedInside keptInside different consecutive.apart,
    List.length_map _, fun input canonical width => ?_⟩
  refine ⟨_, _, simulate_eq_ok (formed.upTo k) canonical width, simulate_eq_ok formed canonical width, fun holds => ?_⟩
  have handover : act (c.gates.take k) input.testBit kept = input.testBit removed := by
    rwa [Bits.testBit_pack_of_lt (show kept < (c.upTo k).lines from keptInside)] at holds
  have erased : (input.erase removed).width = (c.merged removed kept).lines := by
    rw [Bits.erase_width (width ▸ removedInside), width, lines]
  rw [simulate_eq_ok mergedFormed (Bits.erase_canonical input removed) erased, lines,
    Bits.testBit_pack_of_lt removedInside, Bits.put_pack keptInside,
    Bits.erase_pack removedInside fun i => act_merged_erase formed consecutive width handover]

/-- Line 3 is used by the first gate only and line 1 by the others only. -/
def relaying : Circuit :=
  { blank 4 with gates := [.toffoli (NatSet.ofList [0]) 3, .toffoli (NatSet.ofList [0]) 1,
      .fredkin (NatSet.ofList [0]) 1 2, .toffoli .empty 1] }

/-- The first gate clears line 3, which can then serve as line 1, a zero at the start and a one at the end. -/
theorem mergeLine_simulates_relaying : relaying.WellFormed ∧ relaying.Consecutive 3 1 1 ∧
    ∃ d, relaying.mergeLine 1 3 = .ok d ∧ d.size = 4 ∧ d.gates = [.toffoli (NatSet.ofList [0]) 2,
        .toffoli (NatSet.ofList [0]) 2, .fredkin (NatSet.ofList [0]) 2 1, .toffoli .empty 2] ∧
      simulate relaying (Bits.ofBools [true, false, false, true]) = .ok (Bits.ofBools [true, true, true, false]) ∧
      simulate d (Bits.ofBools [true, false, true]) = .ok (Bits.ofBools [true, true, true]) := by
  have formed : relaying.WellFormed := by decide
  have consecutive : relaying.Consecutive 3 1 1 := ⟨by decide, by decide, by decide, by decide, by decide⟩
  have first : simulate (relaying.upTo 1) (Bits.ofBools [true, false, false, true]) =
      .ok (Bits.ofBools [true, false, false, false]) := by decide
  have all : simulate relaying (Bits.ofBools [true, false, false, true]) =
      .ok (Bits.ofBools [true, true, true, false]) := by decide
  obtain ⟨d, merges, size, computes⟩ := mergeLine_simulates formed consecutive
  obtain ⟨middle, final, begins, ends, continues⟩ := computes (Bits.ofBools [true, false, false, true])
    (Bits.ofBools_canonical _) rfl
  cases first.symm.trans begins
  cases all.symm.trans ends
  refine ⟨formed, consecutive, d, merges, size, ?_, all, continues rfl⟩
  cases merges
  rfl

end Reversible.Circuit
