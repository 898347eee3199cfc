import Mathlib.Order.Bounds.Basic
import Reversible.Circuit.Run
import Reversible.Proofs.Windows

namespace Reversible.Circuit

variable {bound skipped length line : Nat} {touched : NatSet} {gates : List Gate} {g : Gate}

theorem mem_linesOf : line ∈ linesOf gates ↔ ∃ g ∈ gates, line ∈ g.lines := by
  unfold linesOf
  rw [NatSet.mem_ofList, List.mem_flatMap]

theorem linesOf_size_mono {fewer : List Gate} (within : ∀ g ∈ fewer, g ∈ gates) :
    (linesOf fewer).size ≤ (linesOf gates).size := by
  refine NatSet.size_le_of_subset fun line member => ?_
  obtain ⟨g, inFewer, onGate⟩ := mem_linesOf.mp member
  exact mem_linesOf.mpr ⟨g, within g inFewer, onGate⟩

theorem linesOf_append_singleton (gates : List Gate) (g : Gate) :
    linesOf (gates ++ [g]) = (linesOf gates).union g.lines := by
  refine NatSet.ext fun line => ?_
  rw [NatSet.mem_union, mem_linesOf, mem_linesOf, or_comm]
  simp [or_and_right, exists_or]

/-- Any range of gates with exactly the lines that they touch. -/
theorem Extent.of_touched {c : Circuit} (formed : c.WellFormed) {start stop : Nat} (order : start ≤ stop)
    (bound : stop ≤ c.size) : c.Extent start stop (linesOf (c.between start stop)).toList := by
  refine ⟨order, bound, (linesOf _).sorted, fun line member => ?_, fun g member line onGate => ?_⟩
  · obtain ⟨g, inRange, onGate⟩ := mem_linesOf.mp member
    exact formed.inside g (mem_of_mem_between inRange) line onGate
  · exact mem_linesOf.mpr ⟨g, member, onGate⟩

theorem isWide_iff : isWide bound g = true ↔ bound < (linesOf [g]).size := decide_eq_true_iff

theorem growRun_cons_of_le {rest : List Gate} (fits : (touched.union g.lines).size ≤ bound) :
    growRun bound touched (g :: rest) =
      ((growRun bound (touched.union g.lines) rest).1 + 1, (growRun bound (touched.union g.lines) rest).2) :=
  if_pos fits

theorem growRun_cons_of_lt {rest : List Gate} (exceeds : bound < (touched.union g.lines).size) :
    growRun bound touched (g :: rest) = (0, touched) := if_neg (Nat.not_le.mpr exceeds)

theorem growRun_spec (bound : Nat) (touched : NatSet) (gates : List Gate) :
    (growRun bound touched gates).1 ≤ gates.length ∧
      (∀ line, line ∈ (growRun bound touched gates).2 ↔
        line ∈ touched ∨ ∃ g ∈ gates.take (growRun bound touched gates).1, line ∈ g.lines) ∧
      (growRun bound touched gates).2.size ≤ max bound touched.size := by
  induction gates generalizing touched with
  | nil => exact ⟨Nat.le_refl _, by simp [growRun], Nat.le_max_right _ _⟩
  | cons g rest ih =>
    obtain ⟨length, lines, size⟩ := ih (touched.union g.lines)
    rcases Nat.lt_or_ge bound (touched.union g.lines).size with exceeds | fits
    · rw [growRun_cons_of_lt exceeds]
      exact ⟨Nat.zero_le _, by simp, Nat.le_max_right _ _⟩
    · rw [growRun_cons_of_le fits]
      refine ⟨Nat.succ_le_succ length, fun line => ?_, size.trans (by omega)⟩
      rw [lines line, NatSet.mem_union, or_comm (b := line ∈ touched), or_assoc]
      simp only [List.take_succ_cons, List.mem_cons, exists_eq_or_imp]

/-- What ends a run is a gate that needs more lines. -/
theorem growRun_stops (next : gates[(growRun bound touched gates).1]? = some g) :
    bound < ((growRun bound touched gates).2.union g.lines).size := by
  induction gates generalizing touched with
  | nil => cases next
  | cons first rest ih =>
    rcases Nat.lt_or_ge bound (touched.union first.lines).size with exceeds | fits
    · rw [growRun_cons_of_lt exceeds] at next ⊢
      cases next
      exact exceeds
    · rw [growRun_cons_of_le fits] at next ⊢
      exact ih next

/-- The lines of a run that begins without any are those of its gates. -/
theorem growRun_lines (bound : Nat) (gates : List Gate) :
    (growRun bound .empty gates).2 = linesOf (gates.take (growRun bound .empty gates).1) := by
  obtain ⟨-, lines, -⟩ := growRun_spec bound .empty gates
  exact NatSet.ext fun line => by simp only [lines line, NatSet.not_mem_empty, false_or, mem_linesOf]

/-- A run takes the longest list of gates from the head on that touch few enough lines. -/
theorem growRun_greatest (bound : Nat) (gates : List Gate) :
    IsGreatest {n | n ≤ gates.length ∧ (linesOf (gates.take n)).size ≤ bound} (growRun bound .empty gates).1 := by
  obtain ⟨length, -, size⟩ := growRun_spec bound .empty gates
  rw [growRun_lines] at size
  refine ⟨⟨length, size.trans (max_le le_rfl (Nat.zero_le _))⟩, fun n ⟨inside, narrow⟩ => ?_⟩
  by_contra beyond
  have more : (growRun bound .empty gates).1 < gates.length := by omega
  have exceeds := growRun_stops (List.getElem?_eq_getElem more)
  rw [growRun_lines, ← linesOf_append_singleton, List.take_append_getElem] at exceeds
  -- The lines of more gates are no fewer.
  have longer : (linesOf (gates.take ((growRun bound .empty gates).1 + 1))).size ≤ (linesOf (gates.take n)).size :=
    linesOf_size_mono fun g member => List.take_subset_take_left gates (by omega) member
  omega

/-- The wide gates at the head are skipped, and the gates after them are taken, at least one and as many as go. -/
structure FirstRun (bound : Nat) (gates : List Gate) (skipped length : Nat) (touched : NatSet) : Prop where
  wide : ∀ g ∈ gates.take skipped, isWide bound g = true
  nonempty : 0 < length
  inside : skipped + length ≤ gates.length
  lines : touched = linesOf ((gates.drop skipped).take length)
  narrow : touched.size ≤ bound
  maximal : ∀ g, gates[skipped + length]? = some g → bound < (linesOf ((gates.drop skipped).take (length + 1))).size

theorem FirstRun.cons {rest : List Gate} (run : FirstRun bound rest skipped length touched)
    (wide : isWide bound g = true) : FirstRun bound (g :: rest) (skipped + 1) length touched := by
  refine ⟨?_, run.nonempty, ?_, run.lines, run.narrow, fun next found => run.maximal next ?_⟩
  · rw [List.take_succ_cons]
    exact List.forall_mem_cons.mpr ⟨wide, run.wide⟩
  · have inside := run.inside
    rw [List.length_cons]
    omega
  · rwa [Nat.add_right_comm, List.getElem?_cons_succ] at found

/-- A run starts with any narrow gate. -/
theorem FirstRun.of_growRun {rest : List Gate} (fits : isWide bound g = false) :
    FirstRun bound (g :: rest) 0 (growRun bound .empty (g :: rest)).1 (growRun bound .empty (g :: rest)).2 := by
  obtain ⟨length, -, size⟩ := growRun_spec bound .empty (g :: rest)
  have taken := growRun_lines bound (g :: rest)
  have alone : linesOf [g] = NatSet.empty.union g.lines := linesOf_append_singleton [] g
  have narrow : (growRun bound .empty (g :: rest)).2.size ≤ bound := size.trans (max_le (Nat.le_refl _) (Nat.zero_le _))
  refine ⟨fun _ member => absurd member List.not_mem_nil, ?_, by omega, taken, narrow, fun next found => ?_⟩
  · have first : (NatSet.empty.union g.lines).size ≤ bound := by
      rw [← alone]
      exact Nat.not_lt.mp fun exceeds => Bool.eq_false_iff.mp fits (isWide_iff.mpr exceeds)
    rw [growRun_cons_of_le first]
    exact Nat.succ_pos _
  · rw [Nat.zero_add] at found
    have stops := growRun_stops found
    rwa [taken, ← linesOf_append_singleton, ← Option.toList_some, ← found, ← List.take_add_one] at stops

theorem firstRun?_cons_wide {rest : List Gate} (wide : isWide bound g = true) :
    firstRun? bound (g :: rest) = (firstRun? bound rest).map fun (skipped, run) => (skipped + 1, run) := by
  unfold firstRun?
  simp only [List.takeWhile_cons_of_pos wide, List.length_cons, List.drop_succ_cons]
  split <;> rfl

theorem firstRun?_cons_narrow {rest : List Gate} (narrow : isWide bound g = false) :
    firstRun? bound (g :: rest) = some (0, growRun bound .empty (g :: rest)) := by
  unfold firstRun?
  rw [List.takeWhile_cons_of_neg (by rw [narrow]; nofun)]
  rfl

theorem firstRun?_eq_none (absent : firstRun? bound gates = none) : ∀ g ∈ gates, isWide bound g = true := by
  induction gates with
  | nil => exact nofun
  | cons g rest ih =>
    cases wide : isWide bound g with
    | true =>
      rw [firstRun?_cons_wide wide] at absent
      exact List.forall_mem_cons.mpr ⟨wide, ih (Option.map_eq_none_iff.mp absent)⟩
    | false =>
      rw [firstRun?_cons_narrow wide] at absent
      cases absent

theorem firstRun?_spec (found : firstRun? bound gates = some (skipped, length, touched)) :
    FirstRun bound gates skipped length touched := by
  induction gates generalizing skipped with
  | nil => cases found
  | cons g rest ih =>
    cases wide : isWide bound g with
    | true =>
      rw [firstRun?_cons_wide wide] at found
      obtain ⟨⟨before, run⟩, found, same⟩ := Option.map_eq_some_iff.mp found
      cases same
      exact (ih found).cons wide
    | false =>
      rw [firstRun?_cons_narrow wide, Option.some.injEq, Prod.mk.injEq] at found
      obtain ⟨rfl, grown⟩ := found
      have run : FirstRun bound (g :: rest) 0 _ _ := .of_growRun wide
      rwa [grown] at run

end Reversible.Circuit
