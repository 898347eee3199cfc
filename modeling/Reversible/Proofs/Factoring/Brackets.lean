import Reversible.Proofs.Factoring.InPlace
import Reversible.Proofs.Factoring.Saving
import Reversible.Proofs.Merging

namespace Reversible

namespace Gate

/-- An inverter without its controls. A controlled swap stays as it is. -/
def skeleton : Gate → Gate
  | toffoli _ t => toffoli .empty t
  | fredkin cs a b => fredkin cs a b

variable {g h : Gate} {factor : List Nat} {helper : Nat}

theorem skeleton_eq_iff : h.skeleton = g.skeleton ↔
    h.isToffoli = g.isToffoli ∧ h.targets = g.targets ∧ (g.isToffoli = false → h = g) := by
  cases g <;> cases h <;> simp [skeleton, isToffoli, targets]

theorem targets_skeleton (g : Gate) : g.skeleton.targets = g.targets := by cases g <;> rfl

theorem skeleton_of_factorOut (inverts : g.isToffoli = true) (run : g.factorOut factor helper = .ok h) :
    h.skeleton = g.skeleton := by
  unfold factorOut at run
  split at run
  · unfold addControl at run
    obtain ⟨-, run⟩ := require_bind_eq_ok.mp run
    cases run
    rw [foldl_removeControl]
    cases g with
    | toffoli cs t => rfl
    | fredkin cs a b => cases inverts
  · cases run
    rfl

end Gate

namespace Factoring

/-- The skeletons of the gates that target only lines below `n`. -/
def outline (n : Nat) (gates : List Gate) : List Gate :=
  (gates.map Gate.skeleton).filter fun g => g.targets.all (· < n)

variable {cost : CostModel} {c d : Circuit} {helper n count : Nat} {g : Gate} {gates others rest : List Gate}
  {f : Factored} {s t u e : Cursor} {fs more : List Factored} {factors : List (List Factored)}

theorem outline_append : outline n (gates ++ others) = outline n gates ++ outline n others := by
  unfold outline
  rw [List.map_append, List.filter_append]

theorem outline_eq (n : Nat) (gates : List Gate) :
    outline n gates = (gates.filter fun g => g.targets.all (· < n)).map Gate.skeleton := by
  have shape : (fun g : Gate => g.targets.all (· < n)) ∘ Gate.skeleton = fun g => g.targets.all (· < n) :=
    funext fun g => by rw [Function.comp_apply, Gate.targets_skeleton]
  rw [outline, List.filter_map, shape]

/-- Between gates that target the helper line there are the gates of the run on other controls. -/
theorem Proper.outline_gates (proper : Proper cost c helper g rest f) (inverts : g.isToffoli = true) (above : n ≤ helper) :
    outline n f.gates = outline n f.run := by
  obtain ⟨replaced, split, each⟩ := proper.gates_split
  have reached : ∀ other ∈ f.run, other.isToffoli = true := by
    rw [proper.run]
    refine List.forall_mem_cons.mpr ⟨inverts, fun other member => ?_⟩
    exact (isReached_iff.mp (List.all_eq_true.mp List.all_takeWhile other member)).1
  have skeletons : f.run.map Gate.skeleton = replaced.map Gate.skeleton := by
    rw [← List.forall₂_eq_eq_eq, List.forall₂_map_left_iff, List.forall₂_map_right_iff]
    refine ((List.forall₂_and_left _ _).mpr ⟨reached, each⟩).imp fun other shorter both => ?_
    exact (Gate.skeleton_of_factorOut both.1 both.2).symm
  have outside : outline n [bracket f.factor helper] = [] := by
    simp [outline, bracket, Gate.skeleton, Gate.targets, above]
  rw [split, List.cons_append, ← List.singleton_append, outline_append, outline_append, outside, List.append_nil,
    List.nil_append, outline, ← skeletons]
  rfl

/-- The gate at the position that is remembered clears the helper line. -/
def Cursor.Clears (helper : Nat) (s : Cursor) : Prop :=
  ∀ i, s.lastClearing = some i → ∃ cs, s.circuit.gates[i]? = some (.toffoli cs helper)

/-- The second of the two gates around a run is the one that is remembered. -/
theorem Proper.clears (proper : Proper cost c helper g rest f) (ahead : s.circuit.gates.drop s.position = g :: rest) :
    (s.replace f).Clears helper := by
  intro i last
  cases last
  obtain ⟨replaced, split, each⟩ := proper.gates_split
  let before := s.circuit.gates.take s.position ++ bracket f.factor helper :: replaced
  have position : before.length = s.position + f.run.length + 1 := by
    have inside : s.position ≤ s.circuit.gates.length := (lt_size_of_ahead ahead).le
    rw [List.length_append, List.length_take_of_le inside, List.length_cons, ← each.length_eq, Nat.add_assoc]
  have gates : (s.replace f).circuit.gates =
      before ++ bracket f.factor helper :: s.circuit.gates.drop (s.position + f.run.length) := by
    simp [Cursor.replace, before, split]
  rw [gates, ← position, List.getElem?_append_right le_rfl, Nat.sub_self]
  exact ⟨_, rfl⟩

/-- Turns that take out the factors `fs` put two gates that target the helper line around each run. -/
structure Inserts (helper : Nat) (s : Cursor) (fs : List Factored) (t : Cursor) : Prop where
  wires : t.circuit.wires = s.circuit.wires
  outline : ∀ n ≤ helper, outline n t.circuit.gates = outline n s.circuit.gates
  size : t.circuit.size = s.circuit.size + 2 * fs.length
  clears : s.Clears helper → t.Clears helper
  cleared : t.lastClearing = none ↔ s.lastClearing = none ∧ fs = []

theorem Inserts.refl (helper : Nat) (s : Cursor) : Inserts helper s [] s :=
  ⟨rfl, fun _ _ => rfl, rfl, id, by simp⟩

theorem Inserts.trans (first : Inserts helper s fs t) (later : Inserts helper t more u) :
    Inserts helper s (fs ++ more) u := by
  refine ⟨later.wires.trans first.wires, fun n above => (later.outline n above).trans (first.outline n above), ?_,
    later.clears ∘ first.clears, ?_⟩
  · rw [later.size, first.size, List.length_append, Nat.mul_add, Nat.add_assoc]
  · rw [later.cleared, first.cleared, List.append_eq_nil_iff, and_assoc]

theorem Advances.inserts (advances : Advances cost helper s fs t) : Inserts helper s fs t := by
  cases advances with
  | pass ahead kept => exact ⟨rfl, fun _ _ => rfl, rfl, id, by simp [Cursor.pass]⟩
  | @replace g rest f ahead inverts found =>
    have proper := best?_proper found
    have placed := proper.placed ahead
    refine ⟨rfl, fun n above => ?_, (proper.size_replace ahead).1, fun _ => proper.clears ahead, by simp [Cursor.replace]⟩
    have whole := congrArg (Factoring.outline n) (List.take_append_drop s.position s.circuit.gates)
    rw [placed, outline_append, outline_append] at whole
    simp only [Cursor.replace, outline_append, proper.outline_gates inverts above]
    rw [← whole, List.append_assoc]

theorem Sweeps.inserts (sweeps : Sweeps cost helper s fs t) : Inserts helper s fs t := by
  induction sweeps with
  | done past => exact .refl helper _
  | turn first later ih => exact first.inserts.trans ih

/-- Without the gate that clears it last, a helper line that is of use costs one gate less than two for each factor. -/
theorem Sweeps.finish (swept : Sweeps cost c.lines { circuit := c.addLine helperWire } fs e) :
    e.finish.lines = c.lines + 1 ∧ (∀ n ≤ c.lines, outline n e.finish.gates = outline n c.gates) ∧
      e.finish.size + (if fs = [] then 0 else 1) = c.size + 2 * fs.length := by
  have inserts := swept.inserts
  have lines : e.finish.lines = c.lines + 1 := by
    have wires := congrArg List.length inserts.wires
    simpa [Circuit.addLine, Circuit.lines, Cursor.finish] using wires
  have size : e.circuit.size = c.size + 2 * fs.length := inserts.size
  cases last : e.lastClearing with
  | none =>
    have nothing : fs = [] := (inserts.cleared.mp last).2
    have same : e.finish = e.circuit := by rw [Cursor.finish, last]; rfl
    rw [same, if_pos nothing]
    exact ⟨same ▸ lines, inserts.outline, size⟩
  | some i =>
    have something : fs ≠ [] := fun nothing => by
      rw [inserts.cleared.mpr ⟨rfl, nothing⟩] at last
      cases last
    have start : Cursor.Clears c.lines { circuit := c.addLine helperWire } := fun i some => by cases some
    obtain ⟨cs, found⟩ := inserts.clears start i last
    have erased : e.finish.gates = e.circuit.gates.eraseIdx i := by rw [Cursor.finish, last]; rfl
    have inside : i < e.circuit.gates.length := (List.getElem?_eq_some_iff.mp found).1
    refine ⟨lines, fun n above => ?_, ?_⟩
    -- The gate that is left out targets the helper line, so no outline shows it.
    · rw [← show outline n e.circuit.gates = outline n c.gates from inserts.outline n above, erased, outline_eq,
        outline_eq, Circuit.filter_eraseIdx]
      intro g there
      cases found.symm.trans there
      simpa [Gate.targets] using above
    · unfold Circuit.size at size ⊢
      rw [erased, List.length_eraseIdx_of_lt inside, if_neg something]
      omega

theorem Widens.keeps (widens : Widens cost count c factors d) :
    (∀ n ≤ c.lines, outline n d.gates = outline n c.gates) ∧
      d.size + factors.countP (· ≠ []) = c.size + 2 * factors.flatten.length := by
  induction widens with
  | none => exact ⟨fun _ _ => rfl, rfl⟩
  | @add count c fs e others d swept later ih =>
    obtain ⟨lines, outlines, size⟩ := swept.finish
    obtain ⟨outlinesLater, sizeLater⟩ := ih
    refine ⟨fun n above => (outlinesLater n (by omega)).trans (outlines n above), ?_⟩
    rw [List.countP_cons, List.flatten_cons, List.length_append]
    simp only [decide_not, Bool.not_eq_true', decide_eq_false_iff_not] at size sizeLater ⊢
    by_cases nothing : fs = []
    · simp only [nothing, if_true, not_true, if_false] at size ⊢
      omega
    · simp only [nothing, not_false_eq_true, if_true, if_false] at size ⊢
      omega

/-- A run rewrites controls and adds gates that target helper lines, two for each factor. Its scans end, and of each line
that is of use the last of these gates is left out. Without these gates, the gates of the circuit are there in their
order, of the same kinds and with the same targets, and swaps as they were. -/
theorem run_keeps_gates (f : Factoring) {c d : Circuit} {report : Report} (formed : c.WellFormed)
    (finished : f.run c = .ok (d, report)) :
    (∀ helper, WellFounded fun later earlier => ∃ fs, Advances f.cost helper earlier fs later) ∧
      ∃ factors, Widens f.cost f.helperLines c factors d ∧ report.factors = factors.flatten.length ∧
        List.Forall₂ (fun g h => h.isToffoli = g.isToffoli ∧ h.targets = g.targets ∧ (g.isToffoli = false → h = g))
          c.gates (d.gates.filter fun g => g.targets.all (· < c.lines)) ∧
        d.size + factors.countP (· ≠ []) = c.size + 2 * report.factors := by
  obtain ⟨factors, widened, counted⟩ := addHelpers_widens finished
  rw [Nat.zero_add] at counted
  obtain ⟨outlines, size⟩ := widened.keeps
  refine ⟨advances_wellFounded f.cost, factors, widened, counted, ?_, counted ▸ size⟩
  have all : c.gates.filter (fun g => g.targets.all (· < c.lines)) = c.gates := by
    refine List.filter_eq_self.mpr fun g member => List.all_eq_true.mpr fun line target => decide_eq_true ?_
    exact (formed g member).2 line (Gate.mem_lines.mpr (Or.inr target))
  have same := outlines c.lines le_rfl
  rw [outline_eq, outline_eq, all, eq_comm, ← List.forall₂_eq_eq_eq, List.forall₂_map_left_iff,
    List.forall₂_map_right_iff] at same
  exact same.imp fun g h equal => Gate.skeleton_eq_iff.mp equal.symm

theorem run_keeps_gates_grouped :
    let f : Factoring := { helperLines := 3 }
    grouped.WellFormed ∧ ∃ d report, f.run grouped = .ok (d, report) ∧ d.size = 9 ∧ report.factors = 3 ∧
      (∀ helper, WellFounded fun later earlier => ∃ fs, Advances f.cost helper earlier fs later) ∧
      ∃ factors, Widens f.cost 3 grouped factors d ∧ factors.flatten.length = 3 ∧ factors.countP (· ≠ []) = 2 ∧
        List.Forall₂ (fun g h => h.isToffoli = g.isToffoli ∧ h.targets = g.targets ∧ (g.isToffoli = false → h = g))
          grouped.gates (d.gates.filter fun g => g.targets.all (· < 6)) := by
  intro f
  have formed : grouped.WellFormed := by decide
  have ends : (f.run grouped).map (fun out => (out.1.size, out.2.factors)) = .ok (9, 3) := by decide +kernel
  cases run : f.run grouped with
  | error fault =>
    rw [run] at ends
    cases ends
  | ok out =>
    obtain ⟨d, report⟩ := out
    rw [run] at ends
    obtain ⟨size, count⟩ := Prod.mk.inj (Except.ok.inj ends)
    change d.size = 9 at size
    change report.factors = 3 at count
    obtain ⟨terminates, factors, widened, counted, kept, balance⟩ := run_keeps_gates f formed run
    have start : grouped.size = 5 := rfl
    exact ⟨formed, d, report, rfl, size, count, terminates, factors, widened, by omega, by omega, kept⟩

end Factoring

end Reversible
