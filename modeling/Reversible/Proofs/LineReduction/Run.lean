import Reversible.Proofs.LineReduction.Reduction

namespace Reversible.LineReduction

open Circuit

/-- The garbage lines that are neither removed nor kept so far. -/
def State.pending (s : State) : List Nat :=
  (List.range s.circuit.lines).filter fun l => s.circuit.garbage l && decide (s.origin.getD l l ∉ s.skipped)

/-- How many garbage lines are kept. -/
def Tally.kept (t : Tally) : Nat := t.maxWindowLines + t.ambiguous + t.noConstantLine + t.synthesisFailed

/-- How many windows there can be for one garbage line. -/
def attempts (r : LineReduction) : Nat := 1 + (r.growLimit - r.windowLines)

/-- How many windows there can still be. -/
def remaining (r : LineReduction) (s : State) : Nat := s.pending.length * r.attempts - (s.bound - r.windowLines)

variable {r : LineReduction} {c d : Circuit} {origin moved : List Nat} {s : State} {line : Nat} {place : Nat → Nat}

theorem State.next?_eq_none : s.next? = none ↔ s.pending = [] := by
  unfold next?
  rw [earliestGarbage?_eq_none, List.filter_filter]
  rfl

theorem State.mem_pending {l : Nat} : l ∈ s.pending ↔
    l < s.circuit.lines ∧ s.circuit.garbage l = true ∧ s.origin.getD l l ∉ s.skipped := by
  simp [pending]

theorem State.next?_mem (next : s.next? = some line) : line ∈ s.pending := by
  obtain ⟨member, garbage⟩ := earliestGarbage?_eq_some next
  obtain ⟨inside, open'⟩ := List.mem_filter.mp member
  exact mem_pending.mpr ⟨List.mem_range.mp inside, garbage, of_decide_eq_true open'⟩

theorem length_filter_ne {xs : List Nat} {x : Nat} (distinct : xs.Nodup) (member : x ∈ xs) :
    (xs.filter (· != x)).length + 1 = xs.length := by
  have present := List.length_pos_of_mem member
  rw [← distinct.erase_eq_filter, List.length_erase_of_mem member]
  omega

theorem State.pending_nodup (s : State) : s.pending.Nodup := List.nodup_range.filter _

/-- Seen from the lines that stay, what holds of the lines after a reduction is what held before. -/
theorem Reduces.filter_perm (reduces : Reduces c origin line place d moved) {p q : Nat → Bool}
    (same : ∀ i < c.lines, i ≠ line → q (place i) = p i) :
    ((((List.range c.lines).filter p).filter (· != line)).map place).Perm ((List.range d.lines).filter q) := by
  have perm := (reduces.contraction.perm.filter q).symm
  rw [← reduces.lines, List.filter_map] at perm
  refine (List.Perm.of_eq (congrArg (List.map place) ?_)).trans perm.symm
  rw [List.filter_filter, List.filter_filter]
  refine List.filter_congr fun i member => ?_
  by_cases gone : i = line
  · simp [gone]
  · simp [same i (List.mem_range.mp member) gone, Bool.and_comm]

/-- The outputs that are read stay, each in its place. -/
theorem Reduces.read_perm (reduces : Reduces c origin line place d moved) (unread : c.garbage line = true) :
    (((List.range c.lines).filter (!c.garbage ·)).map place).Perm ((List.range d.lines).filter (!d.garbage ·)) := by
  have perm := reduces.filter_perm (p := (!c.garbage ·)) (q := (!d.garbage ·)) fun i below other => by
    rw [reduces.garbage i below other]
  rwa [List.filter_eq_self.mpr fun i member => ?_] at perm
  have read : c.garbage i = false := by simpa using (List.mem_filter.mp member).2
  exact bne_iff_ne.mpr (ne_of_read read unread)

theorem getD_range (xs : List Nat) : (List.range xs.length).map (fun i => xs.getD i i) = xs :=
  List.ext_getElem (by simp) fun i _ inside => by simp [inside]

/-- No two lines stand for the same line of the given circuit. -/
theorem Reduces.distinct (reduces : Reduces c origin line place d moved) (length : origin.length = c.lines)
    (distinct : origin.Nodup) : moved.Nodup := by
  have perm := (reduces.filter_perm (p := fun _ => true) (q := fun _ => true) fun _ _ _ => rfl).map
    fun j => moved.getD j j
  rw [List.filter_true, List.filter_true, ← reduces.length, getD_range, List.map_map] at perm
  refine perm.nodup_iff.mp (List.Nodup.map_on ?_ (List.nodup_range.filter _))
  intro i inI j inJ equal
  obtain ⟨belowI, otherI⟩ : i < c.lines ∧ i ≠ line := by simpa using inI
  obtain ⟨belowJ, otherJ⟩ : j < c.lines ∧ j ≠ line := by simpa using inJ
  simp only [Function.comp_apply, reduces.origin i belowI otherI, reduces.origin j belowJ otherJ] at equal
  rw [List.getD_eq_getElem _ _ (length ▸ belowI), List.getD_eq_getElem _ _ (length ▸ belowJ)] at equal
  exact (List.Nodup.getElem_inj_iff distinct).mp equal

/-- The circuits that come about when garbage lines go one after the other. -/
inductive Shrunk (r : LineReduction) (c : Circuit) : Circuit → Prop
  | start : Shrunk r c c
  | next {d e : Circuit} {origin moved : List Nat} {line : Nat} {place : Nat → Nat} (earlier : Shrunk r c d)
      (unread : d.garbage line = true) (reduces : Reduces d origin line place e moved)
      (keeps : r.simulator = simulate → r.synthesizer.Realizing → KeepsOutputs d place e) : Shrunk r c e

/-- What holds after any number of steps on a circuit. -/
structure Progress (r : LineReduction) (c : Circuit) (s : State) : Prop where
  shrunk : Shrunk r c s.circuit
  formed : s.circuit.WellFormed
  length : s.origin.length = s.circuit.lines
  distinct : s.origin.Nodup
  atLeast : r.windowLines ≤ s.bound
  atMost : s.bound ≤ max r.windowLines r.growLimit
  lines : s.circuit.lines + s.tally.removed = c.lines
  settled : s.tally.removed + s.tally.kept + s.pending.length = c.wires.countP (·.garbage)
  considered : s.tally.considered + r.remaining s ≤ c.wires.countP (·.garbage) * r.attempts
  untouched : s.tally.removed = 0 → s.circuit = c

theorem Tally.skip_spec (t : Tally) (reason : SkipReason) : (t.skip reason).removed = t.removed ∧
    (t.skip reason).considered = t.considered ∧ (t.skip reason).kept = t.kept + 1 := by
  cases reason <;> refine ⟨rfl, rfl, ?_⟩ <;> simp only [skip, kept] <;> omega

theorem remaining_of_first (first : s.bound = r.windowLines) : r.remaining s = s.pending.length * r.attempts := by
  unfold remaining
  omega

theorem attempts_le (open' : s.pending ≠ []) : r.attempts ≤ s.pending.length * r.attempts :=
  Nat.le_mul_of_pos_left _ (List.length_pos_iff.mpr open')

/-- One line less, and with it all of its windows. -/
theorem attempts_settled {pending pendingBefore bound considered : Nat} (fewer : pending + 1 = pendingBefore)
    (atMost : bound - r.windowLines < r.attempts) :
    considered + 1 + pending * r.attempts ≤ considered + (pendingBefore * r.attempts - (bound - r.windowLines)) := by
  have one : pendingBefore * r.attempts = pending * r.attempts + r.attempts := by rw [← fewer, Nat.add_one_mul]
  omega

namespace Progress

theorem bound_lt (progress : Progress r c s) : s.bound - r.windowLines < r.attempts := by
  have atMost := progress.atMost
  unfold attempts
  omega

theorem reduced (progress : Progress r c s) (member : line ∈ s.pending) (events : List Event)
    (reduces : Reduces s.circuit s.origin line place d moved)
    (keeps : r.simulator = simulate → r.synthesizer.Realizing → KeepsOutputs s.circuit place d) :
    let t : State := { s with
      circuit := d, origin := moved, bound := r.windowLines
      tally := { s.tally with considered := s.tally.considered + 1, removed := s.tally.removed + 1 }
      events := events }
    Progress r c t ∧ r.remaining t < r.remaining s := by
  intro t
  obtain ⟨inside, unread, _⟩ := State.mem_pending.mp member
  have perm : ((s.pending.filter (· != line)).map place).Perm t.pending := by
    refine reduces.filter_perm fun i below other => ?_
    rw [reduces.garbage i below other, reduces.origin i below other]
  have fewer : t.pending.length + 1 = s.pending.length := by
    rw [← perm.length_eq, List.length_map, length_filter_ne s.pending_nodup member]
  have lines := progress.lines
  have settled := progress.settled
  have considered := progress.considered
  have windows : s.tally.considered + 1 + t.pending.length * r.attempts ≤ s.tally.considered + r.remaining s :=
    attempts_settled fewer progress.bound_lt
  have left : r.remaining t = t.pending.length * r.attempts := remaining_of_first rfl
  refine ⟨⟨.next progress.shrunk unread reduces keeps, reduces.formed, reduces.length,
    reduces.distinct progress.length progress.distinct, Nat.le_refl _, Nat.le_max_left _ _, ?_, ?_, ?_, nofun⟩,
    by omega⟩
  · change d.lines + (s.tally.removed + 1) = c.lines
    rw [reduces.lines]
    omega
  · change s.tally.removed + 1 + s.tally.kept + t.pending.length = _
    omega
  · change s.tally.considered + 1 + r.remaining t ≤ _
    omega

theorem grown (progress : Progress r c s) (member : line ∈ s.pending) (events : List Event)
    (room : s.bound < r.growLimit) :
    let t : State := { s with
      bound := s.bound + 1, tally := { s.tally with considered := s.tally.considered + 1 }, events := events }
    Progress r c t ∧ r.remaining t < r.remaining s := by
  intro t
  have atLeast := progress.atLeast
  have considered := progress.considered
  have one : r.attempts ≤ s.pending.length * r.attempts := attempts_le (List.ne_nil_of_mem member)
  have larger : s.bound + 1 - r.windowLines < r.attempts := by
    unfold attempts
    omega
  have left : r.remaining t = s.pending.length * r.attempts - (s.bound + 1 - r.windowLines) := rfl
  have before : r.remaining s = s.pending.length * r.attempts - (s.bound - r.windowLines) := rfl
  refine ⟨⟨progress.shrunk, progress.formed, progress.length, progress.distinct, ?_, ?_, progress.lines,
    progress.settled, ?_, progress.untouched⟩, by omega⟩
  · exact Nat.le_succ_of_le atLeast
  · change s.bound + 1 ≤ max r.windowLines r.growLimit
    omega
  · change s.tally.considered + 1 + r.remaining t ≤ _
    omega

theorem skipped (progress : Progress r c s) (member : line ∈ s.pending) (events : List Event) (reason : SkipReason) :
    let t : State := { s with
      tally := { s.tally with considered := s.tally.considered + 1 }.skip reason, bound := r.windowLines
      skipped := s.skipped.insert (s.origin.getD line line), events := events }
    Progress r c t ∧ r.remaining t < r.remaining s := by
  intro t
  obtain ⟨inside, _, _⟩ := State.mem_pending.mp member
  obtain ⟨removed, considered, kept⟩ :=
    ({ s.tally with considered := s.tally.considered + 1 } : Tally).skip_spec reason
  have pending : t.pending = s.pending.filter (· != line) := by
    unfold State.pending
    rw [List.filter_filter]
    refine List.filter_congr fun i below => ?_
    have same : s.origin.getD i i = s.origin.getD line line ↔ i = line := by
      have bound : i < s.origin.length := progress.length ▸ List.mem_range.mp below
      have lineBound : line < s.origin.length := progress.length ▸ inside
      rw [List.getD_eq_getElem _ _ bound, List.getD_eq_getElem _ _ lineBound]
      exact List.Nodup.getElem_inj_iff progress.distinct
    simp only [t, NatSet.mem_insert, same, not_or]
    by_cases gone : i = line <;> simp [gone]
  have fewer : t.pending.length + 1 = s.pending.length := by
    rw [pending, length_filter_ne s.pending_nodup member]
  have settled := progress.settled
  have before := progress.considered
  have windows : s.tally.considered + 1 + t.pending.length * r.attempts ≤ s.tally.considered + r.remaining s :=
    attempts_settled fewer progress.bound_lt
  have left : r.remaining t = t.pending.length * r.attempts := remaining_of_first rfl
  refine ⟨⟨progress.shrunk, progress.formed, progress.length, progress.distinct, Nat.le_refl _, Nat.le_max_left _ _,
    ?_, ?_, ?_, fun zero => progress.untouched (removed.symm.trans zero)⟩, by omega⟩
  · exact removed.symm ▸ progress.lines
  · change (Tally.skip _ reason).removed + (Tally.skip _ reason).kept + t.pending.length = _
    rw [removed, kept]
    change s.tally.removed + (s.tally.kept + 1) + t.pending.length = _
    omega
  · change (Tally.skip _ reason).considered + r.remaining t ≤ _
    rw [considered]
    change s.tally.considered + 1 + r.remaining t ≤ _
    omega

theorem next?_eq_none_of_remaining (progress : Progress r c s) (finished : r.remaining s = 0) : s.next? = none := by
  rw [State.next?_eq_none]
  by_contra present
  have one : r.attempts ≤ s.pending.length * r.attempts := attempts_le present
  have windows := progress.bound_lt
  unfold remaining at finished
  omega

end Progress

/-- A step never fails, and it leaves fewer windows to try. -/
theorem step_progress (runnable : r.Runnable) (progress : Progress r c s) (next : s.next? = some line) :
    ∃ t, r.step s line = .ok t ∧ Progress r c t ∧ r.remaining t < r.remaining s := by
  have member := State.next?_mem next
  obtain ⟨inside, unread, _⟩ := State.mem_pending.mp member
  have narrow : s.bound ≤ 63 := progress.atMost.trans (Nat.max_le.mpr ⟨runnable.windows, runnable.grown⟩)
  obtain ⟨result, events, attempted, outcome⟩ := attempt_spec runnable progress.formed narrow inside
  unfold step
  rw [attempted, ok_bind]
  cases result with
  | reduced d moved =>
    obtain ⟨place, reduces, keeps⟩ := outcome.reduces progress.formed progress.length inside unread
    exact ⟨_, rfl, progress.reduced member _ reduces keeps⟩
  | retry =>
    cases outcome with
    | retry room => exact ⟨_, rfl, progress.grown member _ room⟩
  | unreducible reason => exact ⟨_, rfl, progress.skipped member _ reason⟩

theorem steps_progress (runnable : r.Runnable) {n : Nat} (progress : Progress r c s) (enough : r.remaining s ≤ n) :
    ∃ t, r.steps n s = .ok t ∧ Progress r c t ∧ t.next? = none := by
  induction n generalizing s with
  | zero => exact ⟨s, rfl, progress, progress.next?_eq_none_of_remaining (Nat.le_zero.mp enough)⟩
  | succ n ih =>
    unfold steps
    cases next : s.next? with
    | none => exact ⟨s, rfl, progress, next⟩
    | some line =>
      obtain ⟨t, stepped, advanced, fewer⟩ := step_progress runnable progress next
      simp only
      rw [stepped, ok_bind]
      exact ih advanced (by omega)

theorem length_garbage (c : Circuit) :
    ((List.range c.lines).filter c.garbage).length = c.wires.countP (·.garbage) := by
  conv_rhs => rw [wires_eq_map, List.countP_map, List.countP_eq_length_filter]
  rfl

theorem start_progress (r : LineReduction) (formed : c.WellFormed) :
    Progress r c { circuit := c, origin := List.range c.lines, bound := r.windowLines } := by
  let s : State := { circuit := c, origin := List.range c.lines, bound := r.windowLines }
  have pending : s.pending.length = c.wires.countP (·.garbage) := by
    rw [← length_garbage]
    refine congrArg List.length (List.filter_congr fun i _ => ?_)
    simp [s]
  refine ⟨.start, formed, List.length_range, List.nodup_range, Nat.le_refl _, Nat.le_max_left _ _, rfl, ?_, ?_,
    fun _ => rfl⟩
  · change 0 + 0 + s.pending.length = _
    omega
  · change 0 + (s.pending.length * r.attempts - (r.windowLines - r.windowLines)) ≤ _
    rw [pending]
    omega

theorem run_progress (runnable : r.Runnable) (formed : c.WellFormed) :
    ∃ s, r.run c = .ok s ∧ Progress r c s ∧ s.next? = none := by
  have start := start_progress r formed
  exact steps_progress runnable start ((Nat.le_add_left _ _).trans start.considered)

/-- Line reduction ends with every garbage line either removed or kept for one reason, after at most one window
of each size for each of them. Without a removed line the circuit is the one that was given. -/
theorem run_settles_garbage (runnable : r.Runnable) (formed : c.WellFormed) :
    ∃ s, r.run c = .ok s ∧ s.next? = none ∧
      s.tally.removed + s.tally.maxWindowLines + s.tally.ambiguous + s.tally.noConstantLine +
        s.tally.synthesisFailed = c.wires.countP (·.garbage) ∧
      s.circuit.lines + s.tally.removed = c.lines ∧
      s.tally.considered ≤ c.wires.countP (·.garbage) * (1 + (r.growLimit - r.windowLines)) ∧
      (s.tally.removed = 0 → s.circuit = c) := by
  obtain ⟨s, runs, progress, done⟩ := run_progress runnable formed
  have settled := progress.settled
  have considered := progress.considered
  rw [State.next?_eq_none.mp done, List.length_nil] at settled
  unfold Tally.kept at settled
  exact ⟨s, runs, done, by omega, progress.lines, (Nat.le_add_right _ _).trans considered, progress.untouched⟩

/-- Copies of a value. Line 0 is garbage, and it is last used before line 3 is first used. -/
def copies : Circuit :=
  ⟨[⟨"x", "g", some false, true⟩, ⟨"a", "f", none, false⟩, ⟨"y", "h", some false, false⟩,
      ⟨"z", "k", some false, false⟩],
    [.toffoli (NatSet.ofList [1]) 0, .toffoli (NatSet.ofList [0]) 2, .toffoli (NatSet.ofList [1]) 3]⟩

example : (({} : LineReduction).run copies).map (fun s => (s.tally.removed, s.circuit.lines)) = .ok (1, 3) := by cbv

theorem default_runnable : ({} : LineReduction).Runnable where
  windows := by decide
  grown := by decide
  enumerable := by decide
  preserving := simulate_widthPreserving
  proper := (Transformation.synthesizer_realizing {} (by decide)).1

theorem run_settles_garbage_copies : ({} : LineReduction).Runnable ∧ copies.WellFormed ∧
    ∃ s, ({} : LineReduction).run copies = .ok s ∧ s.next? = none ∧
      s.tally.removed + s.tally.maxWindowLines + s.tally.ambiguous + s.tally.noConstantLine +
        s.tally.synthesisFailed = 1 ∧
      s.circuit.lines + s.tally.removed = 4 ∧ s.tally.considered ≤ 1 * (1 + (9 - 6)) ∧
      (s.tally.removed = 0 → s.circuit = copies) := by
  have formed : copies.WellFormed := by decide
  exact ⟨default_runnable, formed, run_settles_garbage default_runnable formed⟩

end Reversible.LineReduction
