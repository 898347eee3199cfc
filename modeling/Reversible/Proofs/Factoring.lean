import Reversible.Factoring
import Reversible.Proofs.Relabelling

namespace Reversible

theorem NatSet.mem_foldl_erase {line : Nat} {factor : List Nat} {cs : NatSet} :
    line ∈ factor.foldl (fun cs l => cs.erase l) cs ↔ line ∈ cs ∧ line ∉ factor := by
  induction factor generalizing cs with
  | nil => simp
  | cons l rest ih =>
    rw [List.foldl_cons, ih, NatSet.mem_erase, List.mem_cons, not_or, and_assoc]

namespace Gate

theorem wellFormed_toffoli {n t : Nat} {cs : NatSet} :
    (toffoli cs t).WellFormed n ↔ t ∉ cs ∧ t < n ∧ ∀ line ∈ cs, line < n := by
  constructor
  · intro formed
    refine ⟨fun control => ?_, formed.2 t (by simp [lines, targets]), fun line control => ?_⟩
    · exact (List.nodup_append.mp formed.1).2.2 t control t (List.mem_singleton_self t) rfl
    · exact formed.2 line (mem_lines.mpr (Or.inl control))
  · rintro ⟨apart, inside, controls⟩
    refine ⟨List.nodup_append.mpr ⟨NatSet.nodup cs, List.nodup_singleton t, ?_⟩, fun line touched => ?_⟩
    · intro a control b target equal
      rw [List.mem_singleton.mp target] at equal
      exact apart (equal ▸ control)
    · rcases mem_lines.mp touched with control | target
      · exact controls line control
      · exact List.mem_singleton.mp target ▸ inside

theorem WellFormed.not_mem_lines {n : Nat} {g : Gate} (formed : g.WellFormed n) : n ∉ g.lines :=
  fun touched => Nat.lt_irrefl n (formed.2 n touched)

/-- The gate with a control on `helper` in the place of the controls of `factor`, if it has all of them. -/
def factored (factor : List Nat) (helper : Nat) (g : Gate) : Gate :=
  if factor.all g.hasControl then g.withControls ((factor.foldl (fun cs l => cs.erase l) g.controls).insert helper)
  else g

theorem foldl_removeControl (factor : List Nat) (g : Gate) :
    factor.foldl removeControl g = g.withControls (factor.foldl (fun cs l => cs.erase l) g.controls) := by
  induction factor generalizing g with
  | nil => cases g <;> rfl
  | cons l rest ih =>
    rw [List.foldl_cons, List.foldl_cons, ih]
    cases g <;> rfl

theorem factorOut_eq_factored {factor : List Nat} {helper : Nat} {g : Gate} (apart : helper ∉ g.targets) :
    g.factorOut factor helper = .ok (g.factored factor helper) := by
  have targets : (factor.foldl removeControl g).hasTarget helper = false := by
    rw [foldl_removeControl]
    cases g <;> simpa [hasTarget, withControls, Gate.targets] using apart
  unfold factorOut factored
  split
  · unfold addControl
    rw [require_of targets, foldl_removeControl]
    cases g <;> rfl
  · rfl

theorem act_update_untouched {g : Gate} {line : Nat} (untouched : line ∉ g.lines) (σ : Assignment) (value : Bool) :
    g.act (Function.update σ line value) = Function.update (g.act σ) line value := by
  funext l
  by_cases same : l = line
  · subst same
    rw [act_of_not_target (fun target => untouched (mem_lines.mpr (Or.inr target))), Function.update_self,
      Function.update_self]
  · rw [Function.update_of_ne same]
    refine act_congr (S := {l | l ≠ line}) (fun l touched equal => untouched (equal ▸ touched)) ?_ l same
    exact fun l different => Function.update_of_ne different _ _

/-- While the helper line holds the conjunction of the factor, it serves as well as the factor does. -/
theorem act_factored {factor : List Nat} {helper : Nat} {g : Gate} (inverts : g.isToffoli = true)
    (untouched : helper ∉ g.lines) (σ : Assignment) :
    (g.factored factor helper).act (Function.update σ helper (factor.all σ)) =
      Function.update (g.act σ) helper (factor.all σ) := by
  unfold factored
  by_cases includes : factor.all g.hasControl = true
  · rw [if_pos includes]
    cases g with
    | fredkin cs a b => cases inverts
    | toffoli cs t =>
      have different : t ≠ helper := fun equal => untouched (by simp [lines, targets, equal])
      have contained : ∀ l ∈ factor, l ∈ cs :=
        fun l inFactor => of_decide_eq_true (List.all_eq_true.mp includes l inFactor)
      have fires : ((factor.foldl (fun cs l => cs.erase l) cs).insert helper).toList.all
          (Function.update σ helper (factor.all σ)) = cs.toList.all σ := by
        rw [Bool.eq_iff_iff, List.all_eq_true, List.all_eq_true]
        constructor
        · intro every l control
          have conjunction := every helper (NatSet.mem_insert.mpr (Or.inl rfl))
          rw [Function.update_self, List.all_eq_true] at conjunction
          by_cases inFactor : l ∈ factor
          · exact conjunction l inFactor
          · have apart : l ≠ helper := fun equal => untouched (mem_lines.mpr (Or.inl (equal ▸ control)))
            have kept := every l (NatSet.mem_insert.mpr (Or.inr (NatSet.mem_foldl_erase.mpr ⟨control, inFactor⟩)))
            rwa [Function.update_of_ne apart] at kept
        · intro every l control
          rcases NatSet.mem_insert.mp control with rfl | kept
          · rw [Function.update_self, List.all_eq_true]
            exact fun l inFactor => every l (contained l inFactor)
          · have control := (NatSet.mem_foldl_erase.mp kept).1
            have apart : l ≠ helper := fun equal => untouched (mem_lines.mpr (Or.inl (equal ▸ control)))
            rw [Function.update_of_ne apart]
            exact every l control
      simp only [withControls, controls, act_toffoli, fires]
      split
      · rw [Function.update_of_ne different, Function.update_comm different.symm]
      · rfl
  · rw [if_neg includes]
    exact act_update_untouched untouched σ _

theorem factored_wellFormed {n : Nat} {factor : List Nat} {g : Gate} (inverts : g.isToffoli = true)
    (formed : g.WellFormed n) : (g.factored factor n).WellFormed (n + 1) := by
  unfold factored
  split
  · cases g with
    | fredkin cs a b => cases inverts
    | toffoli cs t =>
      obtain ⟨apart, inside, bound⟩ := wellFormed_toffoli.mp formed
      simp only [withControls, controls]
      refine wellFormed_toffoli.mpr ⟨fun control => ?_, by omega, fun line control => ?_⟩
      · rcases NatSet.mem_insert.mp control with equal | kept
        · omega
        · exact apart (NatSet.mem_foldl_erase.mp kept).1
      · rcases NatSet.mem_insert.mp control with rfl | kept
        · exact Nat.lt_succ_self _
        · exact Nat.lt_succ_of_lt (bound line (NatSet.mem_foldl_erase.mp kept).1)
  · exact formed.mono (Nat.le_succ n)

end Gate

namespace Factoring

/-- The gate that writes the conjunction of a factor to the helper line and clears it again. -/
def bracket (factor : List Nat) (helper : Nat) : Gate := .toffoli (NatSet.ofList factor) helper

theorem act_bracket (factor : List Nat) (helper : Nat) (σ : Assignment) :
    (bracket factor helper).act σ = if factor.all σ then Function.update σ helper (!σ helper) else σ := by
  unfold bracket
  rw [Gate.act_toffoli, NatSet.all_ofList]

variable {factor : List Nat} {helper : Nat}

theorem act_bracket_clear {σ : Assignment} (clear : σ helper = false) :
    (bracket factor helper).act σ = Function.update σ helper (factor.all σ) := by
  rw [act_bracket]
  by_cases fires : factor.all σ = true
  · rw [if_pos fires, clear, fires]
    rfl
  · rw [if_neg fires, Bool.eq_false_iff.mpr fires, ← clear, Function.update_eq_self]

theorem all_update (apart : helper ∉ factor) (σ : Assignment) (value : Bool) :
    factor.all (Function.update σ helper value) = factor.all σ := by
  rw [Bool.eq_iff_iff, List.all_eq_true, List.all_eq_true]
  refine forall_congr' fun l => imp_congr_right fun inFactor => ?_
  have different : l ≠ helper := fun equal => apart (equal ▸ inFactor)
  rw [Function.update_of_ne different]

/-- The second bracket undoes the first as long as the factor has kept its value. -/
theorem act_bracket_again (apart : helper ∉ factor) {σ : Assignment} (clear : σ helper = false) :
    (bracket factor helper).act (Function.update σ helper (factor.all σ)) = σ := by
  rw [act_bracket, all_update apart, Function.update_self, Function.update_idem]
  by_cases fires : factor.all σ = true
  · rw [if_pos fires, fires, Bool.not_true, ← clear, Function.update_eq_self]
  · rw [if_neg fires, Bool.eq_false_iff.mpr fires, ← clear, Function.update_eq_self]

/-- Gates that a factor is taken out of: inverters that leave the factor alone and do not know the helper line. -/
structure Admits (factor : List Nat) (helper : Nat) (g : Gate) : Prop where
  inverts : g.isToffoli = true
  keeps : ∀ l ∈ factor, l ∉ g.targets
  untouched : helper ∉ g.lines

theorem all_act {g : Gate} (admits : Admits factor helper g) (σ : Assignment) :
    factor.all (g.act σ) = factor.all σ := by
  rw [Bool.eq_iff_iff, List.all_eq_true, List.all_eq_true]
  refine forall_congr' fun l => imp_congr_right fun inFactor => ?_
  rw [Gate.act_of_not_target (admits.keeps l inFactor)]

theorem act_map_factored {run : List Gate} (admits : ∀ g ∈ run, Admits factor helper g) (σ : Assignment) :
    Circuit.act (run.map (Gate.factored factor helper)) (Function.update σ helper (factor.all σ)) =
      Function.update (Circuit.act run σ) helper (factor.all (Circuit.act run σ)) := by
  induction run generalizing σ with
  | nil => rfl
  | cons g rest ih =>
    have head := admits g List.mem_cons_self
    rw [List.map_cons, Circuit.act_cons, Gate.act_factored head.inverts head.untouched, ← all_act head σ,
      ih fun other member => admits other (List.mem_cons_of_mem g member)]
    rfl

/-- What becomes of a run: its gates with a control on the helper line for the factor, between two brackets. -/
def rewritten (factor : List Nat) (helper : Nat) (run : List Gate) : List Gate :=
  bracket factor helper :: run.map (Gate.factored factor helper) ++ [bracket factor helper]

/-- What holds of the brackets and of the gates with the factor taken out holds of all that becomes of a run. -/
theorem forall_mem_rewritten {run : List Gate} {P : Gate → Prop} (ends : P (bracket factor helper))
    (each : ∀ g ∈ run, P (g.factored factor helper)) : ∀ g ∈ rewritten factor helper run, P g :=
  List.forall_mem_append.mpr
    ⟨List.forall_mem_cons.mpr ⟨ends, List.forall_mem_map.mpr each⟩, List.forall_mem_singleton.mpr ends⟩

/-- What becomes of a run is found wherever the factor and the helper line, which it does not have, are lines of the
circuit. -/
theorem rewriteRun_eq_rewritten {run : List Gate} {lines : Nat} (admits : ∀ g ∈ run, Admits factor helper g)
    (apart : helper ∉ factor) (inside : ∀ line ∈ factor, line < lines) (room : helper < lines) :
    rewriteRun lines factor helper run = .ok (rewritten factor helper run) := by
  have replaced : run.mapM (Gate.factorOut factor helper) = .ok (run.map (Gate.factored factor helper)) :=
    mapM_eq_ok fun g member => Gate.factorOut_eq_factored fun target =>
      (admits g member).untouched (Gate.mem_lines.mpr (Or.inr target))
  have apart : helper ∉ NatSet.ofList factor := fun member => apart (NatSet.mem_ofList.mp member)
  have formed : (Gate.toffoli (NatSet.ofList factor) helper).WellFormed lines :=
    Gate.wellFormed_toffoli.mpr ⟨apart, room, fun line control => inside line (NatSet.mem_ofList.mp control)⟩
  unfold rewriteRun Gate.controlledNot Circuit.checkGate
  rw [replaced, ok_bind, require_of apart, ok_bind, pure_eq_ok, ok_bind, require_of formed.maxLine_lt]
  rfl

/-- A factor that can be taken out of a run with the help of the next line. -/
structure Serves (factor : List Nat) (helper : Nat) (run : List Gate) : Prop where
  admits : ∀ g ∈ run, Admits factor helper g
  formed : ∀ g ∈ run, g.WellFormed helper
  inside : ∀ line ∈ factor, line < helper

namespace Serves

variable {run : List Gate}

theorem apart (serves : Serves factor helper run) : helper ∉ factor :=
  fun member => Nat.lt_irrefl helper (serves.inside helper member)

theorem bracket_wellFormed (serves : Serves factor helper run) : (bracket factor helper).WellFormed (helper + 1) :=
  Gate.wellFormed_toffoli.mpr ⟨fun control => serves.apart (NatSet.mem_ofList.mp control), Nat.lt_succ_self helper,
    fun line control => Nat.lt_succ_of_lt (serves.inside line (NatSet.mem_ofList.mp control))⟩

theorem rewritten_wellFormed (serves : Serves factor helper run) :
    ∀ g ∈ rewritten factor helper run, g.WellFormed (helper + 1) :=
  forall_mem_rewritten serves.bracket_wellFormed fun g member =>
    Gate.factored_wellFormed (serves.admits g member).inverts (serves.formed g member)

theorem rewriteRun_eq (serves : Serves factor helper run) {lines : Nat} (room : helper < lines) :
    rewriteRun lines factor helper run = .ok (rewritten factor helper run) :=
  rewriteRun_eq_rewritten serves.admits serves.apart (fun line member => (serves.inside line member).trans room) room

/-- On a clear helper line the rewritten run does what the run does, and leaves the line clear. -/
theorem act_rewritten (serves : Serves factor helper run) {σ : Assignment} (clear : σ helper = false) :
    Circuit.act (rewritten factor helper run) σ = Circuit.act run σ := by
  have stillClear : Circuit.act run σ helper = false := by
    rw [Circuit.act_untouched fun g member => (serves.admits g member).untouched, clear]
  have computed : Circuit.act (bracket factor helper :: run.map (Gate.factored factor helper)) σ =
      Function.update (Circuit.act run σ) helper (factor.all (Circuit.act run σ)) := by
    rw [Circuit.act_cons, act_bracket_clear clear, act_map_factored serves.admits]
  unfold rewritten
  rw [Circuit.act_append, computed]
  exact act_bracket_again serves.apart stillClear

end Serves

theorem subset_sublist (controls : List Nat) (mask : Nat) : (subset controls mask).Sublist controls := by
  have positions : (controls.zipIdx.map Prod.fst).Sublist controls := by rw [List.zipIdx_map_fst]
  exact (List.filter_sublist.map Prod.fst).trans positions

/-- At least two controls of a gate. -/
structure IsFactor (g : Gate) (factor : List Nat) : Prop where
  sublist : factor.Sublist g.controls.toList
  several : 1 < factor.length

/-- A factor that is taken out before the gate can be put back behind it. -/
def Reached (factor : List Nat) (g : Gate) : Prop := g.isToffoli = true ∧ ∀ l ∈ factor, l ∉ g.targets

theorem isReached_iff {g : Gate} : isReached factor g = true ↔ Reached factor g := by
  simp only [isReached, Reached, Gate.hasTarget, Bool.and_eq_true, List.all_eq_true, Bool.not_eq_true',
    List.contains_eq_mem, decide_eq_false_iff_not]

/-- A Toffoli gate targets none of its own controls, so its factors reach it. -/
theorem IsFactor.reaches {g : Gate} {n : Nat} (isFactor : IsFactor g factor) (inverts : g.isToffoli = true)
    (formed : g.WellFormed n) : isReached factor g = true :=
  isReached_iff.mpr ⟨inverts, fun l inFactor target =>
    (List.nodup_append.mp formed.1).2.2 l (isFactor.sublist.mem inFactor) l target rfl⟩

/-- A factor serves the gates that it reaches from a gate on that it is a factor of. -/
theorem IsFactor.serves {g : Gate} {rest : List Gate} (isFactor : IsFactor g factor) (inverts : g.isToffoli = true)
    (formed : ∀ other ∈ g :: rest, other.WellFormed helper) :
    Serves factor helper (g :: rest.takeWhile (isReached factor)) := by
  obtain ⟨head, tail⟩ := List.forall_mem_cons.mp formed
  have runFormed : ∀ other ∈ g :: rest.takeWhile (isReached factor), other.WellFormed helper :=
    List.forall_mem_cons.mpr ⟨head, fun other reached => tail other ((List.takeWhile_sublist _).mem reached)⟩
  have runReached : ∀ other ∈ g :: rest.takeWhile (isReached factor), isReached factor other = true :=
    List.forall_mem_cons.mpr ⟨isFactor.reaches inverts head, fun other => List.all_eq_true.mp List.all_takeWhile other⟩
  refine ⟨fun other member => ?_, runFormed, fun l inFactor => ?_⟩
  · obtain ⟨inverts, keeps⟩ := isReached_iff.mp (runReached other member)
    exact ⟨inverts, keeps, (runFormed other member).not_mem_lines⟩
  · exact head.2 l (Gate.mem_lines.mpr (Or.inl (isFactor.sublist.mem inFactor)))

/-- A factor of a gate, with the run from this gate on that it reaches and the rewritten run, which is cheaper. -/
structure Proper (cost : CostModel) (c : Circuit) (helper : Nat) (g : Gate) (rest : List Gate) (f : Factored) :
    Prop where
  isFactor : IsFactor g f.factor
  run : f.run = g :: rest.takeWhile (isReached f.factor)
  gates : rewriteRun c.lines f.factor helper f.run = .ok f.gates
  cheaper : ∃ old new, cost.circuitCost { c with gates := f.run } = .ok old ∧
    cost.circuitCost { c with gates := f.gates } = .ok new ∧ new < old ∧ f.saving = old - new

variable {cost : CostModel} {c : Circuit} {g : Gate} {rest : List Gate} {f : Factored}

theorem factor?_proper (isFactor : IsFactor g factor)
    (found : factor? cost c helper factor (g :: rest.takeWhile (isReached factor)) = .ok (some f)) :
    Proper cost c helper g rest f := by
  unfold factor? at found
  obtain ⟨gates, rewrites, found⟩ := bind_eq_ok.mp found
  obtain ⟨old, oldCost, found⟩ := bind_eq_ok.mp found
  obtain ⟨new, newCost, found⟩ := bind_eq_ok.mp found
  split at found
  · cases found
    exact ⟨isFactor, rfl, rewrites, old, new, oldCost, newCost, ‹_›, rfl⟩
  · cases found

theorem best?_proper (found : best? cost c helper g rest = .ok (some f)) : Proper cost c helper g rest f := by
  unfold best? at found
  obtain ⟨_, search⟩ := require_bind_eq_ok.mp found
  refine foldFrom_invariant (fun best => ∀ f, best = some f → Proper cost c helper g rest f) ?_
    (fun _ none => by cases none) search f rfl
  intro best mask next kept step
  dsimp only at step
  split at step
  · cases step
    exact kept
  · rename_i several
    rw [not_or, Nat.not_le] at several
    obtain ⟨candidate?, tried, step⟩ := bind_eq_ok.mp step
    cases candidate? with
    | none =>
      cases step
      exact kept
    | some candidate =>
      cases step
      have proper := factor?_proper ⟨subset_sublist _ mask, several.1⟩ tried
      intro chosen equal
      unfold prefer at equal
      split at equal
      · cases equal
        exact proper
      · split at equal
        · cases equal
          exact proper
        · exact kept chosen equal

theorem Proper.serves (proper : Proper cost c helper g rest f) (inverts : g.isToffoli = true)
    (formed : ∀ other ∈ g :: rest, other.WellFormed helper) : Serves f.factor helper f.run :=
  proper.run ▸ proper.isFactor.serves inverts formed

theorem Proper.gates_eq (proper : Proper cost c helper g rest f) (serves : Serves f.factor helper f.run)
    (room : helper < c.lines) : f.gates = rewritten f.factor helper f.run :=
  (Except.ok.inj ((serves.rewriteRun_eq room).symm.trans proper.gates)).symm

/-- The gates that are skipped after the first gate of a run are the others of the run. -/
theorem Proper.cons_take (proper : Proper cost c helper g rest f) : g :: rest.take (f.run.length - 1) = f.run := by
  have others : rest.take (f.run.length - 1) = rest.takeWhile (isReached f.factor) := by
    rw [proper.run, List.length_cons, Nat.add_sub_cancel]
    exact (List.prefix_iff_eq_take.mp (List.takeWhile_prefix _)).symm
  rw [others, proper.run]

theorem Proper.run_append_drop (proper : Proper cost c helper g rest f) :
    f.run ++ rest.drop (f.run.length - 1) = g :: rest := by
  have split : (g :: rest.take (f.run.length - 1)) ++ rest.drop (f.run.length - 1) = g :: rest := by
    rw [List.cons_append, List.take_append_drop]
  rwa [proper.cons_take] at split

/-- On a clear helper line the gates so far do what the gates `done` did, and after the last gate that
clears the line none touches it. -/
structure Scan.Follows (helper : Nat) (done : List Gate) (s : Scan) : Prop where
  untouched : ∀ g ∈ done, helper ∉ g.lines
  clean : ∀ σ : Assignment, σ helper = false → Circuit.act s.gates σ = Circuit.act done σ
  formed : ∀ g ∈ s.gates, g.WellFormed (helper + 1)
  clearing : ∀ i, s.lastClearing = some i → ∃ before cs after,
    s.gates = before ++ Gate.toffoli cs helper :: after ∧ before.length = i ∧ ∀ g ∈ after, helper ∉ g.lines

namespace Scan.Follows

variable {done : List Gate} {s : Scan}

theorem start (report : Report) : Follows helper [] { report } :=
  ⟨nofun, fun _ _ => rfl, nofun, nofun⟩

theorem keep (follows : s.Follows helper done) {g : Gate} (formed : g.WellFormed helper) :
    (s.keep g).Follows helper (done ++ [g]) := by
  refine ⟨fun other member => ?_, fun σ clear => ?_, fun other member => ?_, fun i last => ?_⟩
  · rcases List.mem_append.mp member with old | new
    · exact follows.untouched other old
    · exact List.mem_singleton.mp new ▸ formed.not_mem_lines
  · simp only [Scan.keep, Circuit.act_append, follows.clean σ clear]
  · rcases List.mem_append.mp member with old | new
    · exact follows.formed other old
    · exact List.mem_singleton.mp new ▸ formed.mono (Nat.le_succ helper)
  · obtain ⟨before, cs, after, gates, length, quiet⟩ := follows.clearing i last
    refine ⟨before, cs, after ++ [g], by simp [Scan.keep, gates], length, fun other member => ?_⟩
    rcases List.mem_append.mp member with old | new
    · exact quiet other old
    · exact List.mem_singleton.mp new ▸ formed.not_mem_lines

theorem apply (follows : s.Follows helper done) {f : Factored} {next : Scan} (serves : Serves f.factor helper f.run)
    (gates : f.gates = rewritten f.factor helper f.run) (applied : s.apply helper f = .ok next) :
    next.Follows helper (done ++ f.run) := by
  obtain ⟨saving, _, applied⟩ := bind_eq_ok.mp applied
  cases applied
  refine ⟨fun g member => ?_, fun σ clear => ?_, fun g member => ?_, fun i last => ?_⟩
  · exact (List.mem_append.mp member).elim (follows.untouched g) fun new => (serves.admits g new).untouched
  · have stillClear : Circuit.act done σ helper = false := by rw [Circuit.act_untouched follows.untouched, clear]
    simp only [Circuit.act_append]
    rw [follows.clean σ clear, gates, serves.act_rewritten stillClear]
  · rcases List.mem_append.mp member with old | new
    · exact follows.formed g old
    · exact serves.rewritten_wellFormed g (gates ▸ new)
  · cases last
    refine ⟨s.gates ++ bracket f.factor helper :: f.run.map (Gate.factored f.factor helper),
      NatSet.ofList f.factor, [], ?_, ?_, fun g none => absurd none List.not_mem_nil⟩
    · simp only [gates, rewritten, List.append_assoc]
      rfl
    · simp only [List.length_append, List.length_cons, List.length_map]
      omega

end Scan.Follows

section

variable {s next : Scan}

theorem scan_keep (kept : g.isToffoli = true → best? cost c helper g rest = .ok none) :
    scan cost c helper 0 s (g :: rest) = scan cost c helper 0 (s.keep g) rest := by
  rw [scan]
  by_cases inverts : g.isToffoli = true
  · simp only [inverts, Bool.not_true, Bool.false_eq_true, if_false, kept inverts, ok_bind]
  · simp only [inverts, Bool.not_false, if_true]

theorem scan_apply (inverts : g.isToffoli = true) (found : best? cost c helper g rest = .ok (some f)) :
    scan cost c helper 0 s (g :: rest) =
      (s.apply helper f >>= fun next => scan cost c helper (f.run.length - 1) next rest) := by
  rw [scan]
  simp only [inverts, Bool.not_true, Bool.false_eq_true, if_false, found, ok_bind]

/-- A scan keeps a gate, or takes a factor out of the run that begins with it. -/
theorem scan_cons_cases (scanned : scan cost c helper 0 s (g :: rest) = .ok next) :
    (g.isToffoli = true → best? cost c helper g rest = .ok none) ∧
        scan cost c helper 0 (s.keep g) rest = .ok next ∨
      ∃ f applied, g.isToffoli = true ∧ best? cost c helper g rest = .ok (some f) ∧ s.apply helper f = .ok applied ∧
        scan cost c helper (f.run.length - 1) applied rest = .ok next := by
  by_cases inverts : g.isToffoli = true
  · cases search : best? cost c helper g rest with
    | error fault =>
      rw [scan] at scanned
      simp only [inverts, Bool.not_true, Bool.false_eq_true, if_false, search, error_bind] at scanned
      cases scanned
    | ok best =>
      cases best with
      | none => exact Or.inl ⟨fun _ => rfl, scan_keep (fun _ => search) ▸ scanned⟩
      | some f =>
        rw [scan_apply inverts search] at scanned
        obtain ⟨applied, application, scanned⟩ := bind_eq_ok.mp scanned
        exact Or.inr ⟨f, applied, inverts, rfl, application, scanned⟩
  · have kept : g.isToffoli = true → best? cost c helper g rest = .ok none := fun yes => absurd yes inverts
    exact Or.inl ⟨kept, scan_keep kept ▸ scanned⟩

end

/-- A scan that has `skip` gates behind it already goes on to follow all gates. -/
theorem scan_follows {skip : Nat} {s next : Scan} (room : helper < c.lines) (done : List Gate) {rest : List Gate}
    (formed : ∀ g ∈ rest, g.WellFormed helper) (follows : s.Follows helper (done ++ rest.take skip))
    (scanned : scan cost c helper skip s rest = .ok next) : next.Follows helper (done ++ rest) := by
  induction rest generalizing skip s done with
  | nil =>
    cases scanned
    simpa using follows
  | cons g rest ih =>
    have tail : ∀ other ∈ rest, other.WellFormed helper :=
      fun other member => formed other (List.mem_cons_of_mem g member)
    have through : ∀ {skip : Nat} {s : Scan}, s.Follows helper (done ++ g :: rest.take skip) →
        scan cost c helper skip s rest = .ok next → next.Follows helper (done ++ g :: rest) := by
      intro skip s follows scanned
      rw [List.append_cons] at follows ⊢
      exact ih (done ++ [g]) tail follows scanned
    cases skip with
    | succ skip => exact through follows scanned
    | zero =>
      have soFar : s.Follows helper done := by simpa using follows
      rcases scan_cons_cases scanned with ⟨-, scanned⟩ | ⟨f, applied, inverts, search, application, scanned⟩
      · have kept : (s.keep g).Follows helper (done ++ g :: rest.take 0) := soFar.keep (formed g List.mem_cons_self)
        exact through kept scanned
      · have proper := best?_proper search
        have serves := proper.serves inverts formed
        have followed := soFar.apply serves (proper.gates_eq serves room) application
        refine through ?_ scanned
        rwa [proper.cons_take]

def helperWire : Wire := ⟨"helper", "helper", some false, true⟩

/-- After `count` more lines that start with zero, the other lines have the values that they had before. -/
structure Extends (c : Circuit) (count : Nat) (d : Circuit) : Prop where
  wires : d.wires = c.wires ++ List.replicate count helperWire
  formed : d.WellFormed
  same : ∀ σ : Assignment, (∀ line, c.lines ≤ line → σ line = false) →
    ∀ line < c.lines, Circuit.act d.gates σ line = Circuit.act c.gates σ line

theorem cleared_sublist (gates : List Gate) (last : Option Nat) : (last.elim gates gates.eraseIdx).Sublist gates := by
  cases last with
  | none => exact List.Sublist.refl _
  | some i => exact List.eraseIdx_sublist _ i

/-- Without the gate that clears it last, only the helper line itself ends otherwise. -/
theorem Scan.Follows.act_eraseIdx {done : List Gate} {s : Scan} (follows : s.Follows helper done) {σ : Assignment}
    (clear : σ helper = false) {line : Nat} (different : line ≠ helper) :
    Circuit.act (s.lastClearing.elim s.gates s.gates.eraseIdx) σ line = Circuit.act done σ line := by
  rw [← follows.clean σ clear]
  cases last : s.lastClearing with
  | none => rfl
  | some i =>
    obtain ⟨before, cs, after, gates, rfl, quiet⟩ := follows.clearing i last
    have erased : s.gates.eraseIdx before.length = before ++ after := by simp [gates, List.eraseIdx_append_of_length_le]
    rw [Option.elim_some, erased, gates, Circuit.act_append, Circuit.act_append, Circuit.act_cons]
    refine Circuit.act_congr (S := {l | l ≠ helper}) (fun g member l touched equal => ?_) (fun l other => ?_)
      line different
    · exact quiet g member (equal ▸ touched)
    · exact (Gate.act_of_not_target (fun target => other (List.mem_singleton.mp target)) _).symm

theorem addHelper_extends {cost : CostModel} {c d : Circuit} {before after : Report} (formed : c.WellFormed)
    (added : addHelper cost c before = .ok (d, after)) : Extends c 1 d := by
  obtain ⟨s, scanned, added⟩ := bind_eq_ok.mp added
  cases added
  have room : c.lines < (c.addLine helperWire).lines := by simp [Circuit.addLine, Circuit.lines]
  have follows := scan_follows room [] formed (Scan.Follows.start _) scanned
  refine ⟨rfl, fun g member => ?_, fun σ clear line inside => ?_⟩
  · have kept : g ∈ s.gates := (cleared_sublist _ _).mem member
    simpa [Circuit.addLine, Circuit.lines] using follows.formed g kept
  · exact follows.act_eraseIdx (clear c.lines le_rfl) (Nat.ne_of_lt inside)

theorem addHelpers_extends {cost : CostModel} {count : Nat} {c d : Circuit} {before after : Report}
    (formed : c.WellFormed) (added : addHelpers cost count c before = .ok (d, after)) : Extends c count d := by
  induction count generalizing c before with
  | zero =>
    cases added
    exact ⟨(List.append_nil _).symm, formed, fun _ _ _ _ => rfl⟩
  | succ count ih =>
    obtain ⟨⟨middle, report⟩, first, rest⟩ := bind_eq_ok.mp added
    have one := addHelper_extends formed first
    have more := ih one.formed rest
    have lines : middle.lines = c.lines + 1 := by simp [Circuit.lines, one.wires]
    refine ⟨?_, more.formed, fun σ clear line inside => ?_⟩
    · rw [more.wires, one.wires, List.append_assoc, Nat.add_comm count 1, List.replicate_add]
    · rw [more.same σ (fun l above => clear l (by omega)) line (by omega), one.same σ clear line inside]

/-- Whatever the cost model prefers, added helper lines leave every line of the circuit the value that it had. -/
theorem run_preserves_lines (f : Factoring) {c d : Circuit} {report : Report} (formed : c.WellFormed)
    (finished : f.run c = .ok (d, report)) :
    d.lines = c.lines + f.helperLines ∧ d.wires = c.wires ++ List.replicate f.helperLines helperWire ∧
      ∀ a : List Bool, a.length = c.lines → ∃ before after,
        simulate c (Bits.ofBools a) = .ok before ∧
          simulate d (Bits.ofBools (a ++ List.replicate f.helperLines false)) = .ok after ∧
            ∀ line < c.lines, ∃ value, before.get line = .ok value ∧ after.get line = .ok value := by
  have extended := addHelpers_extends formed finished
  have lines : d.lines = c.lines + f.helperLines := by simp [Circuit.lines, extended.wires]
  refine ⟨lines, extended.wires, fun a width => ?_⟩
  have zeros : Bits.ofBools (a ++ List.replicate f.helperLines false) = Bits.pack d.lines (a.getD · false) := by
    rw [Bits.ofBools_eq_pack, List.length_append, List.length_replicate, width, lines]
    refine Bits.pack_congr fun i _ => ?_
    by_cases inside : i < a.length
    · rw [List.getD_append _ _ _ _ inside]
    · rw [List.getD_append_right _ _ _ _ (by omega), List.getD_eq_default a _ (by omega), List.getD_eq_getElem?_getD,
        List.getElem?_replicate]
      split <;> rfl
  refine ⟨Bits.pack c.lines (Circuit.act c.gates (a.getD · false)),
    Bits.pack d.lines (Circuit.act d.gates (a.getD · false)), ?_, ?_,
    fun line inside => ⟨Circuit.act c.gates (a.getD · false) line, ?_, ?_⟩⟩
  · rw [Bits.ofBools_eq_pack, width]
    exact Circuit.simulate_pack formed _
  · rw [zeros]
    exact Circuit.simulate_pack extended.formed _
  · exact Bits.get_pack inside
  · rw [Bits.get_pack (by omega : line < d.lines)]
    rw [extended.same _ (fun l above => List.getD_eq_default _ _ (by omega)) line inside]

theorem run_preserves_lines_mixed :
    let c : Circuit := { Circuit.blank 6 with gates := [
      .toffoli (.ofList [0, 1, 2]) 3, .toffoli (.ofList [0, 1, 2]) 4, .fredkin (.ofList [0]) 1 2,
      .toffoli (.ofList [0, 1, 2]) 5, .toffoli (.ofList [0, 1, 2, 3]) 4, .toffoli (.ofList [0, 1, 2]) 3] }
    let d : Circuit := ⟨c.wires ++ [helperWire, helperWire], [
      .toffoli (.ofList [0, 1]) 6, .toffoli (.ofList [2, 6]) 3, .toffoli (.ofList [2, 6]) 4,
      .toffoli (.ofList [0, 1]) 6, .fredkin (.ofList [0]) 1 2, .toffoli (.ofList [0, 1]) 6,
      .toffoli (.ofList [2, 6]) 7, .toffoli (.ofList [7]) 5, .toffoli (.ofList [3, 7]) 4, .toffoli (.ofList [7]) 3]⟩
    let f : Factoring := { helperLines := 2 }
    c.WellFormed ∧ (f.run c).map Prod.fst = .ok d ∧
      d.lines = 8 ∧ d.wires = c.wires ++ List.replicate 2 helperWire ∧
      ∀ a : List Bool, a.length = 6 → ∃ before after,
        simulate c (Bits.ofBools a) = .ok before ∧
          simulate d (Bits.ofBools (a ++ List.replicate 2 false)) = .ok after ∧
            ∀ line < 6, ∃ value, before.get line = .ok value ∧ after.get line = .ok value := by
  intro c d f
  have formed : c.WellFormed := by decide
  have finished : (f.run c).map Prod.fst = .ok d := by cbv
  refine ⟨formed, finished, ?_⟩
  cases run : f.run c with
  | error fault => simp [run, Except.map] at finished
  | ok out =>
    obtain ⟨e, report⟩ := out
    obtain rfl : e = d := by simpa [run, Except.map] using finished
    exact run_preserves_lines f formed run

end Factoring

end Reversible
