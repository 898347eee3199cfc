import Reversible.Proofs.LineReduction.Attempt

namespace Reversible

/-- What a line holds at the start when the named inputs have the values of `v`. -/
def Wire.start (w : Wire) (v : String → Bool) : Bool := w.constant.getD (v w.input)

namespace Circuit

def wired (c : Circuit) (v : String → Bool) : Assignment := fun i => (c.wire i).start v

variable {c : Circuit} {line late start stop : Nat} {filter : List Nat}

theorem wired_of_constant (v : String → Bool) {fixed : Bool} (constant : c.constant line = some fixed) :
    c.wired v line = fixed := by
  have known : (c.wire line).constant = some fixed := constant
  unfold wired Wire.start
  rw [known]
  rfl

theorem wired_allows (c : Circuit) (v : String → Bool) : c.Allows (c.wired v) :=
  fun _ _ _ constant => wired_of_constant v constant

theorem wired_dropped (v : String → Bool) : ∀ i < c.lines, i ≠ line →
    (c.dropped line).wired v (closeGap line i) = c.wired v i := by
  intro i inside different
  unfold wired
  rw [wire_dropped inside different]

theorem wired_merged (c : Circuit) (late line : Nat) (v : String → Bool) : ∀ i < c.lines, i ≠ late →
    (c.merged late line).wired v (closeGap late i) = c.wired v i := by
  intro i inside different
  unfold wired
  rw [wire_merged inside different]
  split <;> rfl

end Circuit

namespace LineReduction

open Circuit

/-- A line is gone, and every other line has a place, with its output, its flag and the line it stands for. The free
lines keep their names and their order. -/
structure Reduces (c : Circuit) (origin : List Nat) (line : Nat) (place : Nat → Nat) (d : Circuit)
    (moved : List Nat) : Prop where
  contraction : Contraction c.lines line place
  lines : d.lines = c.lines - 1
  formed : d.WellFormed
  output : ∀ i < c.lines, i ≠ line → (d.wire (place i)).output = (c.wire i).output
  garbage : ∀ i < c.lines, i ≠ line → d.garbage (place i) = c.garbage i
  inputs : d.freeInputs = c.freeInputs
  length : moved.length = d.lines
  origin : ∀ i < c.lines, i ≠ line → moved.getD (place i) (place i) = origin.getD i i

/-- The outputs that are read have the values that they had, from every assignment to the inputs. -/
def KeepsOutputs (c : Circuit) (place : Nat → Nat) (d : Circuit) : Prop :=
  ∀ v, ∀ i < c.lines, c.garbage i = false → act d.gates (d.wired v) (place i) = act c.gates (c.wired v) i

variable {c : Circuit} {origin : List Nat} {line late start stop limit : Nat} {filter : List Nat}

theorem ne_of_read {i : Nat} (read : c.garbage i = false) (unread : c.garbage line = true) : i ≠ line := by
  rintro rfl
  rw [unread] at read
  cases read

theorem withoutDead_reduces (formed : c.WellFormed) (length : origin.length = c.lines)
    (dead : c.isDead line = true) :
    Reduces c origin line (closeGap line) (withoutDead c line) (origin.eraseIdx line) := by
  let rest := c.filterGates fun g => !g.hasTarget line
  have inside : line < c.lines := lt_lines_of_isDead dead
  have lines : (withoutDead c line).lines = c.lines - 1 := withoutDead_lines dead
  have wire : ∀ i < c.lines, i ≠ line → (withoutDead c line).wire (closeGap line i) = c.wire i :=
    fun i below different => wire_dropped (c := rest) below different
  refine ⟨closeGap_contraction inside, lines, ?_, fun i below different => ?_, fun i below different => ?_, ?_, ?_, ?_⟩
  · exact withoutDead_wellFormed formed dead
  · rw [wire i below different]
  · unfold garbage
    rw [wire i below different]
  · exact freeInputs_dropped (c := rest) (isDead_iff.mp dead).1
  · rw [List.length_eraseIdx_of_lt (length ▸ inside), length, lines]
  · exact fun i below different => getD_eraseIdx (length ▸ below) different _ _

theorem withoutDead_keepsOutputs (formed : c.WellFormed) (unread : c.garbage line = true)
    (dead : c.isDead line = true) : KeepsOutputs c (closeGap line) (withoutDead c line) := by
  intro v i below read
  exact act_withoutDead formed dead (wired_dropped v) i below (ne_of_read read unread)

theorem merged_reduces {rewritten : Circuit} (wires : rewritten.wires = c.wires) (formed : rewritten.WellFormed)
    (length : origin.length = c.lines) (inside : line < c.lines) (lateInside : late < c.lines)
    (different : late ≠ line) (constant : (c.constant late).isSome = true)
    (apart : ∀ g ∈ rewritten.gates, late ∉ g.lines ∨ line ∉ g.lines) :
    Reduces c origin line (mergeTarget late line) (rewritten.merged late line) (continuedOrigin origin late line) := by
  have width : rewritten.lines = c.lines := congrArg List.length wires
  have wire : ∀ i, rewritten.wire i = c.wire i := fun i => by unfold Circuit.wire; rw [wires]
  have lines : (rewritten.merged late line).lines = c.lines - 1 := width ▸ merged_lines (width.symm ▸ lateInside)
  have target : ∀ i < c.lines, i ≠ line →
      ((rewritten.merged late line).wire (mergeTarget late line i)).output = (c.wire i).output ∧
        ((rewritten.merged late line).wire (mergeTarget late line i)).garbage = (c.wire i).garbage :=
    fun i below other => wire i ▸ wire_merged_target (width.symm ▸ inside) different (width.symm ▸ below) other
  refine ⟨mergeTarget_contraction lateInside inside, lines, ?_, ?_, ?_, ?_, ?_, fun i below other => ?_⟩
  · exact merged_wellFormed formed (width.symm ▸ lateInside) (width.symm ▸ inside) different apart
  · exact fun i below other => (target i below other).1
  · exact fun i below other => (target i below other).2
  · have names : rewritten.freeInputs = c.freeInputs := by unfold freeInputs; rw [wires]
    refine (freeInputs_merged ?_).trans names
    unfold Circuit.constant
    rw [wire late]
    exact constant
  · have bound : late < (origin.set line (origin.getD late late)).length := by
      rw [List.length_set, length]
      exact lateInside
    unfold continuedOrigin
    rw [List.length_eraseIdx_of_lt bound, List.length_set, length, lines]
  · unfold continuedOrigin
    by_cases same : i = late
    · subst same
      rw [mergeTarget_removed, getD_eraseIdx (by rw [List.length_set, length]; exact inside) different.symm _ line]
      simp [List.getD_eq_getElem?_getD, length, inside]
    · rw [mergeTarget_of_ne same, getD_eraseIdx (by rw [List.length_set, length]; exact below) same _ i]
      simp [List.getD_eq_getElem?_getD, Ne.symm other]

/-- Gates that serve in the place of a window change no output, and they leave the constant on the line. -/
theorem replaced_keepsOutputs (behind : c.Behind limit line start stop filter) {fixed : Bool}
    {gates : List Gate} (serves : c.Serves start stop line fixed ((c.cut start stop filter).lift gates))
    {σ : Assignment} (allowed : c.Allows σ) :
    act (c.gates.take start ++ (c.cut start stop filter).lift gates) σ line = fixed ∧
      ∀ i, i ≠ line → c.garbage i = false →
        act (c.replaced (c.cut start stop filter) gates).gates σ i = act c.gates σ i := by
  obtain ⟨ends, others⟩ := serves σ allowed
  refine ⟨by rw [act_append, ends], fun i different read => ?_⟩
  have inside : ∀ g ∈ c.gates.drop stop, ∀ l ∈ g.lines, l ∈ {l | l ≠ line ∧ c.Used stop l} :=
    fun g later l touched => ⟨ne_of_untouched behind.last g later l touched, Or.inr ⟨g, later, touched⟩⟩
  have after := act_congr inside (fun l member => others l member.1 member.2) i ⟨different, Or.inl read⟩
  rw [behind.replaced_gates, act_append, act_append, after]
  conv_rhs => rw [behind.split, act_append, act_append]

theorem merged_keepsOutputs (formed : c.WellFormed) (inside : line < c.lines) (unread : c.garbage line = true)
    (behind : c.Behind limit line start stop filter) (found : c.lateConstant? line stop = some late) {fixed : Bool}
    (constant : c.constant late = some fixed) {gates : List Gate}
    (gatesFormed : ∀ g ∈ gates, g.WellFormed filter.length)
    (serves : c.Serves start stop line fixed ((c.cut start stop filter).lift gates)) :
    KeepsOutputs c (mergeTarget late line) (continued c start stop filter late line gates) := by
  intro v i below read
  have other : i ≠ line := ne_of_read read unread
  obtain ⟨lateInside, different, _, _⟩ := lateConstant?_spec found
  obtain ⟨early, _⟩ := replaced_apart behind found fun g member => (gatesFormed g member).2
  obtain ⟨handover, outputs⟩ := replaced_keepsOutputs behind serves (c.wired_allows v)
  let rewritten := c.replaced (c.cut start stop filter) gates
  let k := (c.gates.take start ++ (c.cut start stop filter).lift gates).length
  have before : rewritten.gates.take k = c.gates.take start ++ (c.cut start stop filter).lift gates :=
    (congrArg (List.take k) (behind.replaced_gates gates)).trans List.take_left
  have after : rewritten.gates.drop k = c.gates.drop stop :=
    (congrArg (List.drop k) (behind.replaced_gates gates)).trans List.drop_left
  have rewrittenFormed : rewritten.WellFormed := replaced_wellFormed formed behind.placed rfl gatesFormed
  have consecutive : rewritten.Consecutive line late k :=
    ⟨different, inside, lateInside, by rw [before]; exact early, by rw [after]; exact behind.last⟩
  have merges := act_merged rewrittenFormed consecutive (wired_merged rewritten late line v)
    (by rw [before]; exact handover.trans (wired_of_constant v constant).symm) i below other
  exact merges.trans (outputs i other read)

variable {r : LineReduction} {s : State} {d : Circuit} {moved : List Nat}

/-- Whatever way a garbage line goes, all that is known of the other lines stays known. -/
theorem Outcome.reduces (outcome : Outcome r s line (.reduced d moved)) (formed : s.circuit.WellFormed)
    (length : s.origin.length = s.circuit.lines) (inside : line < s.circuit.lines)
    (unread : s.circuit.garbage line = true) :
    ∃ place, Reduces s.circuit s.origin line place d moved ∧
      (r.simulator = simulate → r.synthesizer.Realizing → KeepsOutputs s.circuit place d) := by
  cases outcome with
  | dropped dead =>
    exact ⟨_, withoutDead_reduces formed length dead,
      fun _ _ => withoutDead_keepsOutputs formed unread dead⟩
  | merged behind found constant replacementFormed width serves =>
    obtain ⟨lateInside, different, isConstant, _⟩ := lateConstant?_spec found
    have gatesFormed := fun g member => width ▸ replacementFormed g member
    have rewritten := replaced_wellFormed formed behind.placed rfl gatesFormed
    have apart := (replaced_apart behind found fun g member => (gatesFormed g member).2).2
    exact ⟨_, merged_reduces rfl rewritten length inside lateInside different isConstant apart,
      fun simulates realizing => merged_keepsOutputs formed inside unread behind found constant gatesFormed
        (serves simulates realizing)⟩

end LineReduction

end Reversible
