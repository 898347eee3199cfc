import Mathlib.Data.List.Perm.Subperm
import Reversible.Circuit.Merge
import Reversible.Equivalence
import Reversible.Proofs.Relabelling

namespace Reversible

/-- The wire of a line that takes the place of another one from some position on. -/
def Wire.continuing (w gone : Wire) : Wire := { w with output := gone.output, garbage := gone.garbage }

/-- A gate is renamed if it is relabelled wherever that changes anything. -/
theorem Gate.eq_rename_of_relabelled {p : Prop} [Decidable p] {m : Nat → Nat} {g h : Gate}
    (unchanged : ¬p → g.rename m = g)
    (run : (if p then g.relabel fun line => pure (m line) else pure g) = .ok h) : h = g.rename m := by
  split at run
  · exact (eq_rename_of_relabel (fun _ _ same => (Except.ok.inj same).symm) run).1
  · rename_i idle
    cases run
    exact (unchanged idle).symm

namespace Circuit

/-- Line `gone` of `n` lines goes, and every other line `i` becomes line `place i`. -/
structure Contraction (n gone : Nat) (place : Nat → Nat) : Prop where
  inside : gone < n
  injective : Set.InjOn place {i | i ≠ gone}
  bound : ∀ i < n, i ≠ gone → place i < n - 1

/-- The lines that stay become all lines. -/
theorem Contraction.perm {n gone : Nat} {place : Nat → Nat} (contraction : Contraction n gone place) :
    (((List.range n).filter (· != gone)).map place).Perm (List.range (n - 1)) := by
  have stays : ∀ i ∈ (List.range n).filter (· != gone), i < n ∧ i ≠ gone := fun i member => by
    simpa using member
  have distinct : (((List.range n).filter (· != gone)).map place).Nodup :=
    (List.nodup_range.filter _).map_on fun i inI j inJ equal =>
      contraction.injective (stays i inI).2 (stays j inJ).2 equal
  have inside : ((List.range n).filter (· != gone)).map place ⊆ List.range (n - 1) := fun j member => by
    obtain ⟨i, stay, rfl⟩ := List.mem_map.mp member
    exact List.mem_range.mpr (contraction.bound i (stays i stay).1 (stays i stay).2)
  have length : (List.range (n - 1)).length ≤ (((List.range n).filter (· != gone)).map place).length := by
    rw [List.length_map, ← List.nodup_range.erase_eq_filter,
      List.length_erase_of_mem (List.mem_range.mpr contraction.inside), List.length_range, List.length_range]
  exact (distinct.subperm inside).perm_of_length_le length

theorem closeGap_contraction {n removed : Nat} (inside : removed < n) :
    Contraction n removed (closeGap removed) := by
  refine ⟨inside, fun i notI j notJ equal => ?_, fun i below different => ?_⟩
  · have first : i ≠ removed := notI
    have second : j ≠ removed := notJ
    unfold closeGap at equal
    split_ifs at equal <;> omega
  · unfold closeGap
    split <;> omega

theorem mergeTarget_of_ne {removed kept i : Nat} (different : i ≠ removed) :
    mergeTarget removed kept i = closeGap removed i := by
  unfold mergeTarget
  rw [if_neg different]

theorem mergeTarget_removed (removed kept : Nat) : mergeTarget removed kept removed = closeGap removed kept := by
  unfold mergeTarget
  rw [if_pos rfl]

theorem mergeTarget_injOn {removed kept : Nat} : Set.InjOn (mergeTarget removed kept) {i | i ≠ removed} := by
  intro i notI j notJ equal
  rw [mergeTarget_of_ne notI, mergeTarget_of_ne notJ] at equal
  exact (closeGap_contraction (Nat.lt_succ_self removed)).injective notI notJ equal

theorem mergeTarget_contraction {n removed kept : Nat} (removedInside : removed < n) (keptInside : kept < n) :
    Contraction n kept (mergeTarget removed kept) := by
  refine ⟨keptInside, fun i notI j notJ equal => ?_, fun i below other => ?_⟩
  · have first : i ≠ kept := notI
    have second : j ≠ kept := notJ
    unfold mergeTarget closeGap at equal
    split_ifs at equal <;> omega
  · unfold mergeTarget closeGap
    split <;> split <;> omega

theorem mergeTarget_lt {n removed kept i : Nat} (removedInside : removed < n) (keptInside : kept < n)
    (different : removed ≠ kept) (inside : i < n) : mergeTarget removed kept i < n - 1 := by
  unfold mergeTarget closeGap
  split_ifs <;> omega

def dropped (c : Circuit) (line : Nat) : Circuit :=
  ⟨c.wires.eraseIdx line, c.gates.map (Gate.rename (closeGap line))⟩

variable {c : Circuit}

/-- A gate with all its lines up to the dropped one is not renamed. -/
theorem rename_closeGap_below {g : Gate} {line : Nat} (below : ¬line < g.maxLine) :
    g.rename (closeGap line) = g := by
  refine Gate.rename_eq_self fun l touched => ?_
  have most := Gate.le_maxLine touched
  unfold closeGap
  rw [if_neg (by omega)]

theorem dropLine_eq_dropped (formed : c.WellFormed) {line : Nat} (inside : line < c.lines)
    (untouched : ∀ g ∈ c.gates, line ∉ g.lines) : c.dropLine line = .ok (c.dropped line) := by
  have gates : (c.gates.mapM fun g =>
      if line < g.maxLine then g.relabel fun l => pure (closeGap line l) else pure g) =
        .ok (c.gates.map (Gate.rename (closeGap line))) := by
    refine mapM_eq_ok fun g member => ?_
    by_cases above : line < g.maxLine
    · rw [if_pos above]
      exact Gate.relabel_eq_rename (fun _ _ => rfl) (formed g member).fits.apart
        ((closeGap_contraction inside).injective.mono (ne_of_untouched untouched g member))
    · rw [if_neg above, rename_closeGap_below above]
      rfl
  have free : ∀ g ∈ c.gates, g.touches line = false := fun g member => Gate.touches_eq_false.mpr (untouched g member)
  unfold dropLine
  rw [require_of inside, ok_bind, require_of free, ok_bind, gates]
  rfl

/-- Whatever its gates look like, a circuit that a line can be dropped from is renumbered. -/
theorem of_dropLine {d : Circuit} {line : Nat} (run : c.dropLine line = .ok d) :
    line < c.lines ∧ (∀ g ∈ c.gates, line ∉ g.lines) ∧ d = c.dropped line := by
  unfold dropLine at run
  obtain ⟨inside, run⟩ := require_bind_eq_ok.mp run
  obtain ⟨free, run⟩ := require_bind_eq_ok.mp run
  obtain ⟨gates, mapped, run⟩ := bind_eq_ok.mp run
  cases run
  obtain ⟨rfl, -⟩ := eq_map_of_mapM (fun g h => Gate.eq_rename_of_relabelled rename_closeGap_below) mapped
  exact ⟨inside, fun g member => Gate.touches_eq_false.mp (free g member), rfl⟩

theorem dropped_lines {line : Nat} (inside : line < c.lines) : (c.dropped line).lines = c.lines - 1 :=
  List.length_eraseIdx_of_lt inside

theorem getD_eraseIdx {α : Type} {xs : List α} {k i : Nat} (inside : i < xs.length) (different : i ≠ k) (d e : α) :
    (xs.eraseIdx k).getD (closeGap k i) d = xs.getD i e := by
  rw [List.getD_eq_getElem _ e inside, List.getD_eq_getElem?_getD, List.getElem?_eraseIdx]
  unfold closeGap
  by_cases above : k < i
  · rw [if_pos above, if_neg (by omega), show i - 1 + 1 = i by omega, List.getElem?_eq_getElem inside]
    rfl
  · rw [if_neg above, if_pos (by omega), List.getElem?_eq_getElem inside]
    rfl

theorem wire_dropped {line i : Nat} (inside : i < c.lines) (different : i ≠ line) :
    (c.dropped line).wire (closeGap line i) = c.wire i := getD_eraseIdx inside different _ _

theorem renamed_wellFormed (formed : c.WellFormed) {n : Nat} {m : Nat → Nat}
    (injective : ∀ g ∈ c.gates, Set.InjOn m {line | line ∈ g.lines})
    (bound : ∀ g ∈ c.gates, ∀ line ∈ g.lines, m line < n) :
    ∀ g ∈ c.gates.map (Gate.rename m), g.WellFormed n := by
  intro g member
  obtain ⟨old, inGates, rfl⟩ := List.mem_map.mp member
  exact (formed old inGates).rename (injective old inGates) (bound old inGates)

theorem dropped_wellFormed (formed : c.WellFormed) {line : Nat} (inside : line < c.lines)
    (untouched : ∀ g ∈ c.gates, line ∉ g.lines) : (c.dropped line).WellFormed := by
  have contraction := closeGap_contraction inside
  have other := ne_of_untouched untouched
  unfold WellFormed
  rw [dropped_lines inside]
  exact renamed_wellFormed formed (fun g member => contraction.injective.mono (other g member))
    fun g member l touched => contraction.bound l (formed.inside g member l touched) (other g member l touched)

theorem act_dropped (formed : c.WellFormed) {line : Nat} (inside : line < c.lines)
    (untouched : ∀ g ∈ c.gates, line ∉ g.lines) {σ τ : Assignment}
    (start : ∀ i < c.lines, i ≠ line → τ (closeGap line i) = σ i) :
    ∀ i < c.lines, i ≠ line → act (c.dropped line).gates τ (closeGap line i) = act c.gates σ i := by
  intro i below different
  refine act_rename (S := {i | i < c.lines ∧ i ≠ line}) ?_ ?_ (fun i member => start i member.1 member.2) i
    ⟨below, different⟩
  · exact (closeGap_contraction inside).injective.mono fun i member => member.2
  · exact fun g member l touched => ⟨formed.inside g member l touched, ne_of_untouched untouched g member l touched⟩

def merged (c : Circuit) (removed kept : Nat) : Circuit :=
  ⟨(c.wires.modify kept (·.continuing (c.wire removed))).eraseIdx removed,
    c.gates.map (Gate.rename (mergeTarget removed kept))⟩

variable {removed kept : Nat}

theorem mergeTarget_injOn_lines {g : Gate} (apart : removed ∉ g.lines ∨ kept ∉ g.lines) :
    Set.InjOn (mergeTarget removed kept) {line | line ∈ g.lines} := by
  rcases apart with without | without
  · exact mergeTarget_injOn.mono fun line touched => ne_of_mem_of_not_mem touched without
  · refine (mergeTarget_contraction (n := max removed kept + 1) (by omega) (by omega)).injective.mono ?_
    exact fun line touched => ne_of_mem_of_not_mem touched without

theorem lt_of_below {g : Gate} (below : ¬g.lines.any (removed ≤ ·) = true) : ∀ line ∈ g.lines, line < removed := by
  intro line touched
  by_contra most
  exact below (List.any_eq_true.mpr ⟨line, touched, by simpa using most⟩)

/-- A gate with all its lines below the removed one is not renamed. -/
theorem rename_mergeTarget_below {g : Gate} (below : ¬g.lines.any (removed ≤ ·) = true) :
    g.rename (mergeTarget removed kept) = g := by
  refine Gate.rename_eq_self fun line touched => ?_
  have less := lt_of_below below line touched
  unfold mergeTarget closeGap
  split_ifs <;> omega

/-- Lines that no gate touches both can be merged. -/
theorem mergeLine_eq_merged (formed : c.WellFormed) (removedInside : removed < c.lines) (keptInside : kept < c.lines)
    (different : removed ≠ kept) (apart : ∀ g ∈ c.gates, removed ∉ g.lines ∨ kept ∉ g.lines) :
    c.mergeLine removed kept = .ok (c.merged removed kept) := by
  have gates : (c.gates.mapM fun g =>
      if g.lines.any (removed ≤ ·) then g.relabel fun line => pure (mergeTarget removed kept line) else pure g) =
        .ok (c.gates.map (Gate.rename (mergeTarget removed kept))) := by
    refine mapM_eq_ok fun g member => ?_
    by_cases above : g.lines.any (removed ≤ ·) = true
    · rw [if_pos above]
      exact Gate.relabel_eq_rename (fun _ _ => rfl) (formed g member).fits.apart
        (mergeTarget_injOn_lines (apart g member))
    · rw [if_neg above, rename_mergeTarget_below above]
      rfl
  unfold mergeLine
  rw [require_of removedInside, ok_bind, require_of keptInside, ok_bind, require_of different, ok_bind, gates]
  rfl

/-- Whatever its gates look like, a circuit that lines can be merged in is renumbered. -/
theorem of_mergeLine {d : Circuit} (run : c.mergeLine removed kept = .ok d) :
    removed < c.lines ∧ kept < c.lines ∧ removed ≠ kept ∧ d = c.merged removed kept := by
  unfold mergeLine at run
  obtain ⟨removedInside, run⟩ := require_bind_eq_ok.mp run
  obtain ⟨keptInside, run⟩ := require_bind_eq_ok.mp run
  obtain ⟨different, run⟩ := require_bind_eq_ok.mp run
  obtain ⟨gates, mapped, run⟩ := bind_eq_ok.mp run
  cases run
  obtain ⟨rfl, -⟩ := eq_map_of_mapM (fun g h => Gate.eq_rename_of_relabelled rename_mergeTarget_below) mapped
  exact ⟨removedInside, keptInside, different, rfl⟩

theorem merged_lines (removedInside : removed < c.lines) : (c.merged removed kept).lines = c.lines - 1 := by
  unfold merged lines
  rw [List.length_eraseIdx_of_lt (by rw [List.length_modify]; exact removedInside), List.length_modify]

theorem merged_wellFormed (formed : c.WellFormed) (removedInside : removed < c.lines) (keptInside : kept < c.lines)
    (different : removed ≠ kept) (apart : ∀ g ∈ c.gates, removed ∉ g.lines ∨ kept ∉ g.lines) :
    (c.merged removed kept).WellFormed := by
  unfold WellFormed
  rw [merged_lines removedInside]
  exact renamed_wellFormed formed (fun g member => mergeTarget_injOn_lines (apart g member))
    fun g member line touched => mergeTarget_lt removedInside keptInside different (formed.inside g member line touched)

theorem wire_merged {i : Nat} (inside : i < c.lines) (different : i ≠ removed) :
    (c.merged removed kept).wire (closeGap removed i) =
      if i = kept then (c.wire i).continuing (c.wire removed) else c.wire i := by
  unfold merged wire
  simp only
  rw [getD_eraseIdx (by rw [List.length_modify]; exact inside) different _ (Wire.fresh i)]
  simp only [List.getD_eq_getElem?_getD, List.getElem?_modify, List.getElem?_eq_getElem inside]
  by_cases same : i = kept
  · simp [same]
  · simp [same, Ne.symm same]

/-- The line that is kept continues the one that is removed. -/
theorem wire_merged_target (keptInside : kept < c.lines) (different : removed ≠ kept) {i : Nat}
    (inside : i < c.lines) (other : i ≠ kept) :
    ((c.merged removed kept).wire (mergeTarget removed kept i)).output = (c.wire i).output ∧
      ((c.merged removed kept).wire (mergeTarget removed kept i)).garbage = (c.wire i).garbage := by
  by_cases same : i = removed
  · subst same
    rw [mergeTarget_removed, wire_merged keptInside different.symm, if_pos rfl]
    exact ⟨rfl, rfl⟩
  · rw [mergeTarget_of_ne same, wire_merged inside same, if_neg other]
    exact ⟨rfl, rfl⟩

/-- Gates use line `early` only before position `k`, and line `late` only from there on. -/
structure Consecutive (c : Circuit) (early late k : Nat) : Prop where
  different : late ≠ early
  earlyInside : early < c.lines
  lateInside : late < c.lines
  before : ∀ g ∈ c.gates.take k, late ∉ g.lines
  after : ∀ g ∈ c.gates.drop k, early ∉ g.lines

theorem Consecutive.apart {early late k : Nat} (consecutive : c.Consecutive early late k) :
    ∀ g ∈ c.gates, late ∉ g.lines ∨ early ∉ g.lines := by
  intro g member
  rw [← List.take_append_drop k c.gates] at member
  exact (List.mem_append.mp member).imp (consecutive.before g) (consecutive.after g)

/-- If the kept line holds, where the removed one is used first, what the removed one held from the start, then
merging them changes nothing else. -/
theorem act_merged (formed : c.WellFormed) {k : Nat} (consecutive : c.Consecutive kept removed k) {σ τ : Assignment}
    (start : ∀ i < c.lines, i ≠ removed → τ (closeGap removed i) = σ i)
    (handover : act (c.gates.take k) σ kept = σ removed) :
    ∀ i < c.lines, i ≠ kept →
      act (c.merged removed kept).gates τ (mergeTarget removed kept i) = act c.gates σ i := by
  obtain ⟨different, keptInside, removedInside, before, after⟩ := consecutive
  let m := mergeTarget removed kept
  have early : ∀ i < c.lines, i ≠ removed →
      act ((c.gates.take k).map (Gate.rename m)) τ (m i) = act (c.gates.take k) σ i := by
    intro i below other
    refine act_rename (S := {i | i < c.lines ∧ i ≠ removed}) ?_ ?_ ?_ i ⟨below, other⟩
    · exact mergeTarget_injOn.mono fun i member => member.2
    · exact fun g member line touched => ⟨formed.inside g (List.mem_of_mem_take member) line touched,
        ne_of_untouched before g member line touched⟩
    · intro i member
      rw [show m i = closeGap removed i from mergeTarget_of_ne member.2]
      exact start i member.1 member.2
  have between : ∀ i < c.lines, i ≠ kept →
      act ((c.gates.take k).map (Gate.rename m)) τ (m i) = act (c.gates.take k) σ i := by
    intro i below other
    by_cases same : i = removed
    · subst same
      have untouched := act_untouched before σ
      rw [untouched, ← handover, ← early kept keptInside different.symm]
      congr 1
      rw [show m i = closeGap i kept from mergeTarget_removed i kept,
        show m kept = closeGap i kept from mergeTarget_of_ne different.symm]
    · exact early i below same
  intro i below other
  have inside : ∀ g ∈ c.gates.drop k, ∀ line ∈ g.lines, line ∈ {i | i < c.lines ∧ i ≠ kept} :=
    fun g member line touched => ⟨formed.inside g (List.mem_of_mem_drop member) line touched,
      ne_of_untouched after g member line touched⟩
  have late := act_rename
    ((mergeTarget_contraction removedInside keptInside).injective.mono fun i member => member.2) inside
    (fun i member => between i member.1 member.2) i ⟨below, other⟩
  change act (c.gates.map (Gate.rename m)) τ (m i) = _
  rw [← List.take_append_drop k c.gates, List.map_append, act_append, act_append]
  exact late

/-- The names of the free lines, in the order of the lines. -/
def freeInputs (c : Circuit) : List String := (c.wires.filter (·.constant.isNone)).map (·.input)

theorem inputNames_congr {d : Circuit} (same : d.freeInputs = c.freeInputs) : d.inputNames = c.inputNames :=
  congrArg (fun names : List String => names.mergeSort (· ≤ ·)) same

theorem filter_eraseIdx {α : Type} {p : α → Bool} {xs : List α} {k : Nat}
    (rejected : ∀ x, xs[k]? = some x → p x = false) : (xs.eraseIdx k).filter p = xs.filter p := by
  induction xs generalizing k with
  | nil => rfl
  | cons x rest ih =>
    cases k with
    | zero => simp [rejected x rfl]
    | succ k =>
      have tail := ih (k := k) rejected
      rw [List.eraseIdx_cons_succ, List.filter_cons, List.filter_cons, tail]

theorem map_filter_modify {α β : Type} {p : α → Bool} {f : α → α} {g : α → β} (kept : ∀ x, p (f x) = p x)
    (same : ∀ x, g (f x) = g x) (xs : List α) (k : Nat) : ((xs.modify k f).filter p).map g = (xs.filter p).map g := by
  induction xs generalizing k with
  | nil => simp
  | cons x rest ih =>
    cases k with
    | zero =>
      rw [List.modify_zero_cons, List.filter_cons, List.filter_cons, kept]
      split <;> simp [same]
    | succ k =>
      rw [List.modify_succ_cons, List.filter_cons, List.filter_cons]
      split <;> simp [ih]

theorem wires_getElem? {line : Nat} {w : Wire} (found : c.wires[line]? = some w) : c.wire line = w := by
  unfold wire
  rw [List.getD_eq_getElem?_getD, found]
  rfl

theorem wires_eq_map (c : Circuit) : c.wires = (List.range c.lines).map c.wire :=
  List.ext_getElem (by simp [lines]) fun i inside _ => by simp [wire, inside]

theorem freeInputs_dropped {line : Nat} (constant : (c.constant line).isSome = true) :
    (c.dropped line).freeInputs = c.freeInputs := by
  unfold freeInputs dropped
  rw [filter_eraseIdx fun w found => ?_]
  have fixed : (c.wire line).constant.isSome = true := constant
  rw [← wires_getElem? found]
  simpa using fixed

/-- A constant line is no input, so merging it away leaves all inputs. -/
theorem freeInputs_merged (constant : (c.constant removed).isSome = true) :
    (c.merged removed kept).freeInputs = c.freeInputs := by
  have names := map_filter_modify (p := fun w : Wire => w.constant.isNone) (g := Wire.input)
    (f := (·.continuing (c.wire removed))) (fun _ => rfl) (fun _ => rfl) c.wires kept
  unfold freeInputs merged
  simp only
  rw [filter_eraseIdx fun w found => ?_, names]
  rw [List.getElem?_modify, Option.map_eq_map, Option.map_eq_some_iff] at found
  obtain ⟨old, found, rfl⟩ := found
  have isConstant : (c.wire removed).constant.isSome = true := constant
  have fixed : old.constant.isNone = false := by
    rw [← wires_getElem? found]
    simpa using isConstant
  split <;> exact fixed

theorem exists_closeGap (gone : Nat) {n i : Nat} (inside : i < n - 1) : ∃ l < n, l ≠ gone ∧ closeGap gone l = i := by
  unfold closeGap
  by_cases below : i < gone
  · exact ⟨i, by omega, by omega, if_neg (by omega)⟩
  · exact ⟨i + 1, by omega, by omega, if_pos (by omega)⟩

end Circuit

namespace Bits

/-- Without the bit at position `i`, and with the bits above it moved down. -/
def erase (b : Bits) (i : Nat) : Bits := ofBools (b.toBools.eraseIdx i)

variable {b : Bits} {gone : Nat}

theorem erase_canonical (b : Bits) (gone : Nat) : (b.erase gone).Canonical := ofBools_canonical _

theorem erase_width (inside : gone < b.width) : (b.erase gone).width = b.width - 1 := by
  have length : b.toBools.length = b.width := by simp [toBools]
  rw [erase, ofBools_width, List.length_eraseIdx_of_lt (length ▸ inside), length]

theorem testBit_erase {i : Nat} (inside : i < b.width) (different : i ≠ gone) :
    (b.erase gone).testBit (Circuit.closeGap gone i) = b.testBit i := by
  have length : b.toBools.length = b.width := by simp [toBools]
  rw [erase, testBit_ofBools, Circuit.getD_eraseIdx (length ▸ inside) different false false]
  simp [toBools, inside]

theorem erase_pack {n : Nat} {σ τ : Assignment} (inside : gone < n)
    (same : ∀ i < n, i ≠ gone → τ (Circuit.closeGap gone i) = σ i) : (pack n σ).erase gone = pack (n - 1) τ := by
  have whole : (pack n σ).width = n := pack_width n σ
  have width : ((pack n σ).erase gone).width = n - 1 := by rw [erase_width (whole.symm ▸ inside), whole]
  have packed := eq_pack (erase_canonical (pack n σ) gone) τ fun j below => by
    obtain ⟨i, bound, different, rfl⟩ := Circuit.exists_closeGap gone (width ▸ below)
    rw [testBit_erase (whole.symm ▸ bound) different, same i bound different, testBit_pack_of_lt bound]
  rwa [width] at packed

end Bits

end Reversible
