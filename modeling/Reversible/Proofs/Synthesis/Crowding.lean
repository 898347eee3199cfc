import Mathlib.Data.Finset.Card
import Reversible.Proofs.Synthesis.Embedding

namespace Reversible

/-- The positions in `free` are those of the open entries. -/
def Cube.OpenAt (cube : Cube) (free : Finset Nat) : Prop := ∀ k < cube.length, cube[k]? = some none ↔ k ∈ free

namespace Embedding

variable {lines : Nat} {order fixed : List Nat} {cube : Cube}

theorem testBit_setBit_self {base bit line : Nat} (clear : base.testBit line = false) (small : bit < 2) :
    (base ||| bit <<< line).testBit line = decide (bit = 1) := by
  rw [Nat.testBit_or, clear, Nat.testBit_shiftLeft, Bool.false_or, decide_eq_true (Nat.le_refl line), Bool.true_and,
    Nat.sub_self, Nat.testBit_zero, Nat.mod_eq_of_lt small]

theorem clear_setBit {rest : List Nat} {base bit line : Nat} (notRest : line ∉ rest) (small : bit < 2)
    (clear : ∀ other ∈ line :: rest, base.testBit other = false) :
    ∀ other ∈ rest, (base ||| bit <<< line).testBit other = false := by
  intro other member
  rw [testBit_setBit base small (ne_of_mem_of_not_mem member notRest)]
  exact clear other (List.mem_cons_of_mem line member)

/-- An assignment that differs from `base` on `lines` only comes from a number with one bit for each of them. -/
theorem exists_scatter {lines : List Nat} (distinct : lines.Nodup) {base y : Nat}
    (clear : ∀ line ∈ lines, base.testBit line = false) (same : ∀ i ∉ lines, y.testBit i = base.testBit i) :
    ∃ t < 2 ^ lines.length, scatter base t lines = y := by
  induction lines generalizing base with
  | nil => exact ⟨0, Nat.one_pos, Nat.eq_of_testBit_eq fun i => (same i List.not_mem_nil).symm⟩
  | cons line rest ih =>
    obtain ⟨notRest, distinctRest⟩ := List.nodup_cons.mp distinct
    have small : (y.testBit line).toNat < 2 := Bool.toNat_lt _
    have agree : ∀ i ∉ rest, y.testBit i = (base ||| (y.testBit line).toNat <<< line).testBit i := by
      intro i outside
      by_cases here : i = line
      · subst here
        rw [testBit_setBit_self (clear i List.mem_cons_self) small]
        cases y.testBit i <;> rfl
      · rw [testBit_setBit base small here]
        exact same i fun member => (List.mem_cons.mp member).elim here outside
    obtain ⟨t, bound, scattered⟩ := ih distinctRest (clear_setBit notRest small clear) agree
    refine ⟨(y.testBit line).toNat + 2 * t, ?_, ?_⟩
    · rw [List.length_cons, Nat.pow_succ]
      omega
    · unfold scatter
      rw [show ((y.testBit line).toNat + 2 * t) % 2 = (y.testBit line).toNat by omega,
        show ((y.testBit line).toNat + 2 * t) / 2 = t by omega, scattered]

theorem scatter_injOn {lines : List Nat} (distinct : lines.Nodup) {base s t : Nat}
    (clear : ∀ line ∈ lines, base.testBit line = false) (boundS : s < 2 ^ lines.length) (boundT : t < 2 ^ lines.length)
    (same : scatter base s lines = scatter base t lines) : s = t := by
  induction lines generalizing base s t with
  | nil =>
    rw [List.length_nil, Nat.pow_zero] at boundS boundT
    omega
  | cons line rest ih =>
    obtain ⟨notRest, distinctRest⟩ := List.nodup_cons.mp distinct
    rw [List.length_cons, Nat.pow_succ] at boundS boundT
    have bits := congrArg (Nat.testBit · line) same
    simp only [scatter, testBit_scatter notRest,
      testBit_setBit_self (clear line List.mem_cons_self) (Nat.mod_lt _ Nat.two_pos), decide_eq_decide] at bits
    have parity : s % 2 = t % 2 := by omega
    unfold scatter at same
    rw [parity] at same
    have halves := ih distinctRest (clear_setBit notRest (Nat.mod_lt t Nat.two_pos) clear) (by omega) (by omega) same
    omega

/-- The lines that a row leaves open. -/
def openLines (lines : Nat) (order : List Nat) (cube : Cube) : List Nat :=
  (List.range lines).filter fun line => !(fixedLines order cube).contains line

theorem mem_fixedLines {line : Nat} :
    line ∈ fixedLines order cube ↔ ∃ value, (line, some value) ∈ order.zip cube := by
  unfold fixedLines
  rw [List.mem_filterMap]
  constructor
  · rintro ⟨⟨other, bit⟩, entry, given⟩
    obtain ⟨value, rfl, same⟩ := Option.map_eq_some_iff.mp given
    exact ⟨value, same ▸ entry⟩
  · rintro ⟨value, entry⟩
    exact ⟨_, entry, rfl⟩

theorem mem_openLines {line : Nat} :
    line ∈ openLines lines order cube ↔ line < lines ∧ line ∉ fixedLines order cube := by
  simp [openLines]

theorem openLines_nodup : (openLines lines order cube).Nodup := List.nodup_range.filter _

theorem testBit_fixedValue_open {line : Nat} (open' : line ∉ fixedLines order cube) :
    (fixedValue order cube).testBit line = false := by
  unfold fixedValue
  rw [testBit_foldl_fixed, Nat.zero_testBit, Bool.false_or, List.any_eq_false]
  rintro ⟨other, bit⟩ entry both
  obtain ⟨same, one⟩ := Bool.and_eq_true_iff.mp both
  rw [beq_iff_eq] at same one
  exact open' (mem_fixedLines.mpr ⟨true, same ▸ one ▸ entry⟩)

theorem openLines_clear : ∀ line ∈ openLines lines order cube, (fixedValue order cube).testBit line = false :=
  fun _ member => testBit_fixedValue_open (mem_openLines.mp member).2

/-- The assignments that a row allows are those that the numbers for its open lines stand for. -/
theorem allowed_iff (distinct : order.Nodup) (inside : ∀ line ∈ order, line < lines) {y : Nat} :
    y < 2 ^ lines ∧ agrees order cube y = true ↔
      ∃ t < 2 ^ (openLines lines order cube).length,
        scatter (fixedValue order cube) t (openLines lines order cube) = y := by
  constructor
  · rintro ⟨below, allowed⟩
    refine exists_scatter openLines_nodup openLines_clear fun i closed => ?_
    by_cases fixes : i ∈ fixedLines order cube
    · obtain ⟨value, entry⟩ := mem_fixedLines.mp fixes
      rw [agrees_iff.mp allowed i value entry, testBit_fixedValue distinct entry]
    · have above : lines ≤ i := Nat.not_lt.mp fun below => closed (mem_openLines.mpr ⟨below, fixes⟩)
      rw [testBit_above below above, testBit_fixedValue_open fixes]
  · rintro ⟨t, -, rfl⟩
    refine ⟨Nat.lt_pow_two_of_testBit _ fun i above => ?_, agrees_scatter distinct cube lines t⟩
    rw [testBit_scatter fun member => absurd (mem_openLines.mp member).1 (Nat.not_lt.mpr above)]
    refine testBit_fixedValue_open fun fixes => ?_
    obtain ⟨value, entry⟩ := mem_fixedLines.mp fixes
    exact absurd (inside i (List.of_mem_zip entry).1) (Nat.not_lt.mpr above)

theorem countP_allowed (distinct : order.Nodup) (inside : ∀ line ∈ order, line < lines) (cube : Cube) :
    (List.range (2 ^ lines)).countP (agrees order cube) = 2 ^ (openLines lines order cube).length := by
  let assignment (t : Nat) : Nat := scatter (fixedValue order cube) t (openLines lines order cube)
  have numbers : ((List.range (2 ^ (openLines lines order cube).length)).map assignment).Nodup :=
    List.nodup_range.map_on fun s inS t inT same =>
      scatter_injOn openLines_nodup openLines_clear (List.mem_range.mp inS) (List.mem_range.mp inT) same
  have perm : ((List.range (2 ^ lines)).filter (agrees order cube)).Perm
      ((List.range (2 ^ (openLines lines order cube).length)).map assignment) := by
    refine (List.perm_ext_iff_of_nodup (List.nodup_range.filter _) numbers).mpr fun y => ?_
    rw [List.mem_filter, List.mem_range, allowed_iff distinct inside, List.mem_map]
    simp only [List.mem_range]
    rfl
  rw [List.countP_eq_length_filter, perm.length_eq, List.length_map, List.length_range]

theorem Partial.choose_eq_find? (p : Partial) (x : Nat) : p.choose lines order x cube =
    if agrees order cube x && !p.isTaken x then some x
    else ((List.range (2 ^ (openLines lines order cube).length)).find? fun t =>
        !p.isTaken (scatter (fixedValue order cube) t (openLines lines order cube))).map fun t =>
      scatter (fixedValue order cube) t (openLines lines order cube) := by
  rw [← Nat.one_shiftLeft, List.range_eq_range', ← firstFrom_eq_find?]
  rfl

/-- A row gets no output exactly if every assignment that it allows is taken. -/
theorem Partial.choose_eq_none (distinct : order.Nodup) (inside : ∀ line ∈ order, line < lines) {p : Partial} {x : Nat}
    (below : x < 2 ^ lines) : p.choose lines order x cube = none ↔
      ∀ y < 2 ^ lines, agrees order cube y = true → p.isTaken y = true := by
  rw [choose_eq_find?]
  split
  · rename_i own
    obtain ⟨allowed, free⟩ := Bool.and_eq_true_iff.mp own
    refine ⟨nofun, fun every => ?_⟩
    rw [every x below allowed] at free
    cases free
  · rw [Option.map_eq_none_iff, List.find?_eq_none]
    simp only [List.mem_range, Bool.not_eq_true', Bool.not_eq_false]
    constructor
    · intro every y bound allowed
      obtain ⟨t, small, rfl⟩ := (allowed_iff distinct inside).mp ⟨bound, allowed⟩
      exact every t small
    · intro every t small
      obtain ⟨bound, allowed⟩ := (allowed_iff distinct inside).mpr ⟨t, small, rfl⟩
      exact every _ bound allowed

theorem Partial.choose_eq_none_iff (distinct : order.Nodup) (inside : ∀ line ∈ order, line < lines) (p : Partial)
    (cube : Cube) {x : Nat} (below : x < 2 ^ lines) : p.choose lines order x cube = none ↔
      2 ^ (openLines lines order cube).length ≤
        (List.range (2 ^ lines)).countP fun y => p.isTaken y && agrees order cube y := by
  have part := List.countP_le_length (p := p.isTaken) (l := (List.range (2 ^ lines)).filter (agrees order cube))
  have every := List.countP_eq_length (p := p.isTaken) (l := (List.range (2 ^ lines)).filter (agrees order cube))
  simp only [List.mem_filter, List.mem_range, and_imp] at every
  rw [choose_eq_none distinct inside below, ← countP_allowed distinct inside cube, ← List.countP_filter,
    List.countP_eq_length_filter (p := agrees order cube), ← every]
  omega

/-- The row has an entry for each line of the order, and it fixes the lines `fixed`. -/
structure Fixes (order fixed : List Nat) (cube : Cube) : Prop where
  length : cube.length = order.length
  lines : fixedLines order cube = fixed

theorem Fixes.eq_map (distinct : order.Nodup) (fixes : Fixes order fixed cube) {y : Nat}
    (allowed : agrees order cube y = true) :
    cube = order.map fun line => if line ∈ fixed then some (y.testBit line) else none := by
  obtain ⟨length, rfl⟩ := fixes
  refine List.ext_getElem (by rw [List.length_map, length]) fun k inCube inMap => ?_
  rw [List.length_map] at inMap
  have entry : (order[k], cube[k]) ∈ order.zip cube :=
    List.mem_iff_getElem.mpr ⟨k, by rw [List.length_zip]; omega, List.getElem_zip⟩
  rw [List.getElem_map]
  cases value : cube[k] with
  | none =>
    rw [if_neg]
    intro fixed
    obtain ⟨bit, given⟩ := mem_fixedLines.mp fixed
    rw [value] at entry
    cases entry_unique distinct given entry
  | some bit =>
    rw [value] at entry
    rw [if_pos (mem_fixedLines.mpr ⟨bit, entry⟩), agrees_iff.mp allowed _ _ entry]

/-- An assignment fits the outputs of one such row only. -/
theorem Fixes.agrees_iff (distinct : order.Nodup) {other : Cube} (fixes : Fixes order fixed cube)
    (otherFixes : Fixes order fixed other) {y : Nat} (allowed : agrees order other y = true) :
    agrees order cube y = true ↔ other = cube := by
  constructor
  · intro both
    rw [fixes.eq_map distinct both, otherFixes.eq_map distinct allowed]
  · rintro rfl
    exact allowed

section

variable {free : Finset Nat}

/-- The lines of the order whose positions are not free. -/
def linesOutside (order : List Nat) (free : Finset Nat) : List Nat :=
  (order.zipIdx.filter fun entry => entry.2 ∉ free).map Prod.fst

@[simp] theorem linesOutside_empty (order : List Nat) : linesOutside order ∅ = order := by
  simp [linesOutside]

theorem fixedLines_zipIdx {k : Nat} (length : cube.length = order.length)
    (uniform : ∀ i < cube.length, cube[i]? = some none ↔ k + i ∈ free) :
    fixedLines order cube = ((order.zipIdx k).filter fun entry => entry.2 ∉ free).map Prod.fst := by
  induction order generalizing cube k with
  | nil => rfl
  | cons line rest ih =>
    cases cube with
    | nil => cases length
    | cons bit bits =>
      have tail := ih (k := k + 1) (Nat.succ.inj length) fun i inside => by
        have entry := uniform (i + 1) (Nat.succ_lt_succ inside)
        rwa [List.getElem?_cons_succ, show k + (i + 1) = k + 1 + i by omega] at entry
      have head := uniform 0 (Nat.succ_pos _)
      rw [List.getElem?_cons_zero, Nat.add_zero, Option.some.injEq] at head
      rw [List.zipIdx_cons]
      cases bit with
      | none =>
        rw [List.filter_cons_of_neg (by simpa using head.mp rfl)]
        exact tail
      | some value =>
        have outside : k ∉ free := fun member => nomatch head.mpr member
        rw [List.filter_cons_of_pos (by simpa using outside)]
        exact congrArg (line :: ·) tail

theorem length_linesOutside (inside : ∀ k ∈ free, k < order.length) :
    (linesOutside order free).length = order.length - free.card := by
  have positions : order.zipIdx.map Prod.snd = List.range order.length := by
    rw [List.zipIdx_map_snd, List.range_eq_range']
  have others : ((List.range order.length).filter (· ∉ free)).toFinset = Finset.range order.length \ free := by
    ext k
    simp
  have covered : free ⊆ Finset.range order.length := fun k member => Finset.mem_range.mpr (inside k member)
  calc (linesOutside order free).length
      = ((List.range order.length).filter (· ∉ free)).length := by
        rw [← positions, List.filter_map, List.length_map, linesOutside, List.length_map]
        rfl
    _ = (Finset.range order.length \ free).card := by
        rw [← others, List.toFinset_card_of_nodup (List.nodup_range.filter _)]
    _ = order.length - free.card := by rw [Finset.card_sdiff_of_subset covered, Finset.card_range]

theorem fixes_of_openAt (uniform : cube.OpenAt free) (length : cube.length = order.length) :
    Fixes order (linesOutside order free) cube :=
  ⟨length, fixedLines_zipIdx length fun i inside => by rw [Nat.zero_add]; exact uniform i inside⟩

end

theorem fixedLines_sublist (order : List Nat) (cube : Cube) : (fixedLines order cube).Sublist order := by
  induction order generalizing cube with
  | nil => exact List.Sublist.refl _
  | cons line rest ih =>
    cases cube with
    | nil => exact List.nil_sublist _
    | cons bit bits =>
      cases bit with
      | none => exact (ih bits).cons line
      | some value => exact (ih bits).cons_cons line

theorem length_openLines (distinct : order.Nodup) (inside : ∀ line ∈ order, line < lines) (cube : Cube) :
    (openLines lines order cube).length + (fixedLines order cube).length = lines := by
  have fixedDistinct : (fixedLines order cube).Nodup := (fixedLines_sublist order cube).nodup distinct
  have fixed : ((List.range lines).filter (fixedLines order cube).contains).Perm (fixedLines order cube) := by
    refine (List.perm_ext_iff_of_nodup (List.nodup_range.filter _) fixedDistinct).mpr fun line => ?_
    rw [List.mem_filter, List.mem_range, List.contains_iff_mem]
    refine and_iff_right_of_imp fun fixes => ?_
    obtain ⟨value, entry⟩ := mem_fixedLines.mp fixes
    exact inside line (List.of_mem_zip entry).1
  have both := (List.filter_append_perm (fixedLines order cube).contains (List.range lines)).length_eq
  rw [List.length_append, fixed.length_eq, List.length_range] at both
  unfold openLines
  omega

theorem countP_insert (xs : List Nat) (f g : Nat → Bool) (y : Nat) (new : f y = false) :
    xs.countP (fun z => (z == y || f z) && g z) =
      xs.countP (fun z => f z && g z) + if g y = true then xs.count y else 0 := by
  induction xs with
  | nil => simp
  | cons x rest ih =>
    rw [List.countP_cons, List.countP_cons, List.count_cons, ih]
    by_cases same : x = y
    · subst same
      cases value : g x <;> simp [new]
      omega
    · simp only [beq_eq_false_iff_ne.mpr same, Bool.false_or, Bool.false_eq_true, if_false, Nat.add_zero]
      omega

/-- As many assignments that fit the outputs of a row are taken as earlier rows ask for these outputs. -/
structure Counts (lines : Nat) (order fixed : List Nat) (earlier : List (Bits × Cube)) (p : Partial) : Prop where
  size : p.taken.size = 2 ^ lines
  taken : ∀ cube, Fixes order fixed cube →
    (List.range (2 ^ lines)).countP (fun y => p.isTaken y && agrees order cube y) =
      earlier.countP fun other => other.2 == cube

variable {earlier rows : List (Bits × Cube)} {p : Partial}

theorem Counts.empty : Counts lines order fixed [] (.empty (2 ^ lines)) := by
  refine ⟨by simp [Partial.empty], fun cube _ => ?_⟩
  rw [List.countP_nil, List.countP_eq_zero]
  intro y member
  simp [Partial.isTaken, Partial.empty, Array.getD, List.mem_range.mp member]

theorem Counts.assign (counts : Counts lines order fixed earlier p) (row : Bits × Cube) (distinct : order.Nodup)
    (fixes : Fixes order fixed row.2) {y : Nat} (free : p.isTaken y = false)
    (allowed : agrees order row.2 y = true) : Counts lines order fixed (row :: earlier) (p.assign row.1.number y) := by
  have below := Partial.lt_of_not_taken free
  refine ⟨by simp [Partial.assign, counts.size], fun cube cubeFixes => ?_⟩
  have once : (List.range (2 ^ lines)).count y = 1 :=
    List.count_eq_one_of_mem List.nodup_range (List.mem_range.mpr (counts.size ▸ below))
  simp only [Partial.isTaken_assign below]
  rw [countP_insert _ p.isTaken _ y free, counts.taken cube cubeFixes, List.countP_cons, once]
  simp only [beq_iff_eq, cubeFixes.agrees_iff distinct fixes allowed]

/-- Rows that fix the same lines get their outputs until one of them is crowded out. -/
theorem assignRows_crowded (distinct : order.Nodup) (inside : ∀ line ∈ order, line < lines)
    (fixes : ∀ row ∈ rows, Fixes order fixed row.2) (narrow : ∀ row ∈ rows, row.1.width ≤ 64)
    (bound : ∀ row ∈ rows, row.1.number < 2 ^ lines) (counts : Counts lines order fixed earlier p) :
    match TruthTable.crowded? (2 ^ (lines - fixed.length)) earlier rows with
    | none => ∃ q, assignRows lines order p rows = .ok (.ok q)
    | some row => row ∈ rows ∧ assignRows lines order p rows = .ok (.error (.ambiguous row.1.number)) := by
  induction rows generalizing earlier p with
  | nil => exact ⟨p, rfl⟩
  | cons row rest ih =>
    obtain ⟨input, cube⟩ := row
    have rowFixes := fixes _ List.mem_cons_self
    have room : (openLines lines order cube).length = lines - fixed.length := by
      have total := length_openLines distinct inside cube
      rw [rowFixes.lines] at total
      omega
    have crowds := Partial.choose_eq_none_iff distinct inside p cube (bound _ List.mem_cons_self)
    rw [room, counts.taken cube rowFixes] at crowds
    unfold TruthTable.crowded? assignRows
    rw [Bits.toWord_eq_ok (narrow _ List.mem_cons_self), ok_bind]
    simp only [show (input.words.headD 0).toNat = input.number from rfl]
    cases chosen : p.choose lines order input.number cube with
    | none =>
      rw [if_pos (crowds.mp chosen)]
      exact ⟨List.mem_cons_self, rfl⟩
    | some y =>
      rw [if_neg fun full => by rw [crowds.mpr full] at chosen; cases chosen]
      obtain ⟨free, allowed⟩ := Partial.choose_spec distinct chosen
      have later := ih (fun row member => fixes row (List.mem_cons_of_mem _ member))
        (fun row member => narrow row (List.mem_cons_of_mem _ member))
        (fun row member => bound row (List.mem_cons_of_mem _ member))
        (counts.assign (input, cube) distinct rowFixes free allowed)
      split at later
      · exact later
      · exact ⟨List.mem_cons_of_mem _ later.1, later.2⟩

end Embedding

/-- A table whose rows fix the same lines is completed to a permutation, unless more rows ask for the same outputs
than there are assignments to the lines left open. The first row that is one too many is the ambiguous one. -/
theorem TruthTable.embed_crowded {t : TruthTable} {order fixed : List Nat} {maxLines : Nat} (formed : t.WellFormed)
    (ordered : t.ValidOrder order) (limit : t.inputs ≤ maxLines) (narrow : t.inputs ≤ 63)
    (fixes : ∀ row ∈ t.rows, Embedding.Fixes order fixed row.2) :
    match TruthTable.crowded? (2 ^ (t.inputs - fixed.length)) [] t.rows with
    | none => ∃ perm, t.embed order maxLines = .ok (.ok perm)
    | some row => row ∈ t.rows ∧ t.embed order maxLines = .ok (.error (.ambiguous row.1.number)) := by
  have words : ∀ row ∈ t.rows, row.1.width ≤ 64 := fun row member => by
    have width := (formed.inputs row (List.mem_reverse.mp member)).2
    omega
  have assigned := Embedding.assignRows_crowded ordered.2.2 ordered.2.1 fixes words
    (fun row member => (formed.row_input (by omega) member).1) Embedding.Counts.empty
  obtain ⟨result, run, spec⟩ := assignRows_rows formed narrow ordered.2.2
  rw [run] at assigned
  rw [embed_eq ordered limit narrow, run, ok_bind]
  split at assigned
  · obtain ⟨p, given⟩ := assigned
    cases given
    obtain ⟨perm, complete, -⟩ := Embedding.Partial.complete_spec (spec p rfl).1
    exact ⟨perm, by simp [complete]⟩
  · obtain ⟨member, given⟩ := assigned
    cases given
    exact ⟨member, rfl⟩

end Reversible
