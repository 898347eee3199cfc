import Mathlib.Data.List.Nodup
import Mathlib.Data.List.Perm.Basic
import Mathlib.Data.Nat.Bitwise
import Reversible.Proofs.TruthTable
import Reversible.Synthesis.Embedding

namespace Reversible

namespace Embedding

theorem testBit_setBit (base : Nat) {bit line i : Nat} (small : bit < 2) (other : i ≠ line) :
    (base ||| bit <<< line).testBit i = base.testBit i := by
  rw [Nat.testBit_or, Nat.testBit_shiftLeft]
  by_cases above : line ≤ i
  · have cleared : bit.testBit (i - line) = false := testBit_above (show bit < 2 ^ 1 from small) (by omega)
    simp [cleared]
  · simp [above]

theorem testBit_scatter {lines : List Nat} {i : Nat} (outside : i ∉ lines) (base t : Nat) :
    (scatter base t lines).testBit i = base.testBit i := by
  induction lines generalizing base t with
  | nil => rfl
  | cons line rest ih =>
    obtain ⟨other, outsideRest⟩ := List.ne_and_not_mem_of_not_mem_cons outside
    unfold scatter
    rw [ih outsideRest, testBit_setBit base (Nat.mod_lt t Nat.two_pos) other]

theorem testBit_foldl_fixed (pairs : List (Nat × Option Bool)) (value i : Nat) :
    (pairs.foldl (fun value (line, bit) => if bit = some true then value ||| 1 <<< line else value) value).testBit i =
      (value.testBit i || pairs.any fun (line, bit) => line == i && bit == some true) := by
  induction pairs generalizing value with
  | nil => simp
  | cons pair rest ih =>
    obtain ⟨line, bit⟩ := pair
    rw [List.foldl_cons, ih, List.any_cons, ← Bool.or_assoc]
    congr 1
    by_cases one : bit = some true
    · simp only [one, if_true, Nat.testBit_or, Nat.one_shiftLeft, Nat.testBit_two_pow, beq_self_eq_true, Bool.and_true]
      rfl
    · simp [one]

theorem entry_unique {order : List Nat} (distinct : order.Nodup) {cube : Cube} {line : Nat} {a b : Option Bool}
    (left : (line, a) ∈ order.zip cube) (right : (line, b) ∈ order.zip cube) : a = b := by
  obtain ⟨i, atI⟩ := List.mem_iff_getElem?.mp left
  obtain ⟨j, atJ⟩ := List.mem_iff_getElem?.mp right
  obtain ⟨lineI, bitI⟩ := List.getElem?_zip_eq_some.mp atI
  obtain ⟨lineJ, bitJ⟩ := List.getElem?_zip_eq_some.mp atJ
  have inside : i < order.length := (List.getElem?_eq_some_iff.mp lineI).1
  have same : i = j := (List.getElem?_inj inside distinct).mp (lineI.trans lineJ.symm)
  subst same
  exact Option.some.inj (bitI.symm.trans bitJ)

theorem testBit_fixedValue {order : List Nat} (distinct : order.Nodup) {cube : Cube} {line : Nat} {value : Bool}
    (entry : (line, some value) ∈ order.zip cube) : (fixedValue order cube).testBit line = value := by
  unfold fixedValue
  rw [testBit_foldl_fixed, Nat.zero_testBit, Bool.false_or]
  cases value with
  | true => exact List.any_eq_true.mpr ⟨_, entry, by simp⟩
  | false =>
    rw [List.any_eq_false]
    rintro ⟨other, bit⟩ member both
    obtain ⟨same, one⟩ := Bool.and_eq_true_iff.mp both
    rw [beq_iff_eq] at same one
    subst same
    have equal := entry_unique distinct entry member
    rw [one] at equal
    cases equal

theorem agrees_iff {order : List Nat} {cube : Cube} {y : Nat} :
    agrees order cube y = true ↔ ∀ line value, (line, some value) ∈ order.zip cube → y.testBit line = value := by
  unfold agrees
  rw [List.all_eq_true]
  constructor
  · intro every line value entry
    simpa using every _ entry
  · rintro every ⟨line, bit⟩ entry
    cases bit with
    | none => rfl
    | some value => simpa using every line value entry

theorem agrees_scatter {order : List Nat} (distinct : order.Nodup) (cube : Cube) (lines t : Nat) :
    agrees order cube (scatter (fixedValue order cube) t
      ((List.range lines).filter fun line => !(fixedLines order cube).contains line)) = true := by
  refine agrees_iff.mpr fun line value entry => ?_
  have fixed : line ∈ fixedLines order cube := List.mem_filterMap.mpr ⟨_, entry, rfl⟩
  rw [testBit_scatter, testBit_fixedValue distinct entry]
  simp [fixed]

namespace Partial

def outputOf (p : Partial) (x : Nat) : Option Nat := p.output.getD x none

/-- The outputs that are given are the ones that are taken, each once. -/
structure Consistent (size : Nat) (p : Partial) : Prop where
  output : p.output.size = size
  taken : p.taken.size = size
  outputs : (p.output.toList.filterMap id).Perm ((List.range size).filter p.isTaken)

/-- No output that was given is changed. -/
def Extends (p q : Partial) : Prop := ∀ x y, p.outputOf x = some y → q.outputOf x = some y

variable {size x y : Nat} {p : Partial}

theorem empty_consistent (size : Nat) : (empty size).Consistent size := by
  refine ⟨by simp [empty], by simp [empty], ?_⟩
  have given : (empty size).output.toList.filterMap id = [] := by simp [empty]
  have taken : (List.range size).filter (empty size).isTaken = [] := by
    rw [List.filter_eq_nil_iff]
    intro y member
    simp [isTaken, empty, Array.getD, List.mem_range.mp member]
  rw [given, taken]

theorem outputOf_empty (size x : Nat) : (empty size).outputOf x = none := by
  simp only [outputOf, empty, Array.getD_eq_getD_getElem?, Array.getElem?_replicate]
  split <;> rfl

theorem Consistent.outputOf_assign (consistent : p.Consistent size) (inside : x < size) (z : Nat) :
    (p.assign x y).outputOf z = if z = x then some y else p.outputOf z := by
  have bound : x < p.output.size := by rw [consistent.output]; exact inside
  simp only [outputOf, assign, Array.getD_eq_getD_getElem?, Array.getElem?_setIfInBounds]
  by_cases same : z = x
  · subst same
    simp [bound]
  · simp [same, Ne.symm same]

theorem isTaken_assign (bound : y < p.taken.size) (z : Nat) : (p.assign x y).isTaken z = (z == y || p.isTaken z) := by
  simp only [isTaken, assign, Array.getD_eq_getD_getElem?, Array.getElem?_setIfInBounds]
  by_cases same : z = y
  · subst same
    simp [bound]
  · simp [same, Ne.symm same]

theorem Consistent.isTaken_assign (consistent : p.Consistent size) (inside : y < size) (z : Nat) :
    (p.assign x y).isTaken z = (z == y || p.isTaken z) :=
  Partial.isTaken_assign (by rw [consistent.taken]; exact inside) z

theorem lt_of_not_taken (free : p.isTaken y = false) : y < p.taken.size := by
  by_contra above
  simp [isTaken, Array.getD, above] at free

theorem Consistent.lt_of_not_taken (consistent : p.Consistent size) (free : p.isTaken y = false) : y < size :=
  consistent.taken ▸ Partial.lt_of_not_taken free

theorem filterMap_set {outputs : List (Option Nat)} (open' : outputs[x]? = some none) (y : Nat) :
    ((outputs.set x (some y)).filterMap id).Perm (y :: outputs.filterMap id) := by
  induction outputs generalizing x with
  | nil => cases open'
  | cons entry rest ih =>
    cases x with
    | zero =>
      cases Option.some.inj open'
      exact List.Perm.refl _
    | succ x =>
      have tail := ih (x := x) open'
      cases entry with
      | none => exact tail
      | some z => exact (tail.cons z).trans (List.Perm.swap y z _)

theorem Consistent.assign (consistent : p.Consistent size) (inside : x < size) (open' : p.outputOf x = none)
    (free : p.isTaken y = false) : (p.assign x y).Consistent size := by
  have below := consistent.lt_of_not_taken free
  have bound : x < p.output.size := by rw [consistent.output]; exact inside
  refine ⟨by simp [Partial.assign, consistent.output], by simp [Partial.assign, consistent.taken], ?_⟩
  have entry : p.output.toList[x]? = some none := by
    simpa [outputOf, Array.getD, bound] using open'
  have given : ((p.assign x y).output.toList.filterMap id).Perm (y :: p.output.toList.filterMap id) := by
    simpa [Partial.assign] using filterMap_set entry y
  have taken : (y :: (List.range size).filter p.isTaken).Perm ((List.range size).filter (p.assign x y).isTaken) := by
    have distinct : (y :: (List.range size).filter p.isTaken).Nodup :=
      List.nodup_cons.mpr ⟨by simp [free], List.nodup_range.filter _⟩
    refine (List.perm_ext_iff_of_nodup distinct (List.nodup_range.filter _)).mpr fun z => ?_
    rw [List.mem_cons, List.mem_filter, List.mem_filter, List.mem_range, consistent.isTaken_assign below,
      Bool.or_eq_true, beq_iff_eq]
    constructor
    · rintro (rfl | old)
      · exact ⟨below, Or.inl rfl⟩
      · exact ⟨old.1, Or.inr old.2⟩
    · rintro ⟨bound, same | old⟩
      · exact Or.inl same
      · exact Or.inr ⟨bound, old⟩
  exact given.trans ((consistent.outputs.cons y).trans taken)

theorem Consistent.extends_assign (consistent : p.Consistent size) (inside : x < size) (open' : p.outputOf x = none) :
    p.Extends (p.assign x y) := by
  intro z w given
  have other : z ≠ x := fun same => by rw [same, open'] at given; cases given
  rw [consistent.outputOf_assign inside, if_neg other, given]

/-- What is chosen for a row is free and has the outputs that the row fixes. -/
theorem choose_spec {order : List Nat} (distinct : order.Nodup) {cube : Cube} {lines : Nat}
    (chosen : p.choose lines order x cube = some y) : p.isTaken y = false ∧ agrees order cube y = true := by
  unfold choose at chosen
  split at chosen
  · rename_i both
    cases chosen
    simpa [and_comm] using both
  · obtain ⟨t, found, rfl⟩ := Option.map_eq_some_iff.mp chosen
    rw [firstFrom_eq_find?] at found
    have free := List.find?_some found
    exact ⟨by simpa using free, agrees_scatter distinct cube lines t⟩

theorem Consistent.lt_of_outputOf (consistent : p.Consistent size) (given : p.outputOf x = some y) : x < size := by
  by_contra above
  have outside : ¬x < p.output.size := by rw [consistent.output]; exact above
  simp [outputOf, Array.getD, outside] at given

theorem keepInPlace_spec (consistent : p.Consistent size) (inside : x < size) :
    (p.keepInPlace x).Consistent size ∧ p.Extends (p.keepInPlace x) := by
  unfold keepInPlace
  split
  · rename_i both
    obtain ⟨open', free⟩ := Bool.and_eq_true_iff.mp both
    have open' : p.outputOf x = none := Option.isNone_iff_eq_none.mp open'
    have free : p.isTaken x = false := by simpa using free
    exact ⟨consistent.assign inside open' free, consistent.extends_assign inside open'⟩
  · exact ⟨consistent, fun _ _ given => given⟩

theorem foldl_keepInPlace_spec (xs : List Nat) (consistent : p.Consistent size) (inside : ∀ x ∈ xs, x < size) :
    (xs.foldl keepInPlace p).Consistent size ∧ p.Extends (xs.foldl keepInPlace p) := by
  induction xs generalizing p with
  | nil => exact ⟨consistent, fun _ _ given => given⟩
  | cons x rest ih =>
    obtain ⟨kept, extended⟩ := keepInPlace_spec consistent (inside x List.mem_cons_self)
    obtain ⟨final, more⟩ := ih kept fun z member => inside z (List.mem_cons_of_mem x member)
    exact ⟨final, fun z w given => more z w (extended z w given)⟩

/-- With as many free outputs as places without one, every place is filled and every free output is used. -/
theorem fill_spec {outputs : List (Option Nat)} {free : List Nat}
    (enough : free.length + (outputs.filterMap id).length = outputs.length) :
    ∃ values, fill outputs free = .ok values ∧ values.Perm (outputs.filterMap id ++ free) ∧
      ∀ (x y : Nat), outputs[x]? = some (some y) → values[x]? = some y := by
  induction outputs generalizing free with
  | nil =>
    cases free with
    | nil => exact ⟨[], rfl, List.Perm.refl _, nofun⟩
    | cons y rest => simp at enough
  | cons entry rest ih =>
    have given := List.length_filterMap_le (id : Option Nat → Option Nat) rest
    cases entry with
    | some z =>
      change free.length + ((rest.filterMap id).length + 1) = rest.length + 1 at enough
      obtain ⟨values, run, perm, kept⟩ := @ih free (by omega)
      refine ⟨z :: values, by simp [fill, run], perm.cons z, fun x y entry => ?_⟩
      cases x with
      | zero => exact congrArg some (Option.some.inj (Option.some.inj entry))
      | succ x => exact kept x y entry
    | none =>
      change free.length + (rest.filterMap id).length = rest.length + 1 at enough
      cases free with
      | nil =>
        rw [List.length_nil] at enough
        omega
      | cons z free =>
        rw [List.length_cons] at enough
        obtain ⟨values, run, perm, kept⟩ := @ih free (by omega)
        refine ⟨z :: values, by simp [fill, run], (perm.cons z).trans List.perm_middle.symm, fun x y entry => ?_⟩
        cases x with
        | zero => cases Option.some.inj entry
        | succ x => exact kept x y entry

/-- There are as many free outputs as places without one. -/
theorem Consistent.length_free (consistent : p.Consistent size) :
    ((List.range size).filter fun y => !p.isTaken y).length + (p.output.toList.filterMap id).length =
      p.output.toList.length := by
  have lengths := (List.filter_append_perm p.isTaken (List.range size)).length_eq
  have total : p.output.toList.length = size := consistent.output
  rw [List.length_append, List.length_range, ← consistent.outputs.length_eq] at lengths
  omega

/-- A consistent partial permutation is completed to a permutation. -/
theorem complete_spec (consistent : p.Consistent size) :
    ∃ perm, p.complete = .ok perm ∧ perm.toList.Perm (List.range size) ∧
      ∀ x y, p.outputOf x = some y → perm.getD x x = y := by
  obtain ⟨kept, extended⟩ := foldl_keepInPlace_spec (List.range p.output.size) consistent fun x member =>
    consistent.output ▸ List.mem_range.mp member
  generalize done : (List.range p.output.size).foldl keepInPlace p = q at kept extended
  let free := (List.range size).filter fun y => !q.isTaken y
  have split : ((List.range size).filter q.isTaken ++ free).Perm (List.range size) := List.filter_append_perm _ _
  have enough : free.length + (q.output.toList.filterMap id).length = q.output.toList.length := kept.length_free
  obtain ⟨values, run, perm, same⟩ := fill_spec enough
  refine ⟨values.toArray, ?_, perm.trans ((kept.outputs.append_right free).trans split), fun x y given => ?_⟩
  · unfold complete
    simp only [done, kept.output]
    rw [run]
    rfl
  · have output := extended x y given
    have inside : x < q.output.size := by rw [kept.output]; exact kept.lt_of_outputOf output
    have entry : values[x]? = some y := same x y (by simpa [outputOf, Array.getD, inside] using output)
    obtain ⟨bound, value⟩ := List.getElem?_eq_some_iff.mp entry
    simp [Array.getD, bound, value]

end Partial

variable {size : Nat} {order : List Nat}

/-- Rows for distinct inputs get outputs that they allow, in the order of the table, until one gets none. -/
theorem assignRows_spec (distinct : order.Nodup) (lines : Nat) {rows : List (Bits × Cube)} {p : Partial}
    (consistent : p.Consistent size) (fits : ∀ row ∈ rows, row.1.width ≤ 64)
    (inside : ∀ row ∈ rows, row.1.number < size) (apart : (rows.map fun row => row.1.number).Nodup)
    (open' : ∀ row ∈ rows, p.outputOf row.1.number = none) :
    ∃ result, assignRows lines order p rows = .ok result ∧ ∀ q, result = .ok q →
      q.Consistent size ∧ p.Extends q ∧
        ∀ row ∈ rows, ∃ y, q.outputOf row.1.number = some y ∧ agrees order row.2 y = true := by
  induction rows generalizing p with
  | nil =>
    refine ⟨.ok p, rfl, fun q equal => ?_⟩
    cases equal
    exact ⟨consistent, fun _ _ given => given, nofun⟩
  | cons row rest ih =>
    obtain ⟨input, cube⟩ := row
    obtain ⟨notLater, apartRest⟩ := List.nodup_cons.mp apart
    have here := inside _ List.mem_cons_self
    have openHere := open' _ List.mem_cons_self
    unfold assignRows
    rw [Bits.toWord_eq_ok (fits _ List.mem_cons_self), ok_bind]
    simp only [show (input.words.headD 0).toNat = input.number from rfl]
    cases chosen : p.choose lines order input.number cube with
    | none => exact ⟨_, rfl, nofun⟩
    | some y =>
      obtain ⟨free, allowed⟩ := Partial.choose_spec distinct chosen
      have assigned := consistent.outputOf_assign (y := y) here
      have openRest : ∀ row ∈ rest, (p.assign input.number y).outputOf row.1.number = none := by
        intro row member
        have other : row.1.number ≠ input.number :=
          fun same => notLater (List.mem_map.mpr ⟨row, member, same⟩)
        rw [assigned, if_neg other]
        exact open' row (List.mem_cons_of_mem _ member)
      obtain ⟨result, run, spec⟩ := ih (consistent.assign here openHere free)
        (fun row member => fits row (List.mem_cons_of_mem _ member))
        (fun row member => inside row (List.mem_cons_of_mem _ member)) apartRest openRest
      refine ⟨result, run, fun q equal => ?_⟩
      obtain ⟨final, extended, outputs⟩ := spec q equal
      refine ⟨final, fun x z given => extended x z (consistent.extends_assign here openHere x z given), ?_⟩
      intro row member
      rcases List.mem_cons.mp member with rfl | later
      · exact ⟨y, extended _ _ (by rw [assigned, if_pos rfl]), allowed⟩
      · exact outputs row later

end Embedding

namespace TruthTable

variable {t : TruthTable} {order : List Nat} {maxLines : Nat}

/-- Within its limits, embedding gives the rows their outputs and then completes them. -/
theorem embed_eq (ordered : t.ValidOrder order) (limit : t.inputs ≤ maxLines) (narrow : t.inputs ≤ 63) :
    t.embed order maxLines = (do
      match ← Embedding.assignRows t.inputs order (.empty (2 ^ t.inputs)) t.rows with
      | .ok p => return .ok (← p.complete)
      | .error e => return .error e) := by
  have size : assignmentCount t.inputs = .ok (2 ^ t.inputs) := by
    rw [assignmentCount_eq_ok (by omega), Nat.one_shiftLeft]
  unfold embed
  rw [if_neg (Nat.not_lt.mpr limit), if_neg (not_not_intro ordered), size]
  rfl

theorem embed_eq_ok {perm : Array Nat} (run : t.embed order maxLines = .ok (.ok perm)) :
    t.inputs ≤ maxLines ∧ t.ValidOrder order := by
  unfold embed at run
  split at run
  · cases run
  split at run
  · cases run
  · rename_i fits ordered
    exact ⟨Nat.not_lt.mp fits, not_not.mp ordered⟩

/-- The rows of a table in proper form get outputs that they allow, until one gets none. -/
theorem assignRows_rows (formed : t.WellFormed) (narrow : t.inputs ≤ 63) (distinct : order.Nodup) :
    ∃ result, Embedding.assignRows t.inputs order (.empty (2 ^ t.inputs)) t.rows = .ok result ∧ ∀ q, result = .ok q →
      q.Consistent (2 ^ t.inputs) ∧
        ∀ row ∈ t.rows, ∃ y, q.outputOf row.1.number = some y ∧ Embedding.agrees order row.2 y = true := by
  have fits : ∀ row ∈ t.rows, row.1.width ≤ 64 := fun row member => by
    have width := (formed.inputs row (List.mem_reverse.mp member)).2
    omega
  have apart : (t.rows.map fun row => row.1.number).Nodup :=
    List.pairwise_map.mpr ((formed.ascending (by omega)).imp Nat.ne_of_lt)
  obtain ⟨result, run, spec⟩ := Embedding.assignRows_spec distinct t.inputs (Embedding.Partial.empty_consistent _) fits
    (fun row member => (formed.row_input (by omega) member).1) apart fun row _ => Embedding.Partial.outputOf_empty _ _
  exact ⟨result, run, fun q equal => ⟨(spec q equal).1, (spec q equal).2.2⟩⟩

/-- Embedding never fails on a table in proper form. It gives up, or completes the table to a permutation. -/
theorem embed_spec (formed : t.WellFormed) (order : List Nat) (narrow : min t.inputs maxLines ≤ 63) :
    ∃ result, t.embed order maxLines = .ok result ∧ ∀ perm, result = .ok perm →
      t.inputs ≤ maxLines ∧ perm.toList.Perm (List.range (2 ^ t.inputs)) ∧
        ∀ row ∈ t.rows, Embedding.agrees order row.2 (perm.getD row.1.number row.1.number) = true := by
  by_cases wide : maxLines < t.inputs
  · exact ⟨_, if_pos wide, nofun⟩
  by_cases ordered : t.ValidOrder order
  · have limit : t.inputs ≤ maxLines := Nat.not_lt.mp wide
    rw [min_eq_left limit] at narrow
    obtain ⟨result, run, spec⟩ := assignRows_rows formed narrow ordered.2.2
    rw [embed_eq ordered limit narrow, run, ok_bind]
    cases result with
    | error e => exact ⟨_, rfl, nofun⟩
    | ok p =>
      obtain ⟨consistent, outputs⟩ := spec p rfl
      obtain ⟨perm, complete, permutes, same⟩ := Embedding.Partial.complete_spec consistent
      refine ⟨.ok perm, by simp [complete], fun found equal => ?_⟩
      cases equal
      refine ⟨limit, permutes, fun row member => ?_⟩
      obtain ⟨y, given, allowed⟩ := outputs row member
      rwa [same _ _ given]
  · refine ⟨.error (.orderMismatch order t.inputs t.outputs), ?_, nofun⟩
    unfold embed
    simp only [wide, ordered, if_false, not_false_eq_true, if_true, pure_eq_ok]

end TruthTable

end Reversible
