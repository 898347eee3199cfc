import Reversible.Proofs.Synthesis.Embedding

namespace Reversible

namespace Embedding

/-- Every output that a row fixes is on its line in `y`. -/
def Meets (order : List Nat) (cube : Cube) (y : Nat) : Prop :=
  ∀ (k line : Nat) (value : Bool), order[k]? = some line → cube[k]? = some (some value) → y.testBit line = value

theorem agrees_iff_meets {order : List Nat} {cube : Cube} {y : Nat} :
    agrees order cube y = true ↔ Meets order cube y := by
  rw [agrees_iff]
  constructor
  · intro every k line value atLine atBit
    exact every line value (List.mem_iff_getElem?.mpr ⟨k, List.getElem?_zip_eq_some.mpr ⟨atLine, atBit⟩⟩)
  · intro meets line value entry
    obtain ⟨k, found⟩ := List.mem_iff_getElem?.mp entry
    obtain ⟨atLine, atBit⟩ := List.getElem?_zip_eq_some.mp found
    exact meets k line value atLine atBit

namespace Partial

variable {size x y z : Nat} {p q : Partial}

theorem outputOf_eq_some : p.outputOf x = some y ↔ p.output.toList[x]? = some (some y) := by
  unfold outputOf
  rw [Array.getD_eq_getD_getElem?, Array.getElem?_toList]
  cases p.output[x]? <;> simp

theorem Consistent.outputOf_eq_none (consistent : p.Consistent size) (inside : x < size) :
    p.outputOf x = none ↔ p.output.toList[x]? = some none := by
  have bound : x < p.output.size := by rw [consistent.output]; exact inside
  simp [outputOf, Array.getD, bound]

/-- An output is taken if it was given. -/
theorem Consistent.isTaken_iff (consistent : p.Consistent size) (below : y < size) :
    p.isTaken y = true ↔ ∃ x, p.outputOf x = some y := by
  have given : y ∈ p.output.toList.filterMap id ↔ p.isTaken y = true := by
    rw [consistent.outputs.mem_iff, List.mem_filter, List.mem_range]
    exact and_iff_right below
  rw [← given, List.mem_filterMap]
  constructor
  · rintro ⟨entry, member, rfl⟩
    obtain ⟨x, found⟩ := List.mem_iff_getElem?.mp member
    exact ⟨x, outputOf_eq_some.mpr found⟩
  · rintro ⟨x, output⟩
    exact ⟨some y, List.mem_iff_getElem?.mpr ⟨x, outputOf_eq_some.mp output⟩, rfl⟩

/-- The inputs of `xs` that had no output and were not taken are their own outputs now. -/
structure Keeps (xs : List Nat) (p q : Partial) : Prop where
  output : ∀ z, q.outputOf z = if z ∈ xs ∧ p.outputOf z = none ∧ p.isTaken z = false then some z else p.outputOf z
  taken : ∀ z, q.isTaken z = true ↔ p.isTaken z = true ∨ z ∈ xs ∧ p.outputOf z = none

theorem keepInPlace_keeps (consistent : p.Consistent size) (inside : x < size) : Keeps [x] p (p.keepInPlace x) := by
  unfold keepInPlace
  by_cases both : p.outputOf x = none ∧ p.isTaken x = false
  · have check : ((p.output.getD x none).isNone && !p.isTaken x) = true := by
      rw [show p.output.getD x none = none from both.1, both.2]
      rfl
    rw [if_pos check]
    refine ⟨fun z => ?_, fun z => ?_⟩
    · rw [consistent.outputOf_assign inside]
      by_cases same : z = x
      · subst same
        rw [if_pos rfl, if_pos ⟨List.mem_singleton_self z, both⟩]
      · rw [if_neg same, if_neg fun here => same (List.mem_singleton.mp here.1)]
    · rw [consistent.isTaken_assign inside, Bool.or_eq_true, beq_iff_eq, List.mem_singleton, or_comm]
      exact or_congr_right ⟨fun same => ⟨same, same ▸ both.1⟩, And.left⟩
  · have check : ¬((p.output.getD x none).isNone && !p.isTaken x) = true := by
      rw [Bool.and_eq_true, Option.isNone_iff_eq_none, Bool.not_eq_true']
      exact both
    rw [if_neg check]
    refine ⟨fun z => ?_, fun z => ⟨Or.inl, ?_⟩⟩
    · rw [if_neg]
      rintro ⟨here, free⟩
      exact both (List.mem_singleton.mp here ▸ free)
    · rintro (taken | ⟨here, open'⟩)
      · exact taken
      · by_contra free
        exact both (List.mem_singleton.mp here ▸ ⟨open', Bool.not_eq_true _ ▸ free⟩)

theorem foldl_keepInPlace_keeps (xs : List Nat) (consistent : p.Consistent size) (inside : ∀ x ∈ xs, x < size) :
    Keeps xs p (xs.foldl keepInPlace p) := by
  induction xs generalizing p with
  | nil => exact ⟨fun z => by simp, fun z => by simp⟩
  | cons x rest ih =>
    have here := inside x List.mem_cons_self
    have first := keepInPlace_keeps consistent here
    have later := ih (keepInPlace_spec consistent here).1 fun w member => inside w (List.mem_cons_of_mem x member)
    refine ⟨fun z => ?_, fun z => ?_⟩
    · have atFirst := first.output z
      have atLater := later.output z
      have taken := first.taken z
      rw [List.foldl_cons]
      grind
    · have atFirst := first.output z
      have atLater := later.taken z
      have taken := first.taken z
      rw [List.foldl_cons]
      grind

theorem choose_self {lines : Nat} {order : List Nat} {cube : Cube} (allowed : agrees order cube x = true)
    (free : p.isTaken x = false) : p.choose lines order x cube = some x := by
  unfold choose
  rw [if_pos (by rw [allowed, free]; rfl)]

/-- The places of a list without an entry. -/
def openPlaces (outputs : List (Option Nat)) : List Nat :=
  (List.range outputs.length).filter fun x => outputs[x]? == some none

theorem openPlaces_cons (entry : Option Nat) (outputs : List (Option Nat)) :
    openPlaces (entry :: outputs) = (if entry = none then [0] else []) ++ (openPlaces outputs).map Nat.succ := by
  have later : ((List.range outputs.length).map Nat.succ).filter (fun x => (entry :: outputs)[x]? == some none) =
      (openPlaces outputs).map Nat.succ := by
    rw [List.filter_map]
    rfl
  unfold openPlaces at later ⊢
  rw [List.length_cons, List.range_succ_eq_map, List.filter_cons, later]
  cases entry <;> rfl

theorem filterMap_openPlaces_cons (entry : Option Nat) (outputs : List (Option Nat)) (value : Nat) (values : List Nat) :
    (openPlaces (entry :: outputs)).filterMap ((value :: values)[·]?) =
      (if entry = none then [value] else []) ++ (openPlaces outputs).filterMap (values[·]?) := by
  have shifted : ((openPlaces outputs).map Nat.succ).filterMap ((value :: values)[·]?) =
      (openPlaces outputs).filterMap (values[·]?) := by
    rw [List.filterMap_map]
    rfl
  rw [openPlaces_cons, List.filterMap_append, shifted]
  cases entry <;> rfl

/-- They get the free outputs in their order. -/
theorem fill_open {outputs : List (Option Nat)} {free values : List Nat} (run : fill outputs free = .ok values)
    (enough : free.length + (outputs.filterMap id).length = outputs.length) :
    (openPlaces outputs).filterMap (values[·]?) = free := by
  induction outputs generalizing free values with
  | nil =>
    have none : free = [] := List.length_eq_zero_iff.mp (by simpa using enough)
    rw [none]
    rfl
  | cons entry rest ih =>
    have given := List.length_filterMap_le (id : Option Nat → Option Nat) rest
    cases entry with
    | some z =>
      change free.length + ((rest.filterMap id).length + 1) = rest.length + 1 at enough
      obtain ⟨tail, filled, equal⟩ := bind_eq_ok.mp run
      cases equal
      rw [filterMap_openPlaces_cons, if_neg (Option.some_ne_none z), List.nil_append]
      exact ih filled (by omega)
    | none =>
      change free.length + (rest.filterMap id).length = rest.length + 1 at enough
      cases free with
      | nil =>
        rw [List.length_nil] at enough
        omega
      | cons y free =>
        rw [List.length_cons] at enough
        obtain ⟨tail, filled, equal⟩ := bind_eq_ok.mp run
        cases equal
        rw [filterMap_openPlaces_cons, if_pos rfl, ih filled (by omega)]
        rfl

section

variable (keeps : Keeps (List.range size) p q)

include keeps

theorem Keeps.openPlaces_eq (consistent : q.Consistent size) : openPlaces q.output.toList =
    (List.range size).filter fun x => (p.outputOf x).isNone && p.isTaken x := by
  unfold openPlaces
  rw [show q.output.toList.length = size from consistent.output]
  refine List.filter_congr fun x member => ?_
  have atX := consistent.outputOf_eq_none (List.mem_range.mp member)
  rw [keeps.output x] at atX
  rw [Bool.eq_iff_iff, beq_iff_eq, ← atX]
  cases p.outputOf x <;> simp [member]

theorem Keeps.free_eq : (List.range size).filter (fun y => !q.isTaken y) =
    (List.range size).filter fun y => (p.outputOf y).isSome && !p.isTaken y := by
  refine List.filter_congr fun y member => ?_
  have atY : q.isTaken y = (p.isTaken y || (p.outputOf y).isNone) := by
    rw [Bool.eq_iff_iff, keeps.taken, Bool.or_eq_true, Option.isNone_iff_eq_none]
    exact or_congr_right (and_iff_right member)
  rw [atY]
  cases p.outputOf y <;> simp

end

/-- An input that has no output is its own output if that is not taken. The other inputs without an output get,
in ascending order, the outputs that are not taken although their own input has one. -/
theorem complete_fills (consistent : p.Consistent size) {perm : Array Nat} (run : p.complete = .ok perm) :
    (∀ x y, p.outputOf x = some y → perm[x]? = some y) ∧
      (∀ x, p.outputOf x = none → p.isTaken x = false → perm[x]? = some x) ∧
      ((List.range size).filter fun x => (p.outputOf x).isNone && p.isTaken x).filterMap (perm[·]?) =
        (List.range size).filter fun y => (p.outputOf y).isSome && !p.isTaken y := by
  have inside : ∀ x ∈ List.range p.output.size, x < size := fun x member => consistent.output ▸ List.mem_range.mp member
  have keeps := foldl_keepInPlace_keeps (List.range p.output.size) consistent inside
  have kept := (foldl_keepInPlace_spec (List.range p.output.size) consistent inside).1
  unfold complete at run
  generalize (List.range p.output.size).foldl keepInPlace p = q at run keeps kept
  rw [consistent.output] at keeps
  simp only [kept.output] at run
  obtain ⟨values, filled, equal⟩ := bind_eq_ok.mp run
  cases equal
  obtain ⟨same, again, -, given⟩ := fill_spec kept.length_free
  cases filled.symm.trans again
  have stays : ∀ x y, q.outputOf x = some y → values.toArray[x]? = some y := fun x y output => by
    rw [List.getElem?_toArray]
    exact given x y (outputOf_eq_some.mp output)
  refine ⟨fun x y output => stays x y ?_, fun x open' free => stays x x ?_, ?_⟩
  · rw [keeps.output, if_neg fun here => absurd here.2.1 (output ▸ Option.some_ne_none y)]
    exact output
  · rw [keeps.output, if_pos ⟨List.mem_range.mpr (consistent.lt_of_not_taken free), open', free⟩]
  · rw [← keeps.openPlaces_eq kept, ← keeps.free_eq, ← fill_open filled kept.length_free]
    exact List.filterMap_congr fun x _ => List.getElem?_toArray

end Partial

section

variable {size lines : Nat} {order : List Nat} {rows : List (Bits × Cube)} {p q : Partial}

theorem assignRows_cons_eq_ok {input : Bits} {cube : Cube}
    (run : assignRows lines order p ((input, cube) :: rows) = .ok (.ok q)) :
    ∃ y, p.choose lines order input.number cube = some y ∧
      assignRows lines order (p.assign input.number y) rows = .ok (.ok q) := by
  unfold assignRows at run
  obtain ⟨word, toWord, rest⟩ := bind_eq_ok.mp run
  have value : word.toNat = input.number := by
    obtain ⟨_, equal⟩ := require_bind_eq_ok.mp toWord
    cases equal
    rfl
  rw [value] at rest
  cases chosen : p.choose lines order input.number cube with
  | none => simp [chosen] at rest
  | some y =>
    simp only [chosen] at rest
    exact ⟨y, rfl, rest⟩

/-- Only the inputs of the rows get an output, and a row gets its own input if it allows that and no input before
it has it. -/
theorem assignRows_places (distinct : order.Nodup) (consistent : p.Consistent size)
    (inside : ∀ row ∈ rows, row.1.number < size)
    (ascending : rows.Pairwise fun earlier later => earlier.1.number < later.1.number)
    (before : ∀ row ∈ rows, ∀ z y, p.outputOf z = some y → z < row.1.number)
    (run : assignRows lines order p rows = .ok (.ok q)) :
    p.Extends q ∧ (∀ z y, q.outputOf z = some y → p.outputOf z = some y ∨ ∃ row ∈ rows, row.1.number = z) ∧
      ∀ row ∈ rows, agrees order row.2 row.1.number = true →
        (∀ z, q.outputOf z = some row.1.number → row.1.number ≤ z) →
          q.outputOf row.1.number = some row.1.number := by
  induction rows generalizing p with
  | nil =>
    cases run
    exact ⟨fun _ _ given => given, fun _ _ given => Or.inl given, nofun⟩
  | cons row rest ih =>
    obtain ⟨input, cube⟩ := row
    obtain ⟨below, ascendingRest⟩ := List.pairwise_cons.mp ascending
    have here := inside _ List.mem_cons_self
    have beforeHere := before _ List.mem_cons_self
    have openHere : p.outputOf input.number = none := by
      cases given : p.outputOf input.number with
      | none => rfl
      | some y => exact absurd (beforeHere _ y given) (Nat.lt_irrefl _)
    obtain ⟨y, chosen, later⟩ := assignRows_cons_eq_ok run
    obtain ⟨free, _⟩ := Partial.choose_spec distinct chosen
    have assigned := consistent.outputOf_assign (y := y) here
    obtain ⟨extended, domain, own⟩ := ih (consistent.assign here openHere free)
      (fun row member => inside row (List.mem_cons_of_mem _ member)) ascendingRest (by
        intro row member z w given
        rw [assigned] at given
        split at given
        · rename_i same
          exact same ▸ below row member
        · exact before row (List.mem_cons_of_mem _ member) z w given) later
    have extends' : p.Extends q := fun z w given => extended z w (consistent.extends_assign here openHere z w given)
    refine ⟨extends', fun z w given => ?_, fun row member allowed first => ?_⟩
    · rcases domain z w given with old | ⟨row, member, same⟩
      · rw [assigned] at old
        split at old
        · rename_i same
          exact Or.inr ⟨_, List.mem_cons_self, same.symm⟩
        · exact Or.inl old
      · exact Or.inr ⟨row, List.mem_cons_of_mem _ member, same⟩
    · rcases List.mem_cons.mp member with rfl | inRest
      · have untaken : p.isTaken input.number = false := by
          rw [← Bool.not_eq_true, consistent.isTaken_iff here]
          rintro ⟨z, given⟩
          exact absurd (beforeHere z _ given) (Nat.not_lt.mpr (first z (extends' z _ given)))
        cases chosen.symm.trans (Partial.choose_self allowed untaken)
        exact extended _ _ (by rw [assigned, if_pos rfl])
      · exact own row inRest allowed first

end

end Embedding

namespace TruthTable

variable {t : TruthTable} {order : List Nat} {maxLines : Nat}

/-- Whether a row is for input `x`. -/
def HasRow (t : TruthTable) (x : Nat) : Prop := ∃ row ∈ t.rows, row.1.number = x

instance (t : TruthTable) (x : Nat) : Decidable (t.HasRow x) := by
  unfold HasRow
  infer_instance

/-- Whether `perm` gives output `y` to the input of a row. -/
def GivesToRow (t : TruthTable) (perm : Array Nat) (y : Nat) : Prop := ∃ row ∈ t.rows, perm[row.1.number]? = some y

instance (t : TruthTable) (perm : Array Nat) (y : Nat) : Decidable (t.GivesToRow perm y) := by
  unfold GivesToRow
  infer_instance

open Reversible.Embedding in
/-- What the rows alone decide of an embedding. -/
theorem embed_rows (formed : t.WellFormed) (narrow : t.inputs ≤ 63) {perm : Array Nat}
    (embedded : t.embed order maxLines = .ok (.ok perm)) :
    ∃ p : Partial, p.Consistent (2 ^ t.inputs) ∧ p.complete = .ok perm ∧
      (∀ x, t.HasRow x ↔ ∃ y, p.outputOf x = some y) ∧
      (∀ row ∈ t.rows, ∃ y, p.outputOf row.1.number = some y ∧ Meets order row.2 y) ∧
      ∀ row ∈ t.rows, Meets order row.2 row.1.number →
        (∀ z, p.outputOf z = some row.1.number → row.1.number ≤ z) → p.outputOf row.1.number = some row.1.number := by
  obtain ⟨limit, ordered⟩ := embed_eq_ok embedded
  obtain ⟨result, assigns, spec⟩ := assignRows_rows formed narrow ordered.2.2
  rw [embed_eq ordered limit narrow, assigns, ok_bind] at embedded
  cases result with
  | error e => cases embedded
  | ok p =>
    obtain ⟨consistent, outputs⟩ := spec p rfl
    obtain ⟨_, domain, own⟩ := assignRows_places ordered.2.2 (Partial.empty_consistent _)
      (fun row member => (formed.row_input (by omega) member).1) (formed.ascending (by omega))
      (fun row _ z y given => by rw [Partial.outputOf_empty] at given; cases given) assigns
    obtain ⟨completed, complete, equal⟩ := bind_eq_ok.mp embedded
    cases equal
    refine ⟨p, consistent, complete, fun x => ⟨?_, ?_⟩, fun row member => ?_, fun row member meets => ?_⟩
    · rintro ⟨row, member, rfl⟩
      obtain ⟨y, given, _⟩ := outputs row member
      exact ⟨y, given⟩
    · rintro ⟨y, given⟩
      exact (domain x y given).resolve_left fun old => by rw [Partial.outputOf_empty] at old; cases old
    · obtain ⟨y, given, allowed⟩ := outputs row member
      exact ⟨y, given, agrees_iff_meets.mp allowed⟩
    · exact own row member (agrees_iff_meets.mpr meets)

/-- Embedding never fails. A table that it completes becomes a permutation that does what the rows ask for. Inputs
stay where they are as far as the rows allow that, and the others are filled up in ascending order. -/
theorem embed_completes (formed : t.WellFormed) (narrow : t.inputs ≤ 63) (order : List Nat) (maxLines : Nat) :
    (∃ result, t.embed order maxLines = .ok result) ∧ ∀ perm, t.embed order maxLines = .ok (.ok perm) →
      perm.toList.Perm (List.range (2 ^ t.inputs)) ∧
      (∀ row ∈ t.rows, ∃ y, perm[row.1.number]? = some y ∧ Embedding.Meets order row.2 y) ∧
      (∀ row ∈ t.rows, Embedding.Meets order row.2 row.1.number →
        (∀ earlier ∈ t.rows, earlier.1.number < row.1.number → perm[earlier.1.number]? ≠ some row.1.number) →
          perm[row.1.number]? = some row.1.number) ∧
      (∀ x < 2 ^ t.inputs, ¬t.HasRow x → ¬t.GivesToRow perm x → perm[x]? = some x) ∧
      ((List.range (2 ^ t.inputs)).filter fun x => ¬t.HasRow x ∧ t.GivesToRow perm x).filterMap (perm[·]?) =
        (List.range (2 ^ t.inputs)).filter fun y => t.HasRow y ∧ ¬t.GivesToRow perm y := by
  obtain ⟨result, run, permutes⟩ := embed_spec formed order ((Nat.min_le_left _ maxLines).trans narrow)
  refine ⟨⟨result, run⟩, fun perm embedded => ?_⟩
  cases run.symm.trans embedded
  obtain ⟨p, consistent, complete, hasRow, outputs, own⟩ := embed_rows formed narrow embedded
  obtain ⟨same, stays, fills⟩ := Embedding.Partial.complete_fills consistent complete
  have none : ∀ x, p.outputOf x = none ↔ ¬t.HasRow x := fun x => by
    rw [hasRow x, ← Option.isSome_iff_exists, Option.not_isSome_iff_eq_none]
  have taken : ∀ y < 2 ^ t.inputs, (p.isTaken y = true ↔ t.GivesToRow perm y) := fun y below => by
    rw [consistent.isTaken_iff below]
    constructor
    · rintro ⟨x, given⟩
      obtain ⟨row, member, rfl⟩ := (hasRow x).mpr ⟨y, given⟩
      exact ⟨row, member, same _ _ given⟩
    · rintro ⟨row, member, found⟩
      obtain ⟨z, given, _⟩ := outputs row member
      cases (same _ _ given).symm.trans found
      exact ⟨_, given⟩
  refine ⟨(permutes perm rfl).2.1, fun row member => ?_, fun row member meets first => ?_,
    fun x below noRow free => ?_, ?_⟩
  · obtain ⟨y, given, meets⟩ := outputs row member
    exact ⟨y, same _ _ given, meets⟩
  · refine same _ _ (own row member meets fun z given => ?_)
    obtain ⟨earlier, isRow, rfl⟩ := (hasRow z).mpr ⟨_, given⟩
    exact Nat.not_lt.mp fun less => first earlier isRow less (same _ _ given)
  · exact stays x ((none x).mpr noRow) (Bool.not_eq_true _ ▸ mt (taken x below).mp free)
  · have displaced : ∀ x ∈ List.range (2 ^ t.inputs),
        decide (¬t.HasRow x ∧ t.GivesToRow perm x) = ((p.outputOf x).isNone && p.isTaken x) := fun x member => by
      rw [Bool.eq_iff_iff, decide_eq_true_iff, Bool.and_eq_true, Option.isNone_iff_eq_none, none,
        taken x (List.mem_range.mp member)]
    have vacated : ∀ y ∈ List.range (2 ^ t.inputs),
        decide (t.HasRow y ∧ ¬t.GivesToRow perm y) = ((p.outputOf y).isSome && !p.isTaken y) := fun y member => by
      rw [Bool.eq_iff_iff, decide_eq_true_iff, Bool.and_eq_true, Option.isSome_iff_exists, ← hasRow,
        Bool.not_eq_true', ← Bool.not_eq_true, taken y (List.mem_range.mp member)]
    rw [List.filter_congr displaced, List.filter_congr vacated, fills]

/-- The first two rows ask for line 2, which their inputs do not have. The third is content with its own input. -/
def crossing : TruthTable :=
  ⟨3, 2, [(Bits.ofWord 3 3, [none, some true]), (Bits.ofWord 3 1, [some true, none]),
    (Bits.ofWord 3 0, [some true, none])]⟩

theorem crossing_wellFormed : crossing.WellFormed where
  inputs row member := by
    have input : ∃ value, row.1 = Bits.ofWord 3 value := by
      simp only [crossing, List.mem_cons, List.not_mem_nil, or_false] at member
      rcases member with rfl | rfl | rfl <;> exact ⟨_, rfl⟩
    obtain ⟨value, equal⟩ := input
    rw [equal, Bits.ofWord_eq_pack]
    exact ⟨Bits.pack_canonical _ _, Bits.pack_width _ _⟩
  outputs := by decide
  sorted := by decide

theorem embed_completes_crossing : crossing.WellFormed ∧ crossing.inputs ≤ 63 ∧
    ∃ perm, crossing.embed [2, 0] 3 = .ok (.ok perm) ∧ perm = #[4, 5, 2, 3, 0, 1, 6, 7] ∧
      perm.toList.Perm (List.range (2 ^ crossing.inputs)) ∧
      (∀ row ∈ crossing.rows, ∃ y, perm[row.1.number]? = some y ∧ Embedding.Meets [2, 0] row.2 y) ∧
      (∀ row ∈ crossing.rows, Embedding.Meets [2, 0] row.2 row.1.number →
        (∀ earlier ∈ crossing.rows, earlier.1.number < row.1.number → perm[earlier.1.number]? ≠ some row.1.number) →
          perm[row.1.number]? = some row.1.number) ∧
      (∀ x < 2 ^ crossing.inputs, ¬crossing.HasRow x → ¬crossing.GivesToRow perm x → perm[x]? = some x) ∧
      ((List.range (2 ^ crossing.inputs)).filter fun x =>
          ¬crossing.HasRow x ∧ crossing.GivesToRow perm x).filterMap (perm[·]?) =
        (List.range (2 ^ crossing.inputs)).filter fun y => crossing.HasRow y ∧ ¬crossing.GivesToRow perm y := by
  have narrow : crossing.inputs ≤ 63 := by decide
  have embedded : crossing.embed [2, 0] 3 = .ok (.ok #[4, 5, 2, 3, 0, 1, 6, 7]) := by decide +kernel
  exact ⟨crossing_wellFormed, narrow, _, embedded, rfl,
    (embed_completes crossing_wellFormed narrow [2, 0] 3).2 _ embedded⟩

end TruthTable

end Reversible
