import Reversible.Proofs.Relabelling
import Reversible.Proofs.TruthTable

namespace Reversible.TruthTable

variable {t d : TruthTable} {input : Bits} {cube : Cube} {rows : List (Bits × Cube)} {n k : Nat}

theorem lookup_cons_eq (row : Bits × Cube) (rows : List (Bits × Cube)) (key : Bits) :
    (row :: rows).lookup key = if key = row.1 then some row.2 else rows.lookup key := by
  rw [List.lookup_cons]
  by_cases same : key = row.1
  · simp [same]
  · simp [same, beq_eq_false_iff_ne.mpr same]

theorem lookup_insertRow (input : Bits) (cube : Cube) (rows : List (Bits × Cube)) (key : Bits) :
    (insertRow input cube rows).lookup key = if key = input then some cube else rows.lookup key := by
  induction rows with
  | nil => exact lookup_cons_eq (input, cube) [] key
  | cons row rest ih =>
    unfold insertRow
    cases order : input.compare row.1 with
    | gt => simp only [lookup_cons_eq]
    | eq =>
      simp only [lookup_cons_eq, ← Bits.compare_eq_iff.mp order]
      split <;> rfl
    | lt =>
      have different : input ≠ row.1 := fun same => by
        rw [Bits.compare_eq_iff.mpr same] at order
        cases order
      simp only [lookup_cons_eq, ih]
      by_cases old : key = row.1
      · have apart : key ≠ input := fun new => different (new.symm.trans old)
        rw [if_pos old, if_pos old, if_neg apart]
      · rw [if_neg old, if_neg old]

theorem mem_insertRow {row : Bits × Cube} (member : row ∈ insertRow input cube rows) :
    row = (input, cube) ∨ row ∈ rows := by
  induction rows with
  | nil => exact Or.inl (List.mem_singleton.mp member)
  | cons first rest ih =>
    unfold insertRow at member
    split at member
    · exact List.mem_cons.mp member
    · exact (List.mem_cons.mp member).imp_right (List.mem_cons_of_mem first)
    · rcases List.mem_cons.mp member with rfl | later
      · exact Or.inr List.mem_cons_self
      · exact (ih later).imp_right (List.mem_cons_of_mem first)

/-- A row is at its place behind the rows that it is below, and before the others. -/
theorem insertRow_sorted (narrow : n ≤ 64) (inputs : ∀ row ∈ rows, row.1.Canonical ∧ row.1.width = n)
    (canonical : input.Canonical) (width : input.width = n)
    (sorted : rows.Pairwise fun a b => b.1.number < a.1.number) :
    (insertRow input cube rows).Pairwise fun a b => b.1.number < a.1.number := by
  induction rows with
  | nil => exact List.pairwise_singleton _ _
  | cons row rest ih =>
    obtain ⟨above, sortedRest⟩ := List.pairwise_cons.mp sorted
    obtain ⟨rowCanonical, rowWidth⟩ := inputs row List.mem_cons_self
    have numbers := Bits.compare_of_width canonical rowCanonical (width.trans rowWidth.symm) (width ▸ narrow)
    unfold insertRow
    cases order : input.compare row.1 with
    | gt =>
      rw [numbers] at order
      have greater := Nat.compare_eq_gt.mp order
      simp only
      refine List.pairwise_cons.mpr ⟨fun other member => ?_, sorted⟩
      rcases List.mem_cons.mp member with rfl | later
      · exact greater
      · exact (above other later).trans greater
    | eq =>
      rw [numbers] at order
      have same := Nat.compare_eq_eq.mp order
      simp only
      exact List.pairwise_cons.mpr ⟨fun other later => same ▸ above other later, sortedRest⟩
    | lt =>
      rw [numbers] at order
      have less := Nat.compare_eq_lt.mp order
      simp only
      refine List.pairwise_cons.mpr
        ⟨fun other member => ?_, ih (fun old later => inputs old (List.mem_cons_of_mem row later)) sortedRest⟩
      rcases mem_insertRow member with rfl | later
      · exact less
      · exact above other later

theorem sorted_iff (narrow : n ≤ 64) (inputs : ∀ row ∈ rows, row.1.Canonical ∧ row.1.width = n) :
    rows.Pairwise (fun a b => a.1.compare b.1 = .gt) ↔ rows.Pairwise fun a b => b.1.number < a.1.number := by
  refine List.Pairwise.iff_of_mem fun {a b} inA inB => ?_
  obtain ⟨canonicalA, widthA⟩ := inputs a inA
  obtain ⟨canonicalB, widthB⟩ := inputs b inB
  rw [Bits.compare_of_width canonicalA canonicalB (widthA.trans widthB.symm) (widthA ▸ narrow)]
  exact Nat.compare_eq_gt

theorem empty_wellFormed (n k : Nat) : (empty n k).WellFormed := ⟨nofun, nofun, .nil⟩

theorem WellFormed.add (formed : t.WellFormed) (narrow : t.inputs ≤ 64) (canonical : input.Canonical)
    (width : input.width = t.inputs) (length : cube.length = t.outputs) :
    ({ t with descending := insertRow input cube t.descending } : TruthTable).WellFormed := by
  have inputs : ∀ row ∈ insertRow input cube t.descending, row.1.Canonical ∧ row.1.width = t.inputs := by
    intro row member
    rcases mem_insertRow member with rfl | old
    · exact ⟨canonical, width⟩
    · exact formed.inputs row old
  refine ⟨inputs, fun row member => ?_, ?_⟩
  · rcases mem_insertRow member with rfl | old
    · exact length
    · exact formed.outputs row old
  · have sorted := (sorted_iff narrow formed.inputs).mp formed.sorted
    exact (sorted_iff narrow inputs).mpr (insertRow_sorted narrow formed.inputs canonical width sorted)

/-- An input has at most one row. -/
theorem WellFormed.get?_eq_some (formed : t.WellFormed) : t.get? input = some cube ↔ (input, cube) ∈ t.rows := by
  have distinct : (t.descending.map Prod.fst).Nodup := by
    refine List.pairwise_map.mpr (formed.sorted.imp fun greater same => ?_)
    rw [Bits.compare_eq_iff.mpr same] at greater
    cases greater
  unfold get? rows
  rw [lookup_eq_some_iff_mem distinct, List.mem_reverse]

theorem WellFormed.words_ascending (formed : t.WellFormed) (narrow : t.inputs ≤ 64) :
    t.rows.Pairwise fun earlier later => ∃ v w, earlier.1.toWord = .ok v ∧ later.1.toWord = .ok w ∧ v < w := by
  refine (formed.ascending narrow).imp_of_mem fun {earlier later} inEarlier inLater less => ?_
  have fits : ∀ row ∈ t.rows, row.1.width ≤ 64 := fun row member =>
    (formed.inputs row (List.mem_reverse.mp member)).2 ▸ narrow
  exact ⟨_, _, Bits.toWord_eq_ok (fits earlier inEarlier), Bits.toWord_eq_ok (fits later inLater),
    UInt64.lt_iff_toNat_lt.mpr less⟩

/-- Rows are as many as there are inputs exactly if every input has one. -/
theorem WellFormed.size_eq_iff (formed : t.WellFormed) (narrow : t.inputs ≤ 64) :
    t.size = 2 ^ t.inputs ↔ ∀ input : Bits, input.Canonical → input.width = t.inputs → (t.get? input).isSome = true := by
  have ascending := formed.ascending narrow
  have distinct : (t.rows.map (·.1.number)).Nodup := List.pairwise_map.mpr (ascending.imp Nat.ne_of_lt)
  have bound : ∀ x ∈ t.rows.map (·.1.number), x < 2 ^ t.inputs := fun x member => by
    obtain ⟨row, inRows, rfl⟩ := List.mem_map.mp member
    exact (formed.row_input narrow inRows).1
  have size : t.size = (t.rows.map (·.1.number)).length := by
    rw [List.length_map, rows, List.length_reverse, TruthTable.size]
  rw [size, length_eq_iff_forall_mem distinct bound]
  constructor
  · intro every input canonical width
    have below := Bits.number_lt canonical (width ▸ narrow)
    obtain ⟨row, member, same⟩ := List.mem_map.mp (every input.number (width ▸ below))
    obtain ⟨rowCanonical, rowWidth⟩ := formed.inputs row (List.mem_reverse.mp member)
    have equal := Bits.number_inj rowCanonical canonical (rowWidth.trans width.symm) (rowWidth ▸ narrow) same
    subst equal
    exact Option.isSome_iff_exists.mpr ⟨row.2, formed.get?_eq_some.mpr member⟩
  · intro every x below
    obtain ⟨cube, found⟩ := Option.isSome_iff_exists.mp
      (every (Bits.pack t.inputs x.testBit) (Bits.pack_canonical _ _) (Bits.pack_width _ _))
    exact List.mem_map.mpr ⟨_, formed.get?_eq_some.mp found, Bits.number_pack narrow below⟩

theorem WellFormed.isFullySpecified_iff (formed : t.WellFormed) (narrow : t.inputs < 64) :
    t.isFullySpecified = true ↔
      (∀ input : Bits, input.Canonical → input.width = t.inputs → (t.get? input).isSome = true) ∧
        ∀ row ∈ t.rows, none ∉ row.2 := by
  have closed : (t.descending.all fun row => row.2.all (·.isSome)) = true ↔ ∀ row ∈ t.rows, none ∉ row.2 := by
    simp only [List.all_eq_true, rows, List.mem_reverse, Option.isSome_iff_ne_none]
    refine forall₂_congr fun row _ => ⟨fun every unset => every none unset rfl, ?_⟩
    rintro every entry member rfl
    exact every member
  change (decide (t.inputs < 64) && t.size == 1 <<< t.inputs &&
    t.descending.all fun row => row.2.all (·.isSome)) = true ↔ _
  rw [Bool.and_eq_true, Bool.and_eq_true, closed, decide_eq_true narrow, beq_iff_eq, Nat.one_shiftLeft,
    formed.size_eq_iff narrow.le]
  simp only [true_and]

/-- A row that is added, or the removal of all rows. -/
inductive Change where
  | add (input : Bits) (cube : Cube)
  | clear

namespace Change

def apply (t : TruthTable) : Change → Except Fault TruthTable
  | add input cube => t.add input cube
  | clear => .ok t.clear

/-- As every set of bits that is built, the input stores nothing outside its width. -/
def Canonical : Change → Prop
  | add input _ => input.Canonical
  | clear => True

/-- A table with `n` inputs and `k` outputs can have the row. -/
def Fits (n k : Nat) : Change → Prop
  | add input cube => input.width = n ∧ cube.length = k
  | clear => True

/-- The change leaves the row for `input` as it is. -/
def Spares (input : Bits) : Change → Prop
  | add other _ => other ≠ input
  | clear => False

theorem fits_of_apply {change : Change} (run : change.apply t = .ok d) :
    change.Fits t.inputs t.outputs ∧ d.inputs = t.inputs ∧ d.outputs = t.outputs := by
  cases change with
  | add input cube =>
    obtain ⟨width, rest⟩ := require_bind_eq_ok.mp run
    obtain ⟨length, added⟩ := require_bind_eq_ok.mp rest
    cases added
    exact ⟨⟨width, length⟩, rfl, rfl⟩
  | clear =>
    cases run
    exact ⟨trivial, rfl, rfl⟩

theorem fits_of_foldlM {changes : List Change} (run : changes.foldlM apply t = .ok d) :
    ∀ change ∈ changes, change.Fits t.inputs t.outputs := by
  induction changes generalizing t with
  | nil => nofun
  | cons change rest ih =>
    obtain ⟨next, first, others⟩ := bind_eq_ok.mp run
    obtain ⟨fits, inputs, outputs⟩ := fits_of_apply first
    refine List.forall_mem_cons.mpr ⟨fits, ?_⟩
    rw [← inputs, ← outputs]
    exact ih others

end Change

/-- The row for `input` was last set to `cube`, and has not been removed since. -/
def LastAdded (changes : List Change) (input : Bits) (cube : Cube) : Prop :=
  ∃ before after, changes = before ++ .add input cube :: after ∧ ∀ change ∈ after, change.Spares input

theorem lastAdded_concat {changes : List Change} {change : Change} : LastAdded (changes ++ [change]) input cube ↔
    change = .add input cube ∨ change.Spares input ∧ LastAdded changes input cube := by
  constructor
  · rintro ⟨before, after, split, spared⟩
    rcases List.eq_nil_or_concat after with rfl | ⟨rest, last, rfl⟩
    · obtain ⟨-, same⟩ := List.append_inj' split rfl
      exact Or.inl (List.singleton_inj.mp same)
    · rw [List.concat_eq_append] at split spared
      obtain ⟨same, lasts⟩ := List.append_inj' (split.trans (List.append_assoc before (_ :: rest) [last]).symm) rfl
      cases lasts
      refine Or.inr ⟨spared change (List.mem_append_right rest List.mem_cons_self), before, rest, same, ?_⟩
      exact fun later member => spared later (List.mem_append_left _ member)
  · rintro (rfl | ⟨spares, before, after, rfl, spared⟩)
    · exact ⟨changes, [], rfl, nofun⟩
    · refine ⟨before, after ++ [change], by simp, fun later member => ?_⟩
      rcases List.mem_append.mp member with old | new
      · exact spared later old
      · exact List.mem_singleton.mp new ▸ spares

/-- What a table holds after changes of an empty one. -/
structure Tabulates (n k : Nat) (changes : List Change) (t : TruthTable) : Prop where
  formed : t.WellFormed
  inputs : t.inputs = n
  outputs : t.outputs = k
  last : ∀ input cube, t.get? input = some cube ↔ LastAdded changes input cube

variable {changes : List Change}

theorem tabulates_empty (n k : Nat) : Tabulates n k [] (empty n k) := by
  refine ⟨empty_wellFormed n k, rfl, rfl, fun input cube => iff_of_false nofun ?_⟩
  rintro ⟨before, after, split, -⟩
  simp at split

theorem Tabulates.step (tabulates : Tabulates n k changes t) (narrow : n ≤ 64) {change : Change}
    (canonical : change.Canonical) (fits : change.Fits n k) :
    ∃ d, change.apply t = .ok d ∧ Tabulates n k (changes ++ [change]) d := by
  obtain ⟨formed, rfl, rfl, last⟩ := tabulates
  cases change with
  | add input cube =>
    obtain ⟨width, length⟩ := fits
    refine ⟨_, add_of_fits width length, formed.add narrow canonical width length, rfl, rfl, fun other otherCube => ?_⟩
    have found : ({ t with descending := insertRow input cube t.descending } : TruthTable).get? other =
        if other = input then some cube else t.get? other := lookup_insertRow input cube t.descending other
    rw [found, lastAdded_concat, ← last]
    by_cases same : other = input
    · simp [same, Change.Spares]
    · simp [same, Change.Spares, Ne.symm same]
  | clear =>
    refine ⟨t.clear, rfl, ⟨nofun, nofun, .nil⟩, rfl, rfl, fun other otherCube => ?_⟩
    rw [lastAdded_concat]
    simp [Change.Spares, clear, get?]

/-- What holds of the changes before holds of them and those that follow. -/
theorem Tabulates.run {before : List Change} (tabulates : Tabulates n k before t) (narrow : n ≤ 64)
    (canonical : ∀ change ∈ changes, change.Canonical) (fits : ∀ change ∈ changes, change.Fits n k) :
    ∃ d, changes.foldlM Change.apply t = .ok d ∧ Tabulates n k (before ++ changes) d := by
  induction changes generalizing before t with
  | nil => exact ⟨t, rfl, (List.append_nil before).symm ▸ tabulates⟩
  | cons change rest ih =>
    obtain ⟨canonicalFirst, canonicalRest⟩ := List.forall_mem_cons.mp canonical
    obtain ⟨fitsFirst, fitsRest⟩ := List.forall_mem_cons.mp fits
    obtain ⟨middle, first, tabulated⟩ := tabulates.step narrow canonicalFirst fitsFirst
    obtain ⟨d, others, all⟩ := ih tabulated canonicalRest fitsRest
    rw [List.append_assoc] at all
    refine ⟨d, ?_, all⟩
    rw [List.foldlM_cons, first, ok_bind, others]

/-- Changes of an empty table complete exactly if all of them fit it. Then the row of an input is the last one added
for it since the rows were last removed, the rows come in the order of the numbers of their inputs, and the table is
fully specified exactly if every input has a row and no row leaves an output open. -/
theorem changes_tabulated (narrow : n < 64) (canonical : ∀ change ∈ changes, change.Canonical) :
    ((∃ t, changes.foldlM Change.apply (empty n k) = .ok t) ↔ ∀ change ∈ changes, change.Fits n k) ∧
    ∀ t, changes.foldlM Change.apply (empty n k) = .ok t →
      (∀ input cube, t.get? input = some cube ↔ LastAdded changes input cube) ∧
      (t.rows.Pairwise fun earlier later => ∃ v w, earlier.1.toWord = .ok v ∧ later.1.toWord = .ok w ∧ v < w) ∧
      (∀ input cube, (input, cube) ∈ t.rows ↔ t.get? input = some cube) ∧
      (t.isFullySpecified = true ↔
        (∀ input : Bits, input.Canonical → input.width = n → (t.get? input).isSome = true) ∧
          ∀ row ∈ t.rows, none ∉ row.2) := by
  refine ⟨⟨fun ⟨t, run⟩ => Change.fits_of_foldlM run, fun fits => ?_⟩, fun t run => ?_⟩
  · obtain ⟨t, run, -⟩ := (tabulates_empty n k).run narrow.le canonical fits
    exact ⟨t, run⟩
  · obtain ⟨d, again, formed, rfl, rfl, last⟩ :=
      (tabulates_empty n k).run narrow.le canonical (Change.fits_of_foldlM run)
    cases run.symm.trans again
    exact ⟨last, formed.words_ascending narrow.le, fun _ _ => formed.get?_eq_some.symm,
      formed.isFullySpecified_iff narrow⟩

/-- Rows in any order, two of them for one input, and one that is removed again. -/
def overwriting : List Change :=
  [.add (Bits.ofWord 1 0) [none], .clear, .add (Bits.ofWord 1 1) [none], .add (Bits.ofWord 1 0) [some true],
    .add (Bits.ofWord 1 1) [some false]]

theorem changes_tabulated_overwriting : ∃ t, overwriting.foldlM Change.apply (empty 1 1) = .ok t ∧
    t.rows = [(Bits.ofWord 1 0, [some true]), (Bits.ofWord 1 1, [some false])] ∧
    LastAdded overwriting (Bits.ofWord 1 1) [some false] ∧ ¬LastAdded overwriting (Bits.ofWord 1 1) [none] ∧
    t.isFullySpecified = true ∧ ∀ input : Bits, input.Canonical → input.width = 1 → (t.get? input).isSome = true := by
  have word : ∀ value, (Bits.ofWord 1 value).Canonical := fun value => by
    rw [Bits.ofWord_eq_pack]
    exact Bits.pack_canonical _ _
  have canonical : ∀ change ∈ overwriting, change.Canonical := by simp [overwriting, Change.Canonical, word]
  have run : overwriting.foldlM Change.apply (empty 1 1) =
      .ok ⟨1, 1, [(Bits.ofWord 1 1, [some false]), (Bits.ofWord 1 0, [some true])]⟩ := by decide
  obtain ⟨-, tabulates⟩ := @changes_tabulated 1 1 overwriting (by decide) canonical
  obtain ⟨last, -, -, full⟩ := tabulates _ run
  have specified := full.mp (by decide)
  exact ⟨_, run, rfl, (last _ _).mp (by decide), fun gone => absurd ((last _ _).mpr gone) (by decide), full.mpr specified,
    specified.1⟩

end Reversible.TruthTable
