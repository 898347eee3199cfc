import Reversible.Proofs.Packing
import Reversible.TruthTable

namespace Reversible

namespace Bits

def number (b : Bits) : Nat := (b.words.headD 0).toNat

variable {n x y : Nat}

theorem testBit_number {b : Bits} (canonical : b.Canonical) (fits : b.width ≤ 64) (i : Nat) :
    b.number.testBit i = b.testBit i := testBit_headD canonical fits i

theorem number_lt {b : Bits} (canonical : b.Canonical) (fits : b.width ≤ 64) : b.number < 2 ^ b.width := by
  refine Nat.lt_pow_two_of_testBit _ fun i above => ?_
  rw [testBit_number canonical fits]
  exact canonical.2 i above

theorem eq_pack_number {b : Bits} (canonical : b.Canonical) (fits : b.width ≤ 64) :
    b = pack b.width b.number.testBit :=
  eq_pack canonical _ fun i _ => (testBit_number canonical fits i).symm

theorem number_inj {a b : Bits} (left : a.Canonical) (right : b.Canonical) (width : a.width = b.width)
    (fits : a.width ≤ 64) (same : a.number = b.number) : a = b := by
  rw [eq_pack_number left fits, eq_pack_number right (width ▸ fits), same, width]

theorem number_pack (fits : n ≤ 64) (inside : x < 2 ^ n) : (pack n x.testBit).number = x := by
  refine Nat.eq_of_testBit_eq fun i => ?_
  rw [testBit_number (pack_canonical _ _) (by simpa using fits), testBit_pack]
  by_cases low : i < n
  · simp [low]
  · simp [low, testBit_above inside (Nat.not_lt.mp low)]

/-- Any values of at most 64 lines are the bits of a number. -/
theorem exists_testBit_eq (fits : n ≤ 64) (σ : Assignment) : ∃ x < 2 ^ n, ∀ i < n, σ i = x.testBit i := by
  have width : (pack n σ).width ≤ 64 := by rwa [pack_width]
  refine ⟨(pack n σ).number, ?_, fun i inside => ?_⟩
  · have bound := number_lt (pack_canonical n σ) width
    rwa [pack_width] at bound
  · rw [testBit_number (pack_canonical n σ) width, testBit_pack_of_lt inside]

theorem compareWords_eq_iff {vs ws : List UInt64} : compareWords vs ws = .eq ↔ vs = ws := by
  induction vs generalizing ws with
  | nil => cases ws <;> simp [compareWords]
  | cons v vs ih =>
    cases ws with
    | nil => simp [compareWords]
    | cons w ws =>
      have head : Ord.compare v w = .eq ↔ v = w := Std.LawfulEqCmp.compare_eq_iff_eq
      rw [compareWords, Ordering.then_eq_eq, head, ih, List.cons.injEq]

theorem compare_eq_iff {a b : Bits} : a.compare b = .eq ↔ a = b := by
  have width : Ord.compare a.width b.width = .eq ↔ a.width = b.width := Nat.compare_eq_eq
  unfold compare
  rw [Ordering.then_eq_eq, compareWords_eq_iff, width]
  cases a
  cases b
  simp

theorem compare_word (v w : UInt64) : Ord.compare v w = Ord.compare v.toNat w.toNat := by
  rcases Nat.lt_trichotomy v.toNat w.toNat with less | same | greater
  · rw [Nat.compare_eq_lt.mpr less]
    exact Std.compare_eq_lt.mpr (UInt64.lt_iff_toNat_lt.mpr less)
  · rw [Nat.compare_eq_eq.mpr same, UInt64.toNat_inj.mp same]
    exact Std.ReflCmp.compare_self
  · rw [Nat.compare_eq_gt.mpr greater]
    exact Std.compare_eq_gt.mpr (UInt64.lt_iff_toNat_lt.mpr greater)

theorem words_of_narrow {b : Bits} (canonical : b.Canonical) (fits : b.width ≤ 64) :
    b.width = 0 ∧ b.words = [] ∨ 0 < b.width ∧ ∃ w, b.words = [w] := by
  have length := canonical.1
  rcases Nat.eq_zero_or_pos b.width with none | some
  · exact Or.inl ⟨none, List.length_eq_zero_iff.mp (by omega)⟩
  · exact Or.inr ⟨some, List.length_eq_one_iff.mp (by omega)⟩

/-- In one word the order of the sets is the order of their numbers, and then of their widths. -/
theorem compare_eq {a b : Bits} (left : a.Canonical) (right : b.Canonical) (fitsA : a.width ≤ 64)
    (fitsB : b.width ≤ 64) :
    a.compare b = (Ord.compare a.number b.number).then (Ord.compare a.width b.width) := by
  unfold compare number
  rcases words_of_narrow left fitsA with ⟨noneA, wordsA⟩ | ⟨someA, v, wordsA⟩ <;>
    rcases words_of_narrow right fitsB with ⟨noneB, wordsB⟩ | ⟨someB, w, wordsB⟩
  all_goals rw [wordsA, wordsB]
  · rfl
  -- No words come before one word, and so does the smaller width if that word is zero.
  · have wider : Ord.compare a.width b.width = .lt := Nat.compare_eq_lt.mpr (by omega)
    rw [wider]
    rcases Nat.eq_zero_or_pos w.toNat with zero | positive
    · rw [List.headD_cons, zero]
      rfl
    · have less : Ord.compare ([].headD (0 : UInt64)).toNat w.toNat = .lt := Nat.compare_eq_lt.mpr positive
      rw [List.headD_cons, less]
      rfl
  · have wider : Ord.compare a.width b.width = .gt := Nat.compare_eq_gt.mpr (by omega)
    rw [wider]
    rcases Nat.eq_zero_or_pos v.toNat with zero | positive
    · rw [List.headD_cons, zero]
      rfl
    · have greater : Ord.compare v.toNat ([].headD (0 : UInt64)).toNat = .gt := Nat.compare_eq_gt.mpr positive
      rw [List.headD_cons, greater]
      rfl
  · simp only [compareWords, Ordering.then_eq, compare_word, List.headD_cons]

theorem compare_of_width {a b : Bits} (left : a.Canonical) (right : b.Canonical) (width : a.width = b.width)
    (fits : a.width ≤ 64) : a.compare b = Ord.compare a.number b.number := by
  rw [compare_eq left right fits (width ▸ fits), Nat.compare_eq_eq.mpr width, Ordering.then_eq]

theorem compare_pack (fits : n ≤ 64) (insideX : x < 2 ^ n) (insideY : y < 2 ^ n) :
    (pack n x.testBit).compare (pack n y.testBit) = Ord.compare x y := by
  have width : ∀ z, (pack n z).width = n := pack_width n
  rw [compare_of_width (pack_canonical _ _) (pack_canonical _ _) ((width _).trans (width _).symm)
    (by rwa [width]), number_pack fits insideX, number_pack fits insideY]

theorem compare_pack_gt (fits : n ≤ 64) (inside : x < 2 ^ n) (less : y < x) :
    (pack n x.testBit).compare (pack n y.testBit) = .gt := by
  rw [compare_pack fits inside (less.trans inside)]
  exact Nat.compare_eq_gt.mpr less

end Bits

theorem lookup_eq_some_iff_mem {α β : Type} [BEq α] [LawfulBEq α] {entries : List (α × β)}
    (distinct : (entries.map Prod.fst).Nodup) {key : α} {value : β} :
    entries.lookup key = some value ↔ (key, value) ∈ entries := by
  induction entries with
  | nil => simp
  | cons entry rest ih =>
    obtain ⟨k, v⟩ := entry
    obtain ⟨fresh, others⟩ := List.nodup_cons.mp distinct
    rw [List.lookup_cons, List.mem_cons]
    by_cases same : key = k
    · subst same
      have absent : (key, value) ∉ rest := fun member => fresh (List.mem_map.mpr ⟨_, member, rfl⟩)
      simp [absent, eq_comm]
    · have differs : (key == k) = false := beq_eq_false_iff_ne.mpr same
      simp [differs, same, ih others]

namespace TruthTable

/-- Every row fits the table, and the rows stand in strictly descending order of their inputs. -/
structure WellFormed (t : TruthTable) : Prop where
  inputs : ∀ row ∈ t.descending, row.1.Canonical ∧ row.1.width = t.inputs
  outputs : ∀ row ∈ t.descending, row.2.length = t.outputs
  sorted : t.descending.Pairwise fun a b => a.1.compare b.1 = .gt

variable {t : TruthTable}

/-- A row of a table on at most 64 inputs is one for a number, and the rows come in the order of these numbers. -/
theorem WellFormed.row_input (formed : t.WellFormed) (narrow : t.inputs ≤ 64) {row : Bits × Cube}
    (member : row ∈ t.rows) :
    row.1.number < 2 ^ t.inputs ∧ row.1 = Bits.pack t.inputs row.1.number.testBit := by
  obtain ⟨canonical, width⟩ := formed.inputs row (List.mem_reverse.mp member)
  have fits : row.1.width ≤ 64 := width ▸ narrow
  exact ⟨width ▸ Bits.number_lt canonical fits, width ▸ Bits.eq_pack_number canonical fits⟩

theorem WellFormed.ascending (formed : t.WellFormed) (narrow : t.inputs ≤ 64) :
    t.rows.Pairwise fun earlier later => earlier.1.number < later.1.number := by
  refine List.pairwise_reverse.mpr (formed.sorted.imp_of_mem fun {a b} inA inB greater => ?_)
  obtain ⟨boundA, inputA⟩ := formed.row_input narrow (List.mem_reverse.mpr inA)
  obtain ⟨boundB, inputB⟩ := formed.row_input narrow (List.mem_reverse.mpr inB)
  rw [inputA, inputB, Bits.compare_pack narrow boundA boundB] at greater
  exact Nat.compare_eq_gt.mp greater

/-- The first row whose outputs are already asked for by `capacity` rows, those of `earlier` included. -/
def crowded? (capacity : Nat) (earlier : List (Bits × Cube)) : List (Bits × Cube) → Option (Bits × Cube)
  | [] => none
  | row :: rest =>
    if capacity ≤ earlier.countP fun other => other.2 == row.2 then some row
    else crowded? capacity (row :: earlier) rest

theorem insertRow_of_gt {input : Bits} {cube : Cube} {rows : List (Bits × Cube)}
    (above : ∀ row ∈ rows, input.compare row.1 = .gt) : insertRow input cube rows = (input, cube) :: rows := by
  cases rows with
  | nil => rfl
  | cons row rest =>
    have greater := above row List.mem_cons_self
    unfold insertRow
    simp only [greater]

theorem add_of_fits {t : TruthTable} {input : Bits} {cube : Cube} (width : input.width = t.inputs)
    (length : cube.length = t.outputs) :
    t.add input cube = .ok { t with descending := insertRow input cube t.descending } := by
  unfold add
  rw [require_of width, ok_bind, require_of length]
  rfl

/-- A row behind all others is added at the head. -/
theorem add_eq_ok {t : TruthTable} {input : Bits} {cube : Cube} (width : input.width = t.inputs)
    (length : cube.length = t.outputs) (above : ∀ row ∈ t.descending, input.compare row.1 = .gt) :
    t.add input cube = .ok { t with descending := (input, cube) :: t.descending } := by
  rw [add_of_fits width length, insertRow_of_gt above]

/-- The row for the number `x`. -/
def rowOf (n : Nat) (cube : Nat → Cube) (x : Nat) : Bits × Cube := (Bits.pack n x.testBit, cube x)

/-- The rows for ascending numbers. -/
def ofRows (n k : Nat) (cube : Nat → Cube) (xs : List Nat) : TruthTable := ⟨n, k, (xs.map (rowOf n cube)).reverse⟩

variable {n k : Nat} {cube : Nat → Cube}

theorem rows_ofRows (xs : List Nat) : (ofRows n k cube xs).rows = xs.map (rowOf n cube) := List.reverse_reverse _

theorem descending_ofRows_concat (xs : List Nat) (x : Nat) :
    (ofRows n k cube (xs ++ [x])).descending = rowOf n cube x :: (ofRows n k cube xs).descending := by
  unfold ofRows
  rw [List.map_append, List.reverse_append]
  rfl

/-- A number above all others gets its row at the head. -/
theorem add_ofRows (narrow : n ≤ 64) {xs : List Nat} {x : Nat} (length : (cube x).length = k)
    (above : ∀ y ∈ xs, y < x) (bound : x < 2 ^ n) :
    (ofRows n k cube xs).add (Bits.pack n x.testBit) (cube x) = .ok (ofRows n k cube (xs ++ [x])) := by
  have greatest : ∀ row ∈ (ofRows n k cube xs).descending, (Bits.pack n x.testBit).compare row.1 = .gt := by
    intro row member
    obtain ⟨y, old, rfl⟩ := List.mem_map.mp (List.mem_reverse.mp member)
    exact Bits.compare_pack_gt narrow bound (above y old)
  refine (add_eq_ok (t := ofRows n k cube xs) (Bits.pack_width n x.testBit) length greatest).trans ?_
  unfold ofRows
  rw [List.map_append, List.reverse_append]
  rfl

theorem ofRows_wellFormed (narrow : n ≤ 64) {xs : List Nat} (length : ∀ x ∈ xs, (cube x).length = k)
    (ascending : xs.Pairwise (· < ·)) (bound : ∀ x ∈ xs, x < 2 ^ n) : (ofRows n k cube xs).WellFormed := by
  refine ⟨fun row member => ?_, fun row member => ?_, ?_⟩
  · obtain ⟨x, _, rfl⟩ := List.mem_map.mp (List.mem_reverse.mp member)
    exact ⟨Bits.pack_canonical _ _, Bits.pack_width _ _⟩
  · obtain ⟨x, listed, rfl⟩ := List.mem_map.mp (List.mem_reverse.mp member)
    exact length x listed
  · refine List.pairwise_reverse.mpr (List.pairwise_map.mpr (ascending.imp_of_mem fun {x y} _ inY less => ?_))
    exact Bits.compare_pack_gt narrow (bound y inY) less

end TruthTable

end Reversible
