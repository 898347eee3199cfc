import Mathlib.Tactic.Linarith
import Mathlib.Tactic.Ring
import Reversible.Proofs.Synthesis.GateLimit

namespace Reversible

theorem hammingDistance_comm (x y : Nat) : hammingDistance x y = hammingDistance y x := by
  unfold hammingDistance
  congr 2
  funext i
  exact bne_comm

theorem hammingDistance_le {n x y : Nat} (left : x < 2 ^ n) (right : y < 2 ^ n) : hammingDistance x y ≤ n := by
  refine length_le_of_lt (List.nodup_range.filter _) fun i differs => ?_
  by_contra high
  have above := Nat.not_lt.mp high
  rw [List.mem_filter, testBit_above left above, testBit_above right above] at differs
  cases differs.2

/-- A bit that both numbers have on top does not add to their distance. -/
theorem hammingDistance_add {n x y : Nat} (left : x < 2 ^ n) (right : y < 2 ^ n) :
    hammingDistance (2 ^ n + x) (2 ^ n + y) = hammingDistance x y := by
  have onTop : ∀ z < 2 ^ n, ∀ i, (2 ^ n + z).testBit i = (decide (n = i) || z.testBit i) := by
    intro z below i
    have split := Nat.two_pow_add_eq_or_of_lt below 1
    rw [Nat.mul_one] at split
    rw [split, Nat.testBit_or, Nat.testBit_two_pow]
  unfold hammingDistance
  congr 2
  funext i
  rw [onTop x left, onTop y right]
  by_cases same : n = i
  · rw [← same, testBit_above left le_rfl, testBit_above right le_rfl, decide_eq_true rfl]
    rfl
  · rw [decide_eq_false same, Bool.false_or, Bool.false_or]

/-- The number of bits below the leading ones of an `n`-bit number. Only these can change on the way up from it. -/
def openBits : Nat → Nat → Nat
  | 0, _ => 0
  | n + 1, x => if 2 ^ n ≤ x then openBits n (x - 2 ^ n) else n + 1

theorem hammingDistance_le_openBits {n x y : Nat} (ordered : x ≤ y) (bound : y < 2 ^ n) :
    hammingDistance x y ≤ openBits n x := by
  induction n generalizing x y with
  | zero => exact hammingDistance_le (ordered.trans_lt bound) bound
  | succ n ih =>
    unfold openBits
    rw [Nat.pow_succ] at bound
    split
    · rename_i leading
      have inside : y - 2 ^ n < 2 ^ n := by omega
      have rest := ih (Nat.sub_le_sub_right ordered (2 ^ n)) inside
      have lower : x - 2 ^ n < 2 ^ n := by omega
      have same := hammingDistance_add lower inside
      rw [Nat.add_sub_cancel' leading, Nat.add_sub_cancel' (leading.trans ordered)] at same
      rwa [same]
    · exact hammingDistance_le (n := n + 1) (by omega) (by omega)

/-- Half of the rows have an open bit on top, and the others are the rows of one line less. -/
theorem sum_openBits (n : Nat) : ((List.range (2 ^ n)).map (openBits n)).sum + 2 ^ n = n * 2 ^ n + 1 := by
  induction n with
  | zero => rfl
  | succ n ih =>
    have low : (List.range (2 ^ n)).map (openBits (n + 1)) = List.replicate (2 ^ n) (n + 1) := by
      refine List.eq_replicate_iff.mpr ⟨by rw [List.length_map, List.length_range], fun k member => ?_⟩
      obtain ⟨x, inside, rfl⟩ := List.mem_map.mp member
      exact if_neg (Nat.not_le.mpr (List.mem_range.mp inside))
    have high : ((List.range (2 ^ n)).map (2 ^ n + ·)).map (openBits (n + 1)) = (List.range (2 ^ n)).map (openBits n) := by
      rw [List.map_map]
      refine List.map_congr_left fun x _ => ?_
      rw [Function.comp_apply, openBits, if_pos (Nat.le_add_right _ _), Nat.add_sub_cancel_left]
    rw [pow_succ, Nat.mul_two, List.range_add, List.map_append, low, high, List.sum_append, List.sum_replicate_nat]
    calc 2 ^ n * (n + 1) + ((List.range (2 ^ n)).map (openBits n)).sum + (2 ^ n + 2 ^ n)
        = 2 ^ n * (n + 1) + 2 ^ n + (((List.range (2 ^ n)).map (openBits n)).sum + 2 ^ n) := by ring
      _ = 2 ^ n * (n + 1) + 2 ^ n + (n * 2 ^ n + 1) := by rw [ih]
      _ = (n + 1) * (2 ^ n + 2 ^ n) + 1 := by ring

namespace Transformation

open Progress

variable {s : Transformation} {n x count : Nat} {perm : Array Nat} {p q : Progress}

/-- Both ends of a row that is still open are above it, so the row takes no more gates than it has open bits. -/
theorem fixRow_adds (reaches : Reaches n perm x p) (inside : x < 2 ^ n) (open' : p.output x ≠ x)
    (run : s.fixRow p x (p.output x) = .ok q) : q.gates.length ≤ p.gates.length + openBits n x := by
  rcases fixRow_cases run with rfl | ⟨source, -, found, -, placed⟩
  · have above := reaches.lt_of_getD_ne inside open'
    have distance := hammingDistance_le_openBits above.le (reaches.bijective.mapsTo inside)
    rw [p.length_behind, length_rowGates, hammingDistance_comm]
    exact Nat.add_le_add_left distance _
  · obtain ⟨other, same, bound, value⟩ := reaches.source_exists inside
    obtain rfl := Option.some.inj (found.symm.trans same)
    have above := reaches.lt_of_getD_eq open' value
    rw [length_inFront placed, length_rowGates]
    exact Nat.add_le_add_left (hammingDistance_le_openBits above.le bound) _

theorem fixRows_adds (width : n ≤ 63) (reaches : Reaches n perm x p) (room : x + count ≤ 2 ^ n)
    (run : s.fixRows p (List.range' x count) = .ok (.ok q)) :
    q.gates.length ≤ p.gates.length + ((List.range' x count).map (openBits n)).sum := by
  induction count generalizing x p with
  | zero =>
    cases run
    exact Nat.le_add_right _ _
  | succ count ih =>
    have inside : x < 2 ^ n := by omega
    rw [List.range'_succ] at run ⊢
    rw [List.map_cons, List.sum_cons]
    rcases (fixRows_cons_cases run).2 with ⟨done, later⟩ | ⟨open', next, step, -, later⟩
    · have rest := ih (reaches.pass done) (by omega) later
      omega
    · obtain ⟨other, same, reached⟩ := fixRow_reaches s width reaches inside open'
      obtain rfl := Except.ok.inj (step.symm.trans same)
      have first := fixRow_adds reaches inside open' step
      have rest := ih reached (by omega) later
      omega

/-- Without a limit every permutation of the assignments to `n` lines gets a circuit of at most `(n - 1) * 2 ^ n + 1` gates. -/
theorem permutation_size_le (s : Transformation) (unlimited : s.gateLimit = none) (width : n ≤ 63)
    (permutes : IsPermutation n perm) :
    ∃ c, s.permutation n perm = .ok (.ok c) ∧ (c.size : Int) ≤ ((n : Int) - 1) * 2 ^ n + 1 := by
  obtain ⟨result, run, -, finishes⟩ := permutation_spec s width permutes
  obtain ⟨c, rfl⟩ := finishes unlimited
  refine ⟨c, run, ?_⟩
  obtain ⟨-, -, q, fixes, built⟩ := permutation_inv run
  rw [Nat.one_shiftLeft, List.range_eq_range'] at fixes
  have adds := fixRows_adds width (reaches_start permutes) (Nat.zero_add _).le fixes
  have total := sum_openBits n
  rw [List.range_eq_range'] at total
  cases Circuit.of_ofGates built
  change q.gates.length ≤ 0 + _ at adds
  change ((q.gates.length : Nat) : Int) ≤ _
  have bound : q.gates.length + 2 ^ n ≤ n * 2 ^ n + 1 := by omega
  have whole : ((q.gates.length + 2 ^ n : Nat) : Int) ≤ ((n * 2 ^ n + 1 : Nat) : Int) := Int.ofNat_le.mpr bound
  push_cast at whole
  linarith

/-- A permutation that takes as many gates as two lines allow, whether or not they may stand in front of it. -/
def extremal : Array Nat := #[3, 1, 2, 0]

theorem permutation_size_le_extremal : ({} : Transformation).gateLimit = none ∧ 2 ≤ 63 ∧ IsPermutation 2 extremal ∧
    ∃ c, ({} : Transformation).permutation 2 extremal = .ok (.ok c) ∧ c.size = 5 ∧
      (c.size : Int) ≤ (((2 : Nat) : Int) - 1) * 2 ^ 2 + 1 := by
  have permutes : IsPermutation 2 extremal := by
    unfold IsPermutation
    decide
  have sizes : (({} : Transformation).permutation 2 extremal).map (·.toOption.map Circuit.size) = .ok (some 5) := by
    decide +kernel
  obtain ⟨c, run, bound⟩ := permutation_size_le {} rfl (by decide) permutes
  rw [run] at sizes
  exact ⟨rfl, by decide, permutes, c, run, Option.some.inj (Except.ok.inj sizes), bound⟩

end Transformation

end Reversible
