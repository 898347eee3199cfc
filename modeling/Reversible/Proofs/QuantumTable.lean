import Mathlib.Order.Monotone.Basic
import Mathlib.Tactic.IntervalCases
import Reversible.Cost
import Reversible.Proofs.Packing

namespace Reversible.CostModel

/-- The quantum cost of a Toffoli gate with at least five controls that has a free line, but not enough for all
controls but two. -/
def fewFreeCost : Nat → Nat
  | 5 => 52
  | 6 => 80
  | 7 => 100
  | 8 => 128
  | 9 => 152
  | controls => 24 * controls - 87

/-- The quantum cost of a Toffoli gate as a number of any size. What the table has for enough free lines and for none
are values of the same two formulas that hold from ten controls on. -/
def exactToffoli (controls free : Nat) : Nat :=
  if 4 ≤ controls ∧ controls - 2 ≤ free then 12 * controls - 22
  else if 5 ≤ controls ∧ 1 ≤ free then fewFreeCost controls
  else max 1 (2 ^ (controls + 1) - 3)

variable {controls free more : Nat}

theorem fewFreeCost_of_ten (ten : 10 ≤ controls) : fewFreeCost controls = 24 * controls - 87 := by
  obtain ⟨k, rfl⟩ := Nat.exists_eq_add_of_le' ten
  rfl

theorem mul_le_two_pow_succ (ten : 10 ≤ controls) : 24 * controls ≤ 2 ^ (controls + 1) := by
  induction controls, ten using Nat.le_induction with
  | base => decide
  | succ k ten ih =>
    rw [Nat.pow_succ]
    omega

/-- From five controls on the three columns of the table ascend from left to right. -/
theorem columns_ascend (five : 5 ≤ controls) :
    12 * controls - 22 ≤ fewFreeCost controls ∧ fewFreeCost controls ≤ 2 ^ (controls + 1) - 3 := by
  by_cases ten : 10 ≤ controls
  · have large := mul_le_two_pow_succ ten
    rw [fewFreeCost_of_ten ten]
    omega
  · have small : controls < 10 := Nat.not_le.mp ten
    interval_cases controls <;> decide

theorem fewFreeCost_le_succ (five : 5 ≤ controls) : fewFreeCost controls ≤ fewFreeCost (controls + 1) := by
  by_cases ten : 10 ≤ controls
  · rw [fewFreeCost_of_ten ten, fewFreeCost_of_ten (Nat.le_succ_of_le ten)]
    omega
  · have small : controls < 10 := Nat.not_le.mp ten
    interval_cases controls <;> decide

theorem one_le_exactToffoli (controls free : Nat) : 1 ≤ exactToffoli controls free := by
  unfold exactToffoli
  split_ifs with many few
  · omega
  · have ascend := columns_ascend few.1
    omega
  · exact Nat.le_max_left _ _

theorem exactToffoli_antitone (controls : Nat) : Antitone (exactToffoli controls) := by
  intro free more fewer
  unfold exactToffoli
  rcases Nat.lt_or_ge controls 5 with four | five
  · have power : 4 ≤ controls → 2 ^ (controls + 1) = 32 := fun least => by
      obtain rfl : controls = 4 := by omega
      rfl
    split_ifs <;> omega
  · have ascend := columns_ascend five
    split_ifs <;> omega

theorem exactToffoli_of_enough (four : 4 ≤ controls) (enough : controls - 2 ≤ free) :
    exactToffoli controls free = 12 * controls - 22 := if_pos ⟨four, enough⟩

theorem exactToffoli_of_few (five : 5 ≤ controls) (some : 1 ≤ free) (few : free < controls - 2) :
    exactToffoli controls free = fewFreeCost controls := by
  unfold exactToffoli
  rw [if_neg (by omega), if_pos ⟨five, some⟩]

theorem exactToffoli_of_none (five : 5 ≤ controls) : exactToffoli controls 0 = 2 ^ (controls + 1) - 3 := by
  have ascend := columns_ascend five
  unfold exactToffoli
  rw [if_neg (by omega), if_neg (by omega), Nat.max_eq_right (by omega)]

theorem exactToffoli_le_succ (controls free : Nat) : exactToffoli controls free ≤ exactToffoli (controls + 1) free := by
  rcases Nat.lt_or_ge controls 5 with four | five
  · have first : fewFreeCost (4 + 1) = 52 := rfl
    unfold exactToffoli
    interval_cases controls <;> split_ifs <;> omega
  have next : 5 ≤ controls + 1 := Nat.le_succ_of_le five
  have ascend := columns_ascend five
  have few := fewFreeCost_le_succ five
  rcases Nat.eq_zero_or_pos free with rfl | some
  · rw [exactToffoli_of_none five, exactToffoli_of_none next]
    exact Nat.sub_le_sub_right (Nat.pow_le_pow_right Nat.two_pos (Nat.le_succ _)) 3
  rcases Nat.lt_or_ge free (controls - 2) with less | enough
  · rw [exactToffoli_of_few five some less, exactToffoli_of_few next some (by omega)]
    exact few
  rw [exactToffoli_of_enough (Nat.le_of_succ_le five) enough]
  rcases Nat.lt_or_ge free (controls + 1 - 2) with less | enoughNext
  · rw [exactToffoli_of_few next some less]
    exact ascend.1.trans few
  · rw [exactToffoli_of_enough (Nat.le_of_succ_le next) enoughNext]
    omega

theorem exactToffoli_monotone (free : Nat) : Monotone (exactToffoli · free) :=
  monotone_nat_of_le_succ fun controls => exactToffoli_le_succ controls free

/-- A cost as a word. What a gate costs that has no free line is three less than a power of two, and where a word
cannot hold the power, the largest word stands for the cost. For 63 controls it does so as well, although a word can
hold the exact cost `2 ^ 64 - 3`. -/
def saturated (n : Nat) : UInt64 := if n + 3 < UInt64.size then n.toUInt64 else UInt64.ofNat (UInt64.size - 1)

theorem toNat_saturated (n : Nat) :
    (saturated n).toNat = if n + 3 < UInt64.size then n else UInt64.size - 1 := by
  unfold saturated
  split_ifs with fits
  · rw [Nat.toUInt64_eq, UInt64.toNat_ofNat', Nat.mod_eq_of_lt (show n < 2 ^ 64 from Nat.lt_of_add_right_lt fits)]
  · rfl

theorem saturated_monotone {n k : Nat} (less : n ≤ k) : saturated n ≤ saturated k := by
  rw [UInt64.le_iff_toNat_le, toNat_saturated, toNat_saturated]
  split_ifs <;> omega

theorem one_le_saturated {n : Nat} (some : 1 ≤ n) : 1 ≤ saturated n := by
  rw [UInt64.le_iff_toNat_le, toNat_saturated, UInt64.toNat_one]
  split_ifs
  · exact some
  · decide

/-- Without a free line the controls are counted in 32 bits. The count serves if it is right, or if it is wrong and
still too large for the power to fit a word. -/
def Counted (controls free : Nat) : Prop :=
  free = 0 → controls < 63 ∨ 63 ≤ controls % UInt32.size ∧ controls % UInt32.size + 1 < UInt32.size

theorem counted_of_lt (word : controls + 1 < UInt32.size) (free : Nat) : Counted controls free := by
  intro _
  rw [Nat.mod_eq_of_lt (Nat.lt_of_succ_lt word)]
  omega

theorem Counted.antitone (counted : Counted controls free) (fewer : free ≤ more) : Counted controls more := by
  intro none
  exact counted (Nat.eq_zero_of_le_zero (none ▸ fewer))

theorem toffoli_of_table (table : controls < 10) (free : Nat) :
    toffoli controls free = .ok (saturated (exactToffoli controls free)) := by
  rcases Nat.lt_or_ge controls 4 with three | four
  · unfold exactToffoli
    rw [if_neg (by omega), if_neg (by omega)]
    interval_cases controls <;> rfl
  by_cases enough : controls - 2 ≤ free
  · rw [exactToffoli_of_enough four enough]
    interval_cases controls <;> exact congrArg Except.ok (if_pos enough)
  by_cases some : 5 ≤ controls ∧ 1 ≤ free
  · obtain ⟨five, one⟩ := some
    rw [exactToffoli_of_few five one (Nat.not_le.mp enough)]
    interval_cases controls <;> exact congrArg Except.ok ((if_neg enough).trans (if_pos one))
  · unfold exactToffoli
    rw [if_neg (enough ·.2), if_neg some]
    interval_cases controls
    · exact congrArg Except.ok (if_neg enough)
    all_goals exact congrArg Except.ok ((if_neg enough).trans (if_neg (by omega)))

theorem toffoli_of_many (ten : 10 ≤ controls) (free : Nat) : toffoli controls free = manyControls controls free := by
  obtain ⟨k, rfl⟩ := Nat.exists_eq_add_of_le' ten
  rfl

theorem manyControls_of_free (ten : 10 ≤ controls) (bound : controls < 2 ^ 53) (some : 1 ≤ free) :
    manyControls controls free = .ok (saturated (exactToffoli controls free)) := by
  have word : 24 * controls + 3 < UInt64.size := by
    simp only [UInt64.size]
    omega
  unfold manyControls
  by_cases enough : controls - 2 ≤ free
  · rw [if_pos enough, require_of (by omega), ok_bind, exactToffoli_of_enough (by omega) enough, saturated,
      if_pos (by omega)]
    rfl
  · rw [if_neg enough, if_pos some, require_of (by omega), ok_bind,
      exactToffoli_of_few (by omega) some (by omega), fewFreeCost_of_ten ten, saturated, if_pos (by omega)]
    rfl

/-- Without a free line all depends on the count in 32 bits. -/
theorem manyControls_of_none (ten : 10 ≤ controls) : manyControls controls 0 = (do
    require (controls % UInt32.size + 1 < UInt32.size) .overflow
    if 64 ≤ controls % UInt32.size + 1 then return UInt64.ofNat (UInt64.size - 1)
    require (3 ≤ 1 <<< (controls % UInt32.size + 1)) .overflow
    return ((1 <<< (controls % UInt32.size + 1)) - 3).toUInt64) := by
  unfold manyControls
  rw [if_neg (by omega), if_neg (by omega)]

theorem manyControls_none_of_short (ten : 10 ≤ controls) (short : controls < 63) :
    manyControls controls 0 = .ok (saturated (exactToffoli controls 0)) := by
  have same : controls % UInt32.size = controls := Nat.mod_eq_of_lt (short.trans (by decide))
  have narrow : controls + 1 < UInt32.size := (Nat.succ_lt_succ short).trans (by decide)
  have power : 2 ^ (controls + 1) < UInt64.size := two_pow_lt_word (by omega)
  have large := mul_le_two_pow_succ ten
  rw [manyControls_of_none ten, same, require_of narrow, ok_bind, if_neg (by omega), Nat.one_shiftLeft,
    require_of (by omega), ok_bind, exactToffoli_of_none (by omega), saturated, if_pos (by omega)]
  rfl

theorem manyControls_none_iff (ten : 10 ≤ controls) :
    manyControls controls 0 = .ok (saturated (exactToffoli controls 0)) ↔ Counted controls 0 := by
  rcases Nat.lt_or_ge controls 63 with short | long
  · exact iff_of_true (manyControls_none_of_short ten short) fun _ => Or.inl short
  -- The cost is the largest word, and a power that fits a word stays below it.
  have beyond : UInt64.size ≤ 2 ^ (controls + 1) := Nat.pow_le_pow_right Nat.two_pos (show 64 ≤ controls + 1 by omega)
  have largest : saturated (exactToffoli controls 0) = UInt64.ofNat (UInt64.size - 1) := by
    rw [exactToffoli_of_none (by omega), saturated, if_neg (by omega)]
  have counted : Counted controls 0 ↔ 63 ≤ controls % UInt32.size ∧ controls % UInt32.size + 1 < UInt32.size :=
    ⟨fun counts => (counts rfl).resolve_left (Nat.not_lt.mpr long), fun counts _ => Or.inr counts⟩
  rw [counted, largest, manyControls_of_none ten, require_bind_eq_ok, and_comm]
  refine and_congr_left' ?_
  by_cases wide : 64 ≤ controls % UInt32.size + 1
  · rw [if_pos wide]
    exact iff_of_true rfl (Nat.le_of_succ_le_succ wide)
  · have power : 2 ^ (controls % UInt32.size + 1) < UInt64.size := two_pow_lt_word (Nat.not_le.mp wide)
    rw [if_neg wide, require_bind_eq_ok, Nat.one_shiftLeft]
    refine iff_of_false (fun answer => ?_) (fun less => wide (Nat.succ_le_succ less))
    have value := congrArg UInt64.toNat (Except.ok.inj answer.2)
    rw [Nat.toUInt64_eq, UInt64.toNat_ofNat', Nat.mod_eq_of_lt ((Nat.sub_le _ 3).trans_lt power)] at value
    change 2 ^ (controls % UInt32.size + 1) - 3 = UInt64.size - 1 at value
    omega

theorem toffoli_eq_saturated_iff (bound : controls < 2 ^ 53) :
    toffoli controls free = .ok (saturated (exactToffoli controls free)) ↔ Counted controls free := by
  rcases Nat.lt_or_ge controls 10 with table | ten
  · exact iff_of_true (toffoli_of_table table free) fun _ => Or.inl (by omega)
  rw [toffoli_of_many ten]
  rcases Nat.eq_zero_or_pos free with rfl | some
  · exact manyControls_none_iff ten
  · exact iff_of_true (manyControls_of_free ten bound some) fun none => absurd none (by omega)

/-- A Toffoli gate has the cost of the table and its formulas, as far as a word can hold it and the power it is made
of, exactly if its controls are counted right. Such gates all cost something, no more if there are more free lines,
and no less if there are more controls. -/
theorem toffoli_graded (bound : controls < 2 ^ 53) :
    (toffoli controls free = .ok (saturated (exactToffoli controls free)) ↔ Counted controls free) ∧
    (Counted controls free → ∃ cost, toffoli controls free = .ok cost ∧ 1 ≤ cost ∧
      (∀ more, free ≤ more → ∃ less, toffoli controls more = .ok less ∧ less ≤ cost) ∧
      ∀ more, controls ≤ more → more < 2 ^ 53 → Counted more free →
        ∃ dearer, toffoli more free = .ok dearer ∧ cost ≤ dearer) := by
  refine ⟨toffoli_eq_saturated_iff bound, fun counted => ?_⟩
  refine ⟨_, (toffoli_eq_saturated_iff bound).mpr counted, one_le_saturated (one_le_exactToffoli controls free),
    fun more fewer => ?_, fun more fewer moreBound moreCounted => ?_⟩
  · exact ⟨_, (toffoli_eq_saturated_iff bound).mpr (counted.antitone fewer),
      saturated_monotone (exactToffoli_antitone controls fewer)⟩
  · exact ⟨_, (toffoli_eq_saturated_iff moreBound).mpr moreCounted,
      saturated_monotone (exactToffoli_monotone free fewer)⟩

/-- With 62 controls the power still fits a word, and with 63 it does not: then the largest word is the cost, two above
the exact one. -/
theorem toffoli_graded_largest : 62 < 2 ^ 53 ∧ Counted 62 0 ∧ exactToffoli 62 0 = 2 ^ 63 - 3 ∧
    toffoli 62 0 = .ok (saturated (2 ^ 63 - 3)) ∧ ∃ cost, toffoli 62 0 = .ok cost ∧ 1 ≤ cost ∧
      (∀ more, 0 ≤ more → ∃ less, toffoli 62 more = .ok less ∧ less ≤ cost) ∧
      ∃ dearer, toffoli 63 0 = .ok dearer ∧ cost ≤ dearer := by
  have counted : Counted 62 0 := counted_of_lt (by decide) 0
  obtain ⟨priced, graded⟩ := @toffoli_graded 62 0 (by decide)
  obtain ⟨cost, found, some, freer, dearer⟩ := graded counted
  exact ⟨by decide, counted, rfl, priced.mpr counted, cost, found, some, freer,
    dearer 63 (by decide) (by decide) (counted_of_lt (by decide) 0)⟩

/-- `2 ^ 32` controls count as none, and then the power is less than three. One control more makes a gate cheaper
than ten controls do, and cheaper than it is with a free line. -/
theorem toffoli_miscounted : toffoli (2 ^ 32) 0 = .error .overflow ∧ toffoli (2 ^ 32 - 1) 0 = .error .overflow ∧
    toffoli (2 ^ 32 + 1) 0 = .ok 1 ∧ toffoli (2 ^ 32 + 1) 1 = .ok 103079215041 ∧ toffoli 10 0 = .ok 2045 := by
  decide

end Reversible.CostModel
