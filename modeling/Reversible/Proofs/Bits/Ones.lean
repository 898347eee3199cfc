import Mathlib.Data.Nat.Bitwise
import Reversible.NatSet
import Reversible.Proofs.Packing

namespace Reversible.Bits

/-- Less one, the bits up to the lowest one are inverted. -/
theorem testBit_and_pred {n low : Nat} (one : n.testBit low = true) (lowest : ∀ i < low, n.testBit i = false) (i : Nat) :
    (n &&& (n - 1)).testBit i = (n.testBit i && i != low) := by
  induction low generalizing n i with
  | zero =>
    have odd : n % 2 = 1 := by simpa using one
    cases i with
    | zero =>
      rw [Nat.testBit_and, Nat.testBit_zero, Nat.testBit_zero, show (n - 1) % 2 = 0 by omega]
      simp
    | succ i =>
      rw [Nat.testBit_and, Nat.testBit_succ, Nat.testBit_succ, show (n - 1) / 2 = n / 2 by omega]
      simp
  | succ low ih =>
    have even : n % 2 = 0 := by simpa using lowest 0 (Nat.succ_pos low)
    have half := ih (n := n / 2) (by rwa [← Nat.testBit_succ]) fun j less => by
      rw [← Nat.testBit_succ]
      exact lowest (j + 1) (Nat.succ_lt_succ less)
    have some : n ≠ 0 := by
      rintro rfl
      simp at one
    cases i with
    | zero =>
      rw [Nat.testBit_and, Nat.testBit_zero, even]
      simp
    | succ i =>
      have step := half i
      rw [Nat.testBit_and] at step ⊢
      rw [Nat.testBit_succ, Nat.testBit_succ, show (n - 1) / 2 = n / 2 - 1 by omega, step]
      simp

theorem wordOnes_spec (w : UInt64) :
    (wordOnes w).Pairwise (· < ·) ∧ ∀ i, i ∈ wordOnes w ↔ w.toNat.testBit i = true := by
  fun_induction wordOnes w with
  | case1 => simp
  | case2 w some ih =>
    obtain ⟨sorted, members⟩ := ih
    have nonzero : w.toBitVec ≠ 0#64 := fun none => some (UInt64.toBitVec_inj.mp none)
    have one : w.toNat.testBit w.toBitVec.ctz.toNat = true := BitVec.getLsbD_true_ctz_of_ne_zero nonzero
    have lowest : ∀ i < w.toBitVec.ctz.toNat, w.toNat.testBit i = false :=
      fun i less => BitVec.getLsbD_false_of_lt_ctz less
    have positive : 1 ≤ w := by
      rw [UInt64.le_iff_toNat_le, UInt64.toNat_one]
      exact Nat.pos_of_ne_zero fun none => some (UInt64.toNat_inj.mp none)
    have rest : ∀ i, i ∈ wordOnes (w &&& (w - 1)) ↔ w.toNat.testBit i = true ∧ i ≠ w.toBitVec.ctz.toNat := by
      intro i
      rw [members, UInt64.toNat_and, UInt64.toNat_sub_of_le _ _ positive, UInt64.toNat_one,
        testBit_and_pred one lowest, Bool.and_eq_true, bne_iff_ne]
    refine ⟨List.pairwise_cons.mpr ⟨fun i later => ?_, sorted⟩, fun i => ?_⟩
    · obtain ⟨bit, different⟩ := (rest i).mp later
      by_contra notAbove
      rw [lowest i (by omega)] at bit
      cases bit
    · rw [List.mem_cons, rest]
      by_cases same : i = w.toBitVec.ctz.toNat
      · simp [same, one]
      · simp [same]

theorem lt_of_mem_wordOnes {w : UInt64} {i : Nat} (member : i ∈ wordOnes w) : i < 64 := by
  by_contra above
  have bit := ((wordOnes_spec w).2 i).mp member
  rw [testBit_above w.toNat_lt (Nat.not_lt.mp above)] at bit
  cases bit

/-- The ones of a word, counted position by position. -/
theorem cpopNatRec_eq {n : Nat} (x : BitVec n) (k count : Nat) :
    x.cpopNatRec k count = count + (List.range k).countP (x.getLsbD ·) := by
  induction k generalizing count with
  | zero => rfl
  | succ k ih =>
    have last : (x.getLsbD k).toNat = [k].countP (x.getLsbD ·) := by
      cases bit : x.getLsbD k <;> simp [bit]
    rw [BitVec.cpopNatRec_succ, ih, List.range_succ, List.countP_append, last]
    omega

theorem toNat_cpop (w : UInt64) : w.toBitVec.cpop.toNat = (wordOnes w).length := by
  have sorted : ((List.range 64).filter (w.toNat.testBit ·)).Pairwise (· < ·) := List.pairwise_lt_range.filter _
  have listed : wordOnes w = (List.range 64).filter (w.toNat.testBit ·) := by
    refine NatSet.ext_toList (wordOnes_spec w).1 sorted fun i => ?_
    rw [List.mem_filter, List.mem_range, ← (wordOnes_spec w).2]
    exact ⟨fun member => ⟨lt_of_mem_wordOnes member, member⟩, And.right⟩
  have count : w.toBitVec.cpopNatRec 64 0 = (wordOnes w).length := by
    rw [cpopNatRec_eq, Nat.zero_add, listed, ← List.countP_eq_length_filter]
    rfl
  have few : (wordOnes w).length ≤ 64 := by
    rw [listed]
    exact (List.length_filter_le _ _).trans (by rw [List.length_range])
  unfold BitVec.cpop
  rw [count, BitVec.toNat_ofNat, Nat.mod_eq_of_lt (by omega)]

theorem mem_ones {b : Bits} {i : Nat} : i ∈ b.ones ↔ b.testBit i = true := by
  have position : ∀ j k, k < 64 → (64 * j + k) / 64 = j ∧ (64 * j + k) % 64 = k := by omega
  rw [testBit_eq, List.getD_eq_getElem?_getD]
  simp only [ones, List.mem_flatMap, List.mem_map, Prod.exists, List.mem_zipIdx_iff_getElem?]
  constructor
  · rintro ⟨w, j, stored, k, member, rfl⟩
    obtain ⟨word, bit⟩ := position j k (lt_of_mem_wordOnes member)
    rw [word, bit, stored]
    exact ((wordOnes_spec w).2 k).mp member
  · intro bit
    cases stored : b.words[i / 64]? with
    | none =>
      rw [stored] at bit
      simp at bit
    | some w =>
      rw [stored] at bit
      exact ⟨w, i / 64, stored, i % 64, ((wordOnes_spec w).2 _).mpr bit, by omega⟩

theorem ones_sorted (b : Bits) : b.ones.Pairwise (· < ·) := by
  have positions : b.words.zipIdx.Pairwise fun earlier later => earlier.2 < later.2 := by
    rw [← List.pairwise_map (f := Prod.snd), List.zipIdx_map_snd]
    exact List.pairwise_lt_range'
  refine List.pairwise_flatMap.mpr ⟨fun word _ => ?_, positions.imp fun {earlier later} before => ?_⟩
  · refine List.pairwise_map.mpr ((wordOnes_spec word.1).1.imp fun less => ?_)
    omega
  · simp only [List.mem_map]
    rintro _ ⟨i, inEarlier, rfl⟩ _ ⟨j, _, rfl⟩
    have low := lt_of_mem_wordOnes inEarlier
    omega

theorem length_flatMap_wordOnes (words : List UInt64) (k : Nat) :
    ((words.zipIdx k).flatMap fun (w, j) => (wordOnes w).map (64 * j + ·)).length =
      words.foldr (fun w count => w.toBitVec.cpop.toNat + count) 0 := by
  induction words generalizing k with
  | nil => rfl
  | cons w rest ih =>
    rw [List.zipIdx_cons, List.flatMap_cons, List.length_append, List.length_map, ih, List.foldr_cons, toNat_cpop]

theorem popcount_eq (b : Bits) : b.popcount = b.ones.length := (length_flatMap_wordOnes b.words 0).symm

end Reversible.Bits
