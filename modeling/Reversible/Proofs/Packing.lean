import Mathlib.Data.Nat.Bitwise
import Mathlib.Logic.Function.Basic
import Reversible.Bits
import Reversible.Proofs.Checks

namespace Reversible

/-- A value for every line, also for those past the last one of a circuit. -/
abbrev Assignment := Nat → Bool

theorem two_pow_lt_word {n : Nat} (narrow : n < 64) : 2 ^ n < 2 ^ 64 := Nat.pow_lt_pow_right Nat.one_lt_two narrow

theorem testBit_above {n x i : Nat} (small : x < 2 ^ n) (above : n ≤ i) : x.testBit i = false :=
  Nat.testBit_lt_two_pow (small.trans_le (Nat.pow_le_pow_right Nat.two_pos above))

theorem lt_of_one {n x i : Nat} (small : x < 2 ^ n) (one : x.testBit i = true) : i < n :=
  (Nat.pow_lt_pow_iff_right Nat.one_lt_two).mp ((Nat.ge_two_pow_of_testBit one).trans_lt small)

namespace Bits

@[simp] theorem mask_toNat (i : Nat) : (mask i).toNat = 2 ^ (i % 64) := by
  have power : 2 ^ (i % 64) < 2 ^ 64 := two_pow_lt_word (by omega)
  simp only [mask, UInt64.toNat_shiftLeft, Nat.toUInt64_eq, UInt64.toNat_ofNat', UInt64.toNat_one]
  rw [Nat.mod_eq_of_lt (by omega : i % 64 < 2 ^ 64), Nat.mod_mod, Nat.one_shiftLeft, Nat.mod_eq_of_lt power]

theorem word_eq_of_testBit {v w : UInt64} (same : ∀ i < 64, v.toNat.testBit i = w.toNat.testBit i) : v = w := by
  refine UInt64.toNat_inj.mp (Nat.eq_of_testBit_eq fun i => ?_)
  by_cases low : i < 64
  · exact same i low
  · rw [testBit_above v.toNat_lt (by omega), testBit_above w.toNat_lt (by omega)]

theorem testBit_and_mask (w : UInt64) (i : Nat) : (w &&& mask i != 0) = w.toNat.testBit (i % 64) := by
  have zero : (w &&& mask i = 0) ↔ w.toNat.testBit (i % 64) = false := by
    rw [← UInt64.toNat_inj, UInt64.toNat_and, mask_toNat, Nat.and_two_pow]
    cases w.toNat.testBit (i % 64) <;> simp
  cases bit : w.toNat.testBit (i % 64) with
  | false => simp [zero.mpr bit]
  | true =>
    have nonzero : w &&& mask i ≠ 0 := fun equal => by simp [zero.mp equal] at bit
    simp [nonzero]

theorem testBit_eq (b : Bits) (i : Nat) : b.testBit i = (b.words.getD (i / 64) 0).toNat.testBit (i % 64) :=
  testBit_and_mask _ i

/-- The words are as many as the width needs, and nothing is stored at or above the width. -/
def Canonical (b : Bits) : Prop := b.words.length = (b.width + 63) / 64 ∧ ∀ i, b.width ≤ i → b.testBit i = false

theorem Canonical.word_exists {b : Bits} (canonical : b.Canonical) {i : Nat} (inside : i < b.width) :
    i / 64 < b.words.length := by
  have := canonical.1
  omega

theorem ext_testBit {a b : Bits} (left : a.Canonical) (right : b.Canonical) (width : a.width = b.width)
    (same : ∀ i < a.width, a.testBit i = b.testBit i) : a = b := by
  have every : ∀ i, a.testBit i = b.testBit i := fun i => by
    by_cases inside : i < a.width
    · exact same i inside
    · rw [left.2 i (by omega), right.2 i (by omega)]
  have lengths : a.words.length = b.words.length := by rw [left.1, right.1, width]
  have words : a.words = b.words := by
    refine List.ext_getElem lengths fun j inA inB => word_eq_of_testBit fun i low => ?_
    have bit := every (64 * j + i)
    rw [testBit_eq, testBit_eq, show (64 * j + i) / 64 = j by omega, show (64 * j + i) % 64 = i by omega] at bit
    simpa [List.getD_eq_getElem?_getD, List.getElem?_eq_getElem inA, List.getElem?_eq_getElem inB] using bit
  cases a
  cases b
  simp_all

/-- A change of a word that changes bit `i` of the set as `new` says and no other bit. -/
def EditsBit (i : Nat) (new : Bool → Bool) (f : UInt64 → UInt64) : Prop :=
  ∀ w k, k < 64 → (f w).toNat.testBit k = if k = i % 64 then new (w.toNat.testBit k) else w.toNat.testBit k

theorem editsBit_or_mask (i : Nat) : EditsBit i (fun _ => true) (· ||| mask i) := by
  intro w k _
  simp only [UInt64.toNat_or, mask_toNat, Nat.testBit_or, Nat.testBit_two_pow]
  by_cases same : k = i % 64
  · simp [same]
  · simp [same, Ne.symm same]

theorem editsBit_and_not_mask (i : Nat) : EditsBit i (fun _ => false) (· &&& ~~~(mask i)) := by
  intro w k low
  have power : 2 ^ (i % 64) < 2 ^ 64 := two_pow_lt_word (by omega)
  have others : UInt64.size - 1 - 2 ^ (i % 64) = 2 ^ 64 - (2 ^ (i % 64) + 1) := by
    simp only [UInt64.size]
    omega
  simp only [UInt64.toNat_and, UInt64.toNat_not, mask_toNat, others, Nat.testBit_and,
    Nat.testBit_two_pow_sub_succ power, Nat.testBit_two_pow]
  by_cases same : k = i % 64
  · simp [same]
  · simp [same, Ne.symm same, low]

theorem editsBit_xor_mask (i : Nat) : EditsBit i (!·) (· ^^^ mask i) := by
  intro w k _
  simp only [UInt64.toNat_xor, mask_toNat, Nat.testBit_xor, Nat.testBit_two_pow]
  by_cases same : k = i % 64
  · simp [same]
  · simp [same, Ne.symm same]

theorem testBit_modify {b : Bits} {i : Nat} {new : Bool → Bool} {f : UInt64 → UInt64} (edits : EditsBit i new f)
    (stored : i / 64 < b.words.length) (j : Nat) :
    ({ b with words := b.words.modify (i / 64) f } : Bits).testBit j =
      if j = i then new (b.testBit j) else b.testBit j := by
  rw [testBit_eq, testBit_eq]
  simp only [List.getD_eq_getElem?_getD, List.getElem?_modify]
  by_cases same : i / 64 = j / 64
  · have position : j % 64 = i % 64 ↔ j = i := by omega
    rw [← same, List.getElem?_eq_getElem stored]
    simp only [Option.map_eq_map, Option.map_some, Option.getD_some, if_true]
    rw [edits _ _ (by omega)]
    simp only [position]
  · have different : j ≠ i := fun equal => same (by rw [equal])
    simp [different, same]

theorem Canonical.modify {b : Bits} (canonical : b.Canonical) {i : Nat} {new : Bool → Bool} {f : UInt64 → UInt64}
    (edits : EditsBit i new f) (inside : i < b.width) :
    ({ b with words := b.words.modify (i / 64) f } : Bits).Canonical := by
  refine ⟨by simpa using canonical.1, fun j above => ?_⟩
  have different : j ≠ i := by
    simp only at above
    omega
  rw [testBit_modify edits (canonical.word_exists inside), if_neg different]
  exact canonical.2 j above

theorem put_edits (b : Bits) (i : Nat) (value : Bool) :
    ∃ f, EditsBit i (fun _ => value) f ∧ b.put i value = { b with words := b.words.modify (i / 64) f } := by
  cases value with
  | true => exact ⟨_, editsBit_or_mask i, rfl⟩
  | false => exact ⟨_, editsBit_and_not_mask i, rfl⟩

theorem Canonical.put {b : Bits} (canonical : b.Canonical) {i : Nat} (inside : i < b.width) (value : Bool) :
    (b.put i value).Canonical := by
  obtain ⟨f, edits, equal⟩ := put_edits b i value
  rw [equal]
  exact canonical.modify edits inside

theorem testBit_put {b : Bits} (canonical : b.Canonical) {i : Nat} (inside : i < b.width) (value : Bool) (j : Nat) :
    (b.put i value).testBit j = if j = i then value else b.testBit j := by
  obtain ⟨f, edits, equal⟩ := put_edits b i value
  rw [equal, testBit_modify edits (canonical.word_exists inside)]

@[simp] theorem zero_width (n : Nat) : (zero n).width = n := rfl

@[simp] theorem testBit_zero (n i : Nat) : (zero n).testBit i = false := by
  rw [testBit_eq]
  simp only [zero, List.getD_eq_getElem?_getD, List.getElem?_replicate]
  split <;> simp

theorem zero_canonical (n : Nat) : (zero n).Canonical := ⟨by simp [zero], fun i _ => testBit_zero n i⟩

/-- Storing a list bit by bit from position `k` on. -/
theorem foldl_put {b : Bits} (bits : List Bool) (k : Nat) (canonical : b.Canonical)
    (room : k + bits.length ≤ b.width) :
    let stored := (bits.zipIdx k).foldl (fun b (value, i) => b.put i value) b
    stored.Canonical ∧ stored.width = b.width ∧
      ∀ i, stored.testBit i = if k ≤ i ∧ i < k + bits.length then bits.getD (i - k) false else b.testBit i := by
  induction bits generalizing k b with
  | nil =>
    refine ⟨canonical, rfl, fun i => ?_⟩
    rw [if_neg (by simp only [List.length_nil]; omega)]
    rfl
  | cons bit rest ih =>
    simp only [List.length_cons] at room
    have inside : k < b.width := by omega
    obtain ⟨keptForm, keptWidth, bits⟩ :=
      ih (k + 1) (canonical.put inside bit) (by change k + 1 + rest.length ≤ b.width; omega)
    refine ⟨keptForm, keptWidth, fun i => ?_⟩
    simp only [List.zipIdx_cons, List.foldl_cons, List.length_cons]
    rw [bits i, testBit_put canonical inside]
    by_cases here : i = k
    · subst here
      rw [if_neg (by omega), if_pos rfl, if_pos (by omega), Nat.sub_self]
      rfl
    · by_cases later : k + 1 ≤ i ∧ i < k + 1 + rest.length
      · rw [if_pos later, if_pos (by omega), show i - k = (i - (k + 1)) + 1 by omega]
        rfl
      · rw [if_neg later, if_neg here, if_neg (by omega)]

@[simp] theorem ofBools_width (bits : List Bool) : (ofBools bits).width = bits.length :=
  (foldl_put bits 0 (zero_canonical bits.length) (by simp)).2.1

theorem ofBools_canonical (bits : List Bool) : (ofBools bits).Canonical :=
  (foldl_put bits 0 (zero_canonical bits.length) (by simp)).1

@[simp] theorem testBit_ofBools (bits : List Bool) (i : Nat) : (ofBools bits).testBit i = bits.getD i false := by
  have stored := (foldl_put bits 0 (zero_canonical bits.length) (by simp)).2.2 i
  refine stored.trans ?_
  split
  · rfl
  · rw [testBit_zero, List.getD_eq_default _ _ (by omega)]

/-- The values that an assignment gives to the first `n` lines. -/
def pack (n : Nat) (σ : Assignment) : Bits := ofBools ((List.range n).map σ)

@[simp] theorem pack_width (n : Nat) (σ : Assignment) : (pack n σ).width = n := by simp [pack]

theorem pack_canonical (n : Nat) (σ : Assignment) : (pack n σ).Canonical := ofBools_canonical _

@[simp] theorem testBit_pack (n : Nat) (σ : Assignment) (i : Nat) :
    (pack n σ).testBit i = (decide (i < n) && σ i) := by
  by_cases inside : i < n <;> simp [pack, inside]

theorem testBit_pack_of_lt {n i : Nat} {σ : Assignment} (inside : i < n) : (pack n σ).testBit i = σ i := by
  rw [testBit_pack, decide_eq_true inside, Bool.true_and]

theorem eq_pack {b : Bits} (canonical : b.Canonical) (σ : Assignment) (same : ∀ i < b.width, b.testBit i = σ i) :
    b = pack b.width σ := by
  refine ext_testBit canonical (pack_canonical _ _) (by simp) fun i inside => ?_
  rw [testBit_pack, same i inside]
  simp [inside]

theorem Canonical.eq_pack {b : Bits} (canonical : b.Canonical) : b = pack b.width b.testBit :=
  Bits.eq_pack canonical _ fun _ _ => rfl

theorem pack_congr {n : Nat} {σ τ : Assignment} (same : ∀ i < n, σ i = τ i) : pack n σ = pack n τ := by
  unfold pack
  congr 1
  exact List.map_congr_left fun i member => same i (List.mem_range.mp member)

theorem ofBools_eq_pack (bits : List Bool) : ofBools bits = pack bits.length (bits.getD · false) := by
  have packed := eq_pack (ofBools_canonical bits) (bits.getD · false) fun i _ => testBit_ofBools bits i
  rwa [ofBools_width] at packed

@[simp] theorem toBools_pack (n : Nat) (σ : Assignment) : (pack n σ).toBools = (List.range n).map σ := by
  unfold toBools
  rw [pack_width]
  exact List.map_congr_left fun i member => testBit_pack_of_lt (List.mem_range.mp member)

theorem modify_pack {n i : Nat} {σ : Assignment} {new : Bool → Bool} {f : UInt64 → UInt64}
    (edits : EditsBit i new f) (inside : i < n) :
    { pack n σ with words := (pack n σ).words.modify (i / 64) f } = pack n (Function.update σ i (new (σ i))) := by
  have within : i < (pack n σ).width := by simpa using inside
  have packed := eq_pack ((pack_canonical n σ).modify edits within) (Function.update σ i (new (σ i)))
    fun j below => by
      have below : j < n := by simpa using below
      rw [testBit_modify edits ((pack_canonical n σ).word_exists within), testBit_pack, Function.update_apply]
      by_cases same : j = i <;> simp [same, below, inside]
  simpa using packed

theorem get_pack {n i : Nat} {σ : Assignment} (inside : i < n) : (pack n σ).get i = .ok (σ i) := by
  unfold get
  rw [require_of (by simpa using inside)]
  simp [inside]

theorem flip_pack {n i : Nat} {σ : Assignment} (inside : i < n) :
    (pack n σ).flip i = .ok (pack n (Function.update σ i (!σ i))) := by
  unfold flip
  rw [require_of (by simpa using inside), ok_bind, modify_pack (editsBit_xor_mask i) inside]
  rfl

theorem put_pack {n i : Nat} {σ : Assignment} (inside : i < n) (value : Bool) :
    (pack n σ).put i value = pack n (Function.update σ i value) := by
  obtain ⟨f, edits, equal⟩ := put_edits (pack n σ) i value
  rw [equal, modify_pack edits inside]

theorem set_pack {n i : Nat} {σ : Assignment} (inside : i < n) (value : Bool) :
    (pack n σ).set i value = .ok (pack n (Function.update σ i value)) := by
  unfold set
  rw [require_of (by simpa using inside), ok_bind, put_pack inside]
  rfl

theorem swap_pack {n i j : Nat} {σ : Assignment} (first : i < n) (second : j < n) :
    (pack n σ).swap i j = .ok (pack n (Function.update (Function.update σ i (σ j)) j (σ i))) := by
  unfold swap
  rw [get_pack first, ok_bind, get_pack second, ok_bind, set_pack first, ok_bind, set_pack second]

theorem allSet_pack {n : Nat} {σ : Assignment} {lines : List Nat} (inside : ∀ i ∈ lines, i < n) :
    (pack n σ).allSet lines = .ok (lines.all σ) := by
  induction lines with
  | nil => rfl
  | cons i rest ih =>
    unfold allSet
    rw [get_pack (inside i List.mem_cons_self), ok_bind, ih fun j member => inside j (List.mem_cons_of_mem i member)]
    cases value : σ i <;> simp [value]

theorem mask_sub_one_toNat (i : Nat) : (mask i - 1).toNat = 2 ^ (i % 64) - 1 := by
  have one : 1 ≤ mask i := by
    rw [UInt64.le_iff_toNat_le, mask_toNat]
    exact Nat.one_le_two_pow
  rw [UInt64.toNat_sub_of_le _ _ one, mask_toNat, UInt64.toNat_one]

theorem testBit_clearTail {b : Bits} (words : b.words.length = (b.width + 63) / 64) (i : Nat) :
    b.clearTail.testBit i = (decide (i < b.width) && b.testBit i) := by
  unfold clearTail
  by_cases whole : b.width % 64 = 0
  · rw [if_pos whole]
    by_cases inside : i < b.width
    · simp [inside]
    · have past : b.words.length ≤ i / 64 := by omega
      rw [testBit_eq, List.getD_eq_default _ _ past]
      simp [inside]
  · rw [if_neg whole, testBit_eq, testBit_eq]
    simp only [List.getD_eq_getElem?_getD, List.getElem?_modify]
    by_cases last : b.words.length - 1 = i / 64
    · have stored : i / 64 < b.words.length := by omega
      have position : i % 64 < b.width % 64 ↔ i < b.width := by omega
      simp only [last, if_true, List.getElem?_eq_getElem stored, Option.map_eq_map, Option.map_some, Option.getD_some,
        UInt64.toNat_and, mask_sub_one_toNat, Nat.testBit_and, Nat.testBit_two_pow_sub_one, position]
      exact Bool.and_comm _ _
    · by_cases inside : i < b.width
      · simp [last, inside]
      · have past : b.words.length ≤ i / 64 := by omega
        simp [last, inside, List.getElem?_eq_none past]

theorem clearTail_canonical {b : Bits} (words : b.words.length = (b.width + 63) / 64) : b.clearTail.Canonical := by
  have width : b.clearTail.width = b.width := by
    unfold clearTail
    split <;> rfl
  refine ⟨?_, fun i above => ?_⟩
  · rw [width, ← words]
    unfold clearTail
    split <;> simp
  · rw [testBit_clearTail words, decide_eq_false (by omega), Bool.false_and]

theorem ofWord_eq_pack (n : Nat) (value : UInt64) : ofWord n value = pack n value.toNat.testBit := by
  let full : Bits := { zero n with words := (zero n).words.modify 0 fun _ => value }
  have words : full.words.length = (full.width + 63) / 64 := by simp [full, zero]
  have packed := eq_pack (clearTail_canonical words) value.toNat.testBit fun i inside => ?_
  · have width : full.clearTail.width = n := by
      unfold clearTail
      split <;> rfl
    rwa [width] at packed
  · have inside : i < n := by
      unfold clearTail at inside
      split at inside <;> exact inside
    rw [testBit_clearTail words, decide_eq_true (show i < full.width from inside), Bool.true_and, testBit_eq]
    by_cases low : i / 64 = 0
    · have position : i % 64 = i := by omega
      have stored : 0 < (n + 63) / 64 := by omega
      simp [full, zero, low, position, stored]
    · rw [testBit_above value.toNat_lt (by omega)]
      simp only [full, zero, List.getD_eq_getElem?_getD, List.getElem?_modify, Ne.symm low, if_false,
        List.getElem?_replicate]
      split <;> simp

/-- A number below `2 ^ n` as the values of `n` lines. -/
theorem ofWord_toUInt64 {x : Nat} (n : Nat) (fits : x < 2 ^ 64) : ofWord n x.toUInt64 = pack n x.testBit := by
  rw [ofWord_eq_pack, Nat.toUInt64_eq, UInt64.toNat_ofNat', Nat.mod_eq_of_lt fits]

theorem toWord_eq_ok {b : Bits} (fits : b.width ≤ 64) : b.toWord = .ok (b.words.headD 0) := by
  unfold toWord
  rw [require_of fits]
  rfl

theorem testBit_headD {b : Bits} (canonical : b.Canonical) (fits : b.width ≤ 64) (i : Nat) :
    (b.words.headD 0).toNat.testBit i = b.testBit i := by
  rw [List.headD_eq_getD]
  by_cases low : i < 64
  · rw [testBit_eq, show i / 64 = 0 by omega, show i % 64 = i by omega]
  · rw [canonical.2 i (by omega), testBit_above (b.words.getD 0 0).toNat_lt (by omega)]

end Bits

end Reversible
