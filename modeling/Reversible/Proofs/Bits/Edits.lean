import Reversible.Proofs.Bits.Ones
import Reversible.Proofs.TruthTable

namespace Reversible.Bits

/-- A change of single bits. -/
inductive Edit where
  | set (i : Nat) (value : Bool)
  | flip (i : Nat)
  | swap (i j : Nat)

namespace Edit

def apply (b : Bits) : Edit → Except Fault Bits
  | set i value => b.set i value
  | flip i => b.flip i
  | swap i j => b.swap i j

def InRange (n : Nat) : Edit → Prop
  | set i _ => i < n
  | flip i => i < n
  | swap i j => i < n ∧ j < n

/-- What an edit does to the values of all lines. -/
def act (σ : Assignment) : Edit → Assignment
  | set i value => Function.update σ i value
  | flip i => Function.update σ i (!σ i)
  | swap i j => Function.update (Function.update σ i (σ j)) j (σ i)

variable {n : Nat} {σ : Assignment} {e : Edit} {b d : Bits}

theorem apply_pack (inRange : e.InRange n) : e.apply (pack n σ) = .ok (pack n (e.act σ)) := by
  cases e with
  | set i value => exact set_pack inRange value
  | flip i => exact flip_pack inRange
  | swap i j => exact swap_pack inRange.1 inRange.2

theorem inRange_of_apply (run : e.apply b = .ok d) : e.InRange b.width := by
  cases e with
  | set i value => exact (require_bind_eq_ok.mp run).1
  | flip i => exact (require_bind_eq_ok.mp run).1
  | swap i j =>
    obtain ⟨atI, first, run⟩ := bind_eq_ok.mp run
    obtain ⟨atJ, second, -⟩ := bind_eq_ok.mp run
    exact ⟨(require_bind_eq_ok.mp first).1, (require_bind_eq_ok.mp second).1⟩

/-- Edits in range never fail, and change the bits as they change the values. -/
theorem foldlM_apply {edits : List Edit} (canonical : b.Canonical) (inRange : ∀ e ∈ edits, e.InRange b.width) :
    edits.foldlM apply b = .ok (pack b.width (edits.foldl act b.testBit)) := by
  conv_lhs => rw [canonical.eq_pack]
  exact foldlM_eq_foldl (pack b.width) (fun e member _ => apply_pack (inRange e member)) b.testBit

end Edit

/-- The sets of bits that can be made and edited. -/
inductive Built : Bits → Prop
  | zero (n : Nat) : Built (zero n)
  | ofWord (n : Nat) (value : UInt64) : Built (ofWord n value)
  | ofBools (bits : List Bool) : Built (ofBools bits)
  | default : Built default
  | edit {b d : Bits} (built : Built b) (e : Edit) (run : e.apply b = .ok d) : Built d

namespace Built

variable {b d : Bits}

/-- Nothing is ever stored at or above the width. -/
theorem canonical (built : Built b) : b.Canonical := by
  induction built with
  | zero n => exact zero_canonical n
  | ofWord n value =>
    rw [ofWord_eq_pack]
    exact pack_canonical _ _
  | ofBools bits => exact ofBools_canonical bits
  | default => exact zero_canonical 0
  | edit built e run ih =>
    have inRange := Edit.inRange_of_apply run
    rw [ih.eq_pack, Edit.apply_pack inRange] at run
    cases run
    exact pack_canonical _ _

theorem edits {edits : List Edit} (built : Built b) (run : edits.foldlM Edit.apply b = .ok d) : Built d := by
  induction edits generalizing b with
  | nil =>
    cases run
    exact built
  | cons e rest ih =>
    obtain ⟨next, first, others⟩ := bind_eq_ok.mp run
    exact ih (.edit built e first) others

end Built

theorem get_eq_ok_iff {b : Bits} {i : Nat} {value : Bool} : b.get i = .ok value ↔ i < b.width ∧ b.testBit i = value := by
  unfold get
  rw [require_bind_eq_ok, pure_eq_ok, Except.ok.injEq]

theorem Canonical.eq_iff {a b : Bits} (left : a.Canonical) (right : b.Canonical) (width : a.width = b.width) :
    a = b ↔ ∀ i, a.get i = b.get i := by
  refine ⟨fun same _ => same ▸ rfl, fun same => ext_testBit left right width fun i inside => ?_⟩
  have known : a.get i = .ok (a.testBit i) := get_eq_ok_iff.mpr ⟨inside, rfl⟩
  rw [same i] at known
  exact (get_eq_ok_iff.mp known).2.symm

theorem Canonical.mem_ones_iff {b : Bits} (canonical : b.Canonical) {i : Nat} : i ∈ b.ones ↔ b.get i = .ok true := by
  rw [mem_ones, get_eq_ok_iff]
  refine ⟨fun bit => ⟨?_, bit⟩, And.right⟩
  by_contra above
  rw [canonical.2 i (Nat.not_lt.mp above)] at bit
  cases bit

theorem toBools_ofBools (bits : List Bool) : (ofBools bits).toBools = bits := by
  rw [ofBools_eq_pack, toBools_pack]
  exact List.ext_getElem (by simp) fun i _ inside => by simp [inside]

theorem toWord_ofWord {n : Nat} {value : UInt64} (narrow : n ≤ 64) (fits : value.toNat < 2 ^ n) :
    (ofWord n value).toWord = .ok value := by
  rw [ofWord_eq_pack, toWord_eq_ok (by rwa [pack_width])]
  exact congrArg Except.ok (UInt64.toNat_inj.mp (number_pack narrow fits))

/-- What is read from the words is what the single bits say. -/
structure Faithful (b : Bits) : Prop where
  canonical : b.Canonical
  ones : ∀ i, i ∈ b.ones ↔ b.get i = .ok true
  ascending : b.ones.Pairwise (· < ·)
  popcount : b.popcount = b.ones.length

theorem Canonical.faithful {b : Bits} (canonical : b.Canonical) : b.Faithful :=
  ⟨canonical, fun _ => canonical.mem_ones_iff, ones_sorted b, popcount_eq b⟩

/-- However sets of bits are made and edited, they store nothing at or above their width. So single bits decide whether
two of them are equal, the ones are listed and counted right, lists and words are given back as they were put in, and
in one word the order is the order of the numbers. -/
theorem built_faithful {a b : Bits} (builtA : Built a) (builtB : Built b) :
    (∀ edits : List Edit, (∀ e ∈ edits, e.InRange a.width) →
      edits.foldlM Edit.apply a = .ok (pack a.width (edits.foldl Edit.act a.testBit))) ∧
    a.Faithful ∧ (a.width = b.width → (a = b ↔ ∀ i, a.get i = b.get i)) ∧
    (∀ bits, (ofBools bits).toBools = bits) ∧
    (∀ n value, n ≤ 64 → value.toNat < 2 ^ n → (ofWord n value).toWord = .ok value) ∧
    (a.width ≤ 64 → b.width ≤ 64 → ∃ v w, a.toWord = .ok v ∧ b.toWord = .ok w ∧
      a.compare b = (Ord.compare v.toNat w.toNat).then (Ord.compare a.width b.width)) := by
  have left := builtA.canonical
  have right := builtB.canonical
  refine ⟨fun _ inRange => Edit.foldlM_apply left inRange, left.faithful, left.eq_iff right, toBools_ofBools,
    fun _ _ narrow fits => toWord_ofWord narrow fits, fun fitsA fitsB => ?_⟩
  exact ⟨_, _, toWord_eq_ok fitsA, toWord_eq_ok fitsB, compare_eq left right fitsA fitsB⟩

/-- Ones on both sides of a word boundary: the way they came there leaves no trace. -/
theorem built_faithful_across_words :
    ([.set 3 true, .flip 65, .swap 3 64] : List Edit).foldlM Edit.apply (zero 70) = .ok ⟨[0, 3], 70⟩ ∧
    (∀ i, (⟨[0, 3], 70⟩ : Bits).get i = (ofBools ((List.range 70).map fun i => 63 < i && i < 66)).get i) ∧
    (⟨[0, 3], 70⟩ : Bits).ones.length = 2 ∧ 65 ∈ (⟨[0, 3], 70⟩ : Bits).ones ∧
    (ofWord 3 13).compare (ofWord 3 6) = .lt := by
  have run : ([.set 3 true, .flip 65, .swap 3 64] : List Edit).foldlM Edit.apply (zero 70) = .ok ⟨[0, 3], 70⟩ := by decide
  have built := Built.edits (.zero 70) run
  obtain ⟨-, wide, decides, -⟩ := built_faithful built (.ofBools ((List.range 70).map fun i => 63 < i && i < 66))
  obtain ⟨-, -, -, -, -, orders⟩ := built_faithful (.ofWord 3 13) (.ofWord 3 6)
  obtain ⟨v, w, first, second, order⟩ := orders (by decide) (by decide)
  cases first
  cases second
  exact ⟨run, (decides (by decide)).mp (by decide), wide.popcount.symm, (wide.ones 65).mpr (by decide), order⟩

end Reversible.Bits
