import Mathlib.Data.List.Basic
import Reversible.Proofs.Packing
import Reversible.Simulation

namespace Reversible

namespace Gate

/-- What a gate does to the values of all lines. -/
def act (σ : Assignment) (g : Gate) : Assignment :=
  if g.controls.toList.all σ then
    match g with
    | toffoli _ t => Function.update σ t (!σ t)
    | fredkin _ a b => Function.update (Function.update σ a (σ b)) b (σ a)
  else σ

theorem mem_lines {g : Gate} {line : Nat} : line ∈ g.lines ↔ line ∈ g.controls ∨ line ∈ g.targets :=
  List.mem_append

theorem touches_iff {g : Gate} {line : Nat} : g.touches line = true ↔ line ∈ g.lines := by
  simp [touches, hasControl, hasTarget, mem_lines]

theorem touches_eq_false {g : Gate} {line : Nat} : g.touches line = false ↔ line ∉ g.lines := by
  rw [← touches_iff, Bool.not_eq_true]

theorem foldl_max_lt {n start : Nat} {xs : List Nat} : xs.foldl max start < n ↔ start < n ∧ ∀ x ∈ xs, x < n := by
  induction xs generalizing start with
  | nil => simp
  | cons x rest ih =>
    rw [List.foldl_cons, ih, List.forall_mem_cons, ← and_assoc]
    exact and_congr_left' Nat.max_lt

theorem le_maxLine {g : Gate} {line : Nat} (touched : line ∈ g.lines) : line ≤ g.maxLine :=
  Nat.lt_succ_iff.mp ((foldl_max_lt.mp (Nat.lt_succ_self g.maxLine)).2 line touched)

theorem exists_mem_lines (g : Gate) : ∃ line, line ∈ g.lines := by
  cases g with
  | toffoli cs t => exact ⟨t, by simp [lines, targets]⟩
  | fredkin cs a b => exact ⟨a, by simp [lines, targets]⟩

theorem maxLine_lt {n : Nat} {g : Gate} (inside : ∀ line ∈ g.lines, line < n) : g.maxLine < n := by
  obtain ⟨line, touched⟩ := g.exists_mem_lines
  have below := inside line touched
  exact foldl_max_lt.mpr ⟨by omega, inside⟩

theorem WellFormed.maxLine_lt {n : Nat} {g : Gate} (formed : g.WellFormed n) : g.maxLine < n := Gate.maxLine_lt formed.2

theorem WellFormed.mono {n k : Nat} {g : Gate} (formed : g.WellFormed n) (wider : n ≤ k) : g.WellFormed k :=
  ⟨formed.1, fun line touched => (formed.2 line touched).trans_le wider⟩

theorem act_of_not_target {g : Gate} {line : Nat} (kept : line ∉ g.targets) (σ : Assignment) :
    g.act σ line = σ line := by
  unfold act
  split
  · cases g with
    | toffoli cs t =>
      have different : line ≠ t := fun equal => kept (by simp [targets, equal])
      exact Function.update_of_ne different _ _
    | fredkin cs a b =>
      have notFirst : line ≠ a := fun equal => kept (by simp [targets, equal])
      have notSecond : line ≠ b := fun equal => kept (by simp [targets, equal])
      simp only [Function.update_of_ne notFirst, Function.update_of_ne notSecond]
  · rfl

theorem act_toffoli (cs : NatSet) (t : Nat) (σ : Assignment) :
    (toffoli cs t).act σ = if cs.toList.all σ then Function.update σ t (!σ t) else σ := rfl

theorem apply_pack {n : Nat} {g : Gate} (inside : ∀ line ∈ g.lines, line < n) (σ : Assignment) :
    Gate.apply (Bits.pack n σ) g = .ok (Bits.pack n (g.act σ)) := by
  unfold Gate.apply act
  rw [Bits.allSet_pack fun line member => inside line (mem_lines.mpr (Or.inl member)), ok_bind]
  by_cases fires : g.controls.toList.all σ = true
  · simp only [fires, if_true]
    cases g with
    | toffoli cs t => exact Bits.flip_pack (inside t (by simp [lines, targets]))
    | fredkin cs a b =>
      exact Bits.swap_pack (inside a (by simp [lines, targets])) (inside b (by simp [lines, targets]))
  · rw [if_neg fires, if_neg fires]
    rfl

end Gate

namespace Circuit

/-- What gates do to the values of all lines, one after the other. -/
def act (gates : List Gate) (σ : Assignment) : Assignment := gates.foldl Gate.act σ

@[simp] theorem act_nil (σ : Assignment) : act [] σ = σ := rfl

@[simp] theorem act_cons (g : Gate) (gates : List Gate) (σ : Assignment) :
    act (g :: gates) σ = act gates (g.act σ) := rfl

@[simp] theorem act_append (before after : List Gate) (σ : Assignment) :
    act (before ++ after) σ = act after (act before σ) := List.foldl_append

theorem ne_of_untouched {gates : List Gate} {line : Nat} (untouched : ∀ g ∈ gates, line ∉ g.lines) :
    ∀ g ∈ gates, ∀ l ∈ g.lines, l ≠ line :=
  fun g member _ touched => ne_of_mem_of_not_mem touched (untouched g member)

theorem act_of_not_target {gates : List Gate} {line : Nat} (kept : ∀ g ∈ gates, line ∉ g.targets)
    (σ : Assignment) : act gates σ line = σ line := by
  induction gates generalizing σ with
  | nil => rfl
  | cons g rest ih =>
    rw [act_cons, ih fun other member => kept other (List.mem_cons_of_mem g member)]
    exact Gate.act_of_not_target (kept g List.mem_cons_self) σ

theorem act_untouched {gates : List Gate} {line : Nat} (untouched : ∀ g ∈ gates, line ∉ g.lines)
    (σ : Assignment) : act gates σ line = σ line :=
  act_of_not_target (fun g member target => untouched g member (Gate.mem_lines.mpr (Or.inr target))) σ

/-- The gates stay within the first `n` lines. -/
def Within (n : Nat) (gates : List Gate) : Prop := ∀ g ∈ gates, ∀ line ∈ g.lines, line < n

theorem foldlM_apply_pack {n : Nat} {gates : List Gate} (inside : Within n gates)
    (σ : Assignment) : gates.foldlM Gate.apply (Bits.pack n σ) = .ok (Bits.pack n (act gates σ)) :=
  foldlM_eq_foldl (Bits.pack n) (fun g member => Gate.apply_pack (inside g member)) σ

theorem WellFormed.inside {c : Circuit} (formed : c.WellFormed) : Within c.lines c.gates :=
  fun g member => (formed g member).2

/-- Simulating gates that stay within the lines never fails, and gives every line the value its gates give it. -/
theorem simulate_inside {c : Circuit} (inside : Within c.lines c.gates) (σ : Assignment) :
    simulate c (Bits.pack c.lines σ) = .ok (Bits.pack c.lines (act c.gates σ)) := by
  unfold simulate
  rw [require_of (Bits.pack_width _ _), ok_bind, foldlM_apply_pack inside]

theorem simulate_pack {c : Circuit} (formed : c.WellFormed) (σ : Assignment) :
    simulate c (Bits.pack c.lines σ) = .ok (Bits.pack c.lines (act c.gates σ)) := simulate_inside formed.inside σ

theorem simulate_within {c : Circuit} (inside : Within c.lines c.gates) {input : Bits} (canonical : input.Canonical)
    (width : input.width = c.lines) : simulate c input = .ok (Bits.pack c.lines (act c.gates input.testBit)) := by
  have packed := canonical.eq_pack
  rw [width] at packed
  conv_lhs => rw [packed]
  exact simulate_inside inside input.testBit

theorem simulate_eq_ok {c : Circuit} (formed : c.WellFormed) {input : Bits} (canonical : input.Canonical)
    (width : input.width = c.lines) : simulate c input = .ok (Bits.pack c.lines (act c.gates input.testBit)) :=
  simulate_within formed.inside canonical width

/-- The gates before position `k`, on the same lines. -/
def upTo (c : Circuit) (k : Nat) : Circuit := { c with gates := c.gates.take k }

theorem WellFormed.upTo {c : Circuit} (formed : c.WellFormed) (k : Nat) : (c.upTo k).WellFormed :=
  fun g member => formed g (List.mem_of_mem_take member)

/-- Circuits on the same lines are simulated alike exactly if their gates do the same to these lines. -/
theorem simulate_eq_iff {c d : Circuit} (insideC : Within c.lines c.gates)
    (insideD : Within d.lines d.gates) (lines : d.lines = c.lines) :
    (∀ input : Bits, input.Canonical → input.width = c.lines → simulate d input = simulate c input) ↔
      ∀ σ, ∀ i < c.lines, act d.gates σ i = act c.gates σ i := by
  have left := simulate_inside insideD
  have right := simulate_inside insideC
  rw [lines] at left
  constructor
  · intro same σ i below
    have packs := same _ (Bits.pack_canonical c.lines σ) (Bits.pack_width _ _)
    rw [left, right] at packs
    have bits := congrArg (Bits.testBit · i) (Except.ok.inj packs)
    simpa only [Bits.testBit_pack, below, decide_true, Bool.true_and] using bits
  · intro same input canonical width
    have packed := canonical.eq_pack
    rw [width] at packed
    rw [packed, left, right, Bits.pack_congr (same _)]

end Circuit

end Reversible
