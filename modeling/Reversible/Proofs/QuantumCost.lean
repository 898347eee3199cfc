import Mathlib.Tactic.IntervalCases
import Reversible.Proofs.Cost
import Reversible.Proofs.QuantumTable

namespace Reversible.CostModel

variable {controls free more lines wider : Nat} {cost : UInt64}

theorem exists_toffoli (word : controls + 1 < UInt32.size) (free : Nat) : ∃ cost, toffoli controls free = .ok cost := by
  have bound : controls < 2 ^ 53 := (Nat.lt_of_succ_lt word).trans (by decide)
  exact ⟨_, (toffoli_eq_saturated_iff bound).mpr (counted_of_lt word free)⟩

/-- Up to `2 ^ 32` controls, a gate whose controls are miscounted has no cost. -/
theorem counted_of_priced (word : controls ≤ UInt32.size) (priced : toffoli controls free = .ok cost) :
    Counted controls free := by
  rintro rfl
  rcases Nat.lt_or_ge controls 63 with short | long
  · exact Or.inl short
  have ten : 10 ≤ controls := by omega
  rw [toffoli_of_many ten, manyControls_of_none ten] at priced
  obtain ⟨narrow, priced⟩ := require_bind_eq_ok.mp priced
  rcases Nat.lt_or_eq_of_le word with less | rfl
  · rw [Nat.mod_eq_of_lt less] at narrow ⊢
    exact Or.inr ⟨long, narrow⟩
  · -- The count is zero, and the power two.
    have fails : Except.error Fault.overflow = Except.ok cost := priced
    cases fails

/-- More free lines make a Toffoli gate no dearer. -/
theorem toffoli_antitone (word : controls ≤ UInt32.size) (fewer : free ≤ more)
    (priced : toffoli controls free = .ok cost) :
    ∃ less, toffoli controls more = .ok less ∧ less.toNat ≤ cost.toNat := by
  have bound : controls < 2 ^ 53 := word.trans_lt (by decide)
  have counted := counted_of_priced word priced
  have value := Except.ok.inj (priced.symm.trans ((toffoli_eq_saturated_iff bound).mpr counted))
  refine ⟨_, (toffoli_eq_saturated_iff bound).mpr (counted.antitone fewer), ?_⟩
  rw [value, ← UInt64.le_iff_toNat_le]
  exact saturated_monotone (exactToffoli_antitone controls fewer)

theorem toffoli_of_few (few : controls ≤ 3) (free more : Nat) : toffoli controls free = toffoli controls more := by
  interval_cases controls <;> rfl

/-- With at most two controls the other lines do not matter. -/
theorem quantumGate_of_few {g : Gate} (few : g.controls.size ≤ 2) (lines wider : Nat) :
    quantumGate lines g = quantumGate wider g := by
  cases g with
  | toffoli cs t => exact toffoli_of_few (Nat.le_succ_of_le few) _ _
  | fredkin cs a b => exact congrArg (· >>= _) (toffoli_of_few (Nat.succ_le_succ few) _ _)

theorem quantum_eases {g : Gate} (word : g.controls.size < UInt32.size) : quantum.Eases g := by
  intro lines wider cost fewer priced
  cases g with
  | toffoli cs t => exact toffoli_antitone word.le (Nat.sub_le_sub_right fewer _) priced
  | fredkin cs a b =>
    obtain ⟨inner, innerPriced, sum⟩ := bind_eq_ok.mp priced
    obtain ⟨less, found, below⟩ := toffoli_antitone word (Nat.sub_le_sub_right fewer _) innerPriced
    have value := checkedAdd_eq_ok.mp sum
    have room : less.toNat + (2 : UInt64).toNat < UInt64.size :=
      (Nat.add_le_add_right below _).trans_lt (value ▸ cost.toNat_lt)
    obtain ⟨eased, easedSum, easedValue⟩ := exists_checkedAdd room
    refine ⟨eased, bind_eq_ok.mpr ⟨less, found, easedSum⟩, ?_⟩
    omega

theorem quantum_summing : quantum.Summing := rfl

theorem quantum_blind : quantum.Blind := by
  intro g lines ρ injective
  have size := Gate.size_rename_controls injective
  cases g with
  | toffoli cs t =>
    change (NatSet.ofList (cs.toList.map ρ)).size = cs.size at size
    change quantumGate lines (.toffoli (NatSet.ofList (cs.toList.map ρ)) (ρ t)) = quantumGate lines (.toffoli cs t)
    simp only [quantumGate, size]
  | fredkin cs a b =>
    change (NatSet.ofList (cs.toList.map ρ)).size = cs.size at size
    change quantumGate lines (.fredkin (NatSet.ofList (cs.toList.map ρ)) (ρ a) (ρ b)) =
      quantumGate lines (.fredkin cs a b)
    simp only [quantumGate, size]

end Reversible.CostModel
