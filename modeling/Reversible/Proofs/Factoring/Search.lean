import Reversible.Proofs.Factoring

namespace Reversible.Factoring

variable {cost : CostModel} {c : Circuit} {helper : Nat} {factor : List Nat} {g : Gate} {rest run gates : List Gate}

/-- The longest run of gates from the first one on that a factor reaches. -/
structure LongestRun (factor : List Nat) (gates run : List Gate) : Prop where
  starts : run <+: gates
  reached : ∀ g ∈ run, Reached factor g
  longest : ∀ longer, longer <+: gates → (∀ g ∈ longer, Reached factor g) → longer.length ≤ run.length

theorem longestRun_iff : LongestRun factor gates run ↔ run = gates.takeWhile (isReached factor) := by
  -- A run of reached gates at the front is within the gates that are taken while they are reached.
  have within : ∀ run, run <+: gates → (∀ g ∈ run, Reached factor g) → run <+: gates.takeWhile (isReached factor) := by
    rintro run ⟨others, rfl⟩ reached
    rw [List.takeWhile_append_of_pos fun g member => isReached_iff.mpr (reached g member)]
    exact List.prefix_append run _
  have taken : ∀ g ∈ gates.takeWhile (isReached factor), Reached factor g :=
    fun g member => isReached_iff.mp (List.all_eq_true.mp List.all_takeWhile g member)
  constructor
  · intro longest
    have bound := longest.longest _ (List.takeWhile_prefix (isReached factor)) taken
    exact (within run longest.starts longest.reached).eq_of_length_le bound
  · rintro rfl
    exact ⟨List.takeWhile_prefix _, taken, fun longer starts reached => (within longer starts reached).length_le⟩

/-- A Toffoli gate with few controls in a circuit, which has a line that no gate touches from this one on. -/
structure Ready (c : Circuit) (helper : Nat) (g : Gate) (rest : List Gate) : Prop where
  inverts : g.isToffoli = true
  few : g.controls.size < 64
  formed : g.WellFormed c.lines
  room : helper < c.lines
  untouched : ∀ other ∈ g :: rest, helper ∉ other.lines

namespace Ready

theorem of_formed (inverts : g.isToffoli = true) (few : g.controls.size < 64) (room : helper < c.lines)
    (formed : ∀ other ∈ g :: rest, other.WellFormed helper) : Ready c helper g rest :=
  ⟨inverts, few, (formed g List.mem_cons_self).mono room.le, room, fun other member => (formed other member).not_mem_lines⟩

theorem longest_iff (ready : Ready c helper g rest) (isFactor : IsFactor g factor) :
    LongestRun factor (g :: rest) run ↔ run = g :: rest.takeWhile (isReached factor) := by
  rw [longestRun_iff, List.takeWhile_cons_of_pos (isFactor.reaches ready.inverts ready.formed)]

theorem rewriteRun_eq (ready : Ready c helper g rest) (isFactor : IsFactor g factor)
    (longest : LongestRun factor (g :: rest) run) :
    rewriteRun c.lines factor helper run = .ok (rewritten factor helper run) := by
  have control : ∀ l ∈ factor, l ∈ g.lines :=
    fun l inFactor => Gate.mem_lines.mpr (Or.inl (isFactor.sublist.mem inFactor))
  refine rewriteRun_eq_rewritten (fun other member => ?_) (fun inFactor => ?_) (fun l inFactor => ?_) ready.room
  · obtain ⟨inverts, keeps⟩ := longest.reached other member
    exact ⟨inverts, keeps, ready.untouched other (longest.starts.mem member)⟩
  · exact ready.untouched g List.mem_cons_self (control helper inFactor)
  · exact ready.formed.2 l (control l inFactor)

end Ready

/-- Without the factor the run costs that much less. -/
def Saves (cost : CostModel) (c : Circuit) (helper : Nat) (factor : List Nat) (run : List Gate) (saving : UInt64) : Prop :=
  ∃ old new, cost.circuitCost { c with gates := run } = .ok old ∧
    cost.circuitCost { c with gates := rewritten factor helper run } = .ok new ∧ new < old ∧ saving = old - new

/-- Whatever a factor of the gate reaches has a cost, and so has what becomes of it. -/
def Priced (cost : CostModel) (c : Circuit) (helper : Nat) (g : Gate) (rest : List Gate) : Prop :=
  ∀ factor run, IsFactor g factor → LongestRun factor (g :: rest) run →
    (∃ old, cost.circuitCost { c with gates := run } = .ok old) ∧
      ∃ new, cost.circuitCost { c with gates := rewritten factor helper run } = .ok new

namespace Ready

theorem exists_factor? (ready : Ready c helper g rest) (priced : Priced cost c helper g rest)
    (isFactor : IsFactor g factor) :
    ∃ answer, factor? cost c helper factor (g :: rest.takeWhile (isReached factor)) = .ok answer := by
  have longest := (ready.longest_iff isFactor).mpr rfl
  obtain ⟨⟨old, oldCost⟩, new, newCost⟩ := priced factor _ isFactor longest
  unfold factor?
  rw [ready.rewriteRun_eq isFactor longest, ok_bind, oldCost, ok_bind, newCost, ok_bind]
  exact ⟨_, rfl⟩

theorem factor?_eq_some (ready : Ready c helper g rest) (isFactor : IsFactor g factor)
    (longest : LongestRun factor (g :: rest) run) {f : Factored} :
    factor? cost c helper factor run = .ok (some f) ↔
      f.factor = factor ∧ f.run = run ∧ f.gates = rewritten factor helper run ∧
        Saves cost c helper factor run f.saving := by
  unfold factor?
  rw [ready.rewriteRun_eq isFactor longest, ok_bind]
  constructor
  · intro found
    obtain ⟨old, oldCost, found⟩ := bind_eq_ok.mp found
    obtain ⟨new, newCost, found⟩ := bind_eq_ok.mp found
    split at found
    · cases found
      exact ⟨rfl, rfl, rfl, old, new, oldCost, newCost, ‹_›, rfl⟩
    · cases found
  · rintro ⟨rfl, rfl, gates, old, new, oldCost, newCost, cheaper, saving⟩
    rw [oldCost, ok_bind, newCost, ok_bind, if_pos cheaper, ← gates, ← saving]
    rfl

/-- If all costs are there, the search for a factor has an answer. -/
theorem exists_best? (ready : Ready c helper g rest) (priced : Priced cost c helper g rest) :
    ∃ answer, best? cost c helper g rest = .ok answer := by
  have few : g.controls.toList.length < 64 := ready.few
  unfold best?
  dsimp only
  rw [require_of few, ok_bind]
  refine exists_foldFrom (fun best mask => ?_) _ _ _
  split
  · exact ⟨best, rfl⟩
  · rename_i several
    rw [not_or, Nat.not_le] at several
    obtain ⟨answer, tried⟩ := ready.exists_factor? priced ⟨subset_sublist _ mask, several.1⟩
    rw [tried, ok_bind]
    cases answer <;> exact ⟨_, rfl⟩

end Ready

end Reversible.Factoring
