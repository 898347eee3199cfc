import Reversible.Proofs.Factoring.Saving

namespace Reversible.Factoring

/-- The number whose bit `i` tells whether control `i` is in the factor. -/
def maskOf (factor : List Nat) : List Nat → Nat
  | [] => 0
  | l :: rest => Nat.bit (decide (l ∈ factor)) (maskOf factor rest)

variable {controls factor : List Nat} {mask : Nat}

theorem testBit_maskOf (factor controls : List Nat) (i : Nat) :
    (maskOf factor controls).testBit i = controls[i]?.any (· ∈ factor) := by
  induction controls generalizing i with
  | nil => rw [maskOf, Nat.zero_testBit, List.getElem?_nil, Option.any_none]
  | cons l rest ih =>
    cases i with
    | zero => rw [maskOf, Nat.testBit_bit_zero, List.getElem?_cons_zero, Option.any_some]
    | succ i => rw [maskOf, Nat.testBit_bit_succ, ih, List.getElem?_cons_succ]

theorem mem_subset {line : Nat} :
    line ∈ subset controls mask ↔ ∃ i, controls[i]? = some line ∧ mask.testBit i = true := by
  simp [subset, List.mem_zipIdx_iff_getElem?]

/-- Every ascending list of controls is found under its mask. -/
theorem subset_maskOf (sorted : controls.Pairwise (· < ·)) (sublist : factor.Sublist controls) :
    subset controls (maskOf factor controls) = factor := by
  refine NatSet.ext_toList (sorted.sublist (subset_sublist _ _)) (sorted.sublist sublist) fun line => ?_
  rw [mem_subset]
  constructor
  · rintro ⟨i, found, one⟩
    rw [testBit_maskOf, found, Option.any_some, decide_eq_true_iff] at one
    exact one
  · intro inFactor
    obtain ⟨i, found⟩ := List.mem_iff_getElem?.mp (sublist.mem inFactor)
    exact ⟨i, found, by rw [testBit_maskOf, found, Option.any_some, decide_eq_true inFactor]⟩

theorem maskOf_lt (factor controls : List Nat) : maskOf factor controls < 2 ^ controls.length := by
  refine Nat.lt_pow_two_of_testBit _ fun i above => ?_
  rw [testBit_maskOf, List.getElem?_eq_none above, Option.any_none]

/-- Different masks stand for different lists of controls. -/
theorem maskOf_subset (distinct : controls.Nodup) (small : mask < 2 ^ controls.length) :
    maskOf (subset controls mask) controls = mask := by
  refine Nat.eq_of_testBit_eq fun i => ?_
  rw [testBit_maskOf]
  cases found : controls[i]? with
  | none =>
    have above : controls.length ≤ i := List.getElem?_eq_none_iff.mp found
    rw [Option.any_none, testBit_above small above]
  | some line =>
    rw [Option.any_some, Bool.eq_iff_iff, decide_eq_true_iff, mem_subset]
    refine ⟨fun ⟨j, again, one⟩ => ?_, fun one => ⟨i, found, one⟩⟩
    have inside : i < controls.length := (List.getElem?_eq_some_iff.mp found).1
    rwa [(List.getElem?_inj inside distinct).mp (found.trans again.symm)]

/-- Of the candidates from `start` up to `bound`, none saves more than `best`, and none before it saves as much. -/
structure Leads (candidate : Nat → Option Factored) (start bound : Nat) (best : Option Factored) : Prop where
  absent : best = none → ∀ mask, start ≤ mask → mask < bound → candidate mask = none
  first : ∀ b, best = some b → ∃ place, start ≤ place ∧ place < bound ∧ candidate place = some b ∧
    ∀ mask f, start ≤ mask → mask < bound → candidate mask = some f →
      f.saving ≤ b.saving ∧ (f.saving = b.saving → place ≤ mask)

namespace Leads

variable {candidate : Nat → Option Factored} {start bound : Nat} {best : Option Factored}

theorem begin (candidate : Nat → Option Factored) (start : Nat) : Leads candidate start start none :=
  ⟨fun _ _ after before => absurd before (Nat.not_lt.mpr after), nofun⟩

/-- A candidate that does not save more than the best leaves it in front. -/
theorem keep (leads : Leads candidate start bound best) (added : ∀ f, candidate bound = some f →
    ∃ b, best = some b ∧ f.saving ≤ b.saving) : Leads candidate start (bound + 1) best := by
  refine ⟨fun none mask after before => ?_, fun b some => ?_⟩
  · rcases Nat.lt_or_eq_of_le (Nat.lt_succ_iff.mp before) with earlier | rfl
    · exact leads.absent none mask after earlier
    · refine Option.eq_none_iff_forall_ne_some.mpr fun f found => ?_
      obtain ⟨b, some, -⟩ := added f found
      cases none.symm.trans some
  · obtain ⟨place, after, before, found, others⟩ := leads.first b some
    refine ⟨place, after, Nat.lt_succ_of_lt before, found, fun mask f low high tried => ?_⟩
    rcases Nat.lt_or_eq_of_le (Nat.lt_succ_iff.mp high) with earlier | rfl
    · exact others mask f low earlier tried
    · obtain ⟨_, same, less⟩ := added f tried
      cases some.symm.trans same
      exact ⟨less, fun _ => before.le⟩

/-- A candidate that saves more than all before it is the best. -/
theorem replace (leads : Leads candidate start bound best) (reach : start ≤ bound) {f : Factored}
    (found : candidate bound = some f) (more : ∀ b, best = some b → b.saving < f.saving) :
    Leads candidate start (bound + 1) (some f) := by
  refine ⟨nofun, fun b same => ?_⟩
  cases same
  refine ⟨bound, reach, Nat.lt_succ_self bound, found, fun mask other low high tried => ?_⟩
  rcases Nat.lt_or_eq_of_le (Nat.lt_succ_iff.mp high) with earlier | rfl
  · cases same : best with
    | none => cases (leads.absent same mask low earlier).symm.trans tried
    | some b =>
      obtain ⟨place, -, -, -, others⟩ := leads.first b same
      have less : other.saving < f.saving := UInt64.lt_of_le_of_lt (others mask other low earlier tried).1 (more b same)
      exact ⟨UInt64.le_of_lt less, fun equal => absurd equal (UInt64.ne_of_lt less)⟩
  · cases found.symm.trans tried
    exact ⟨UInt64.le_rfl, fun _ => le_rfl⟩

theorem next (leads : Leads candidate start bound best) (reach : start ≤ bound) :
    Leads candidate start (bound + 1)
      ((candidate bound).elim best (prefer (fun f b => b.saving < f.saving) best)) := by
  cases found : candidate bound with
  | none => exact leads.keep fun f tried => by cases found.symm.trans tried
  | some f =>
    unfold prefer
    cases same : best with
    | none => exact leads.replace reach found fun b some => by cases same.symm.trans some
    | some b =>
      subst same
      by_cases more : b.saving < f.saving
      · simp only [Option.elim_some, more, decide_true, if_true]
        exact leads.replace reach found fun other some => by cases some; exact more
      · simp only [Option.elim_some, more, decide_false, Bool.false_eq_true, if_false]
        refine leads.keep fun other tried => ⟨b, rfl, ?_⟩
        cases found.symm.trans tried
        exact UInt64.not_lt.mp more

theorem fold {step : Option Factored → Nat → Except Fault (Option Factored)}
    (steps : ∀ best mask, step best mask =
      .ok ((candidate mask).elim best (prefer (fun f b => b.saving < f.saving) best)))
    (leads : Leads candidate start bound best) (reach : start ≤ bound) {count : Nat} {result : Option Factored}
    (run : foldFrom step bound count best = .ok result) : Leads candidate start (bound + count) result := by
  induction count generalizing bound best with
  | zero =>
    cases run
    exact leads
  | succ count ih =>
    obtain ⟨next, first, rest⟩ := bind_eq_ok.mp run
    cases (steps best bound).symm.trans first
    have later := ih (leads.next reach) (reach.trans (Nat.le_succ bound)) rest
    rwa [Nat.add_right_comm] at later

end Leads

variable {cost : CostModel} {c : Circuit} {helper : Nat} {g : Gate} {rest run : List Gate} {f : Factored} {saving : UInt64}

/-- A factor of the gate with the longest run that it reaches, and what it saves there. -/
structure Gains (cost : CostModel) (c : Circuit) (helper : Nat) (g : Gate) (rest : List Gate) (factor : List Nat)
    (run : List Gate) (saving : UInt64) : Prop where
  isFactor : IsFactor g factor
  longest : LongestRun factor (g :: rest) run
  saves : Saves cost c helper factor run saving

/-- What is tried for a mask. -/
def candidate (cost : CostModel) (c : Circuit) (helper : Nat) (g : Gate) (rest : List Gate) (mask : Nat) :
    Option Factored :=
  let factor := subset g.controls.toList mask
  if factor.length ≤ 1 then none
  else (factor? cost c helper factor (g :: rest.takeWhile (isReached factor))).toOption.join

theorem Ready.candidate_eq_some (ready : Ready c helper g rest) :
    candidate cost c helper g rest mask = some f ↔ f.factor = subset g.controls.toList mask ∧
      f.gates = rewritten f.factor helper f.run ∧ Gains cost c helper g rest f.factor f.run f.saving := by
  unfold candidate
  dsimp only
  constructor
  · intro found
    split at found
    · cases found
    · rename_i several
      have isFactor : IsFactor g (subset g.controls.toList mask) := ⟨subset_sublist _ mask, Nat.not_le.mp several⟩
      have longest := (ready.longest_iff isFactor).mpr rfl
      obtain ⟨factor, run, gates, saves⟩ :=
        (ready.factor?_eq_some isFactor longest).mp (toOption_join_eq_some.mp found)
      rw [factor, run]
      exact ⟨rfl, gates, isFactor, longest, saves⟩
  · rintro ⟨factor, gates, isFactor, longest, saves⟩
    have answer := (ready.factor?_eq_some isFactor longest).mpr ⟨rfl, rfl, gates, saves⟩
    rw [(ready.longest_iff isFactor).mp longest] at answer
    rw [← factor, if_neg (Nat.not_le.mpr isFactor.several), answer]
    rfl

/-- A factor that saves something is found under its mask, which is one of those that are tried. -/
theorem Ready.candidate_maskOf (ready : Ready c helper g rest) (gains : Gains cost c helper g rest factor run saving) :
    0 < maskOf factor g.controls.toList ∧
      candidate cost c helper g rest (maskOf factor g.controls.toList) =
        some ⟨factor, run, rewritten factor helper run, saving⟩ := by
  have found := subset_maskOf g.controls.sorted gains.isFactor.sublist
  refine ⟨Nat.pos_of_ne_zero fun zero => ?_, ready.candidate_eq_some.mpr ⟨found.symm, rfl, gains⟩⟩
  have empty : factor = [] := List.eq_nil_iff_forall_not_mem.mpr fun line inFactor => by
    rw [← found, mem_subset, zero] at inFactor
    obtain ⟨i, -, one⟩ := inFactor
    rw [Nat.zero_testBit] at one
    cases one
  exact gains.isFactor.ne_nil empty

/-- The search goes through all candidates in the order of their masks. -/
theorem Ready.best?_leads (ready : Ready c helper g rest) (priced : Priced cost c helper g rest)
    {best : Option Factored} (search : best? cost c helper g rest = .ok best) :
    Leads (candidate cost c helper g rest) 1 (2 ^ g.controls.size) best := by
  unfold best? at search
  obtain ⟨-, search⟩ := require_bind_eq_ok.mp search
  have leads := Leads.fold (fun best mask => ?_) (.begin (candidate cost c helper g rest) 1) le_rfl search
  · rw [Nat.one_shiftLeft, Nat.add_sub_cancel' Nat.one_le_two_pow] at leads
    exact leads
  · unfold candidate
    dsimp only
    by_cases single : (subset g.controls.toList mask).length ≤ 1
    · rw [if_pos (Or.inl single), if_pos single]
      rfl
    · have isFactor : IsFactor g (subset g.controls.toList mask) := ⟨subset_sublist _ mask, Nat.not_le.mp single⟩
      have reached := isFactor.reaches ready.inverts ready.formed
      obtain ⟨answer, tried⟩ := ready.exists_factor? priced isFactor
      rw [if_neg (by simp [single, reached]), if_neg single, tried, ok_bind]
      cases answer <;> rfl

/-- At a Toffoli gate with fewer than 64 controls and for a line that is not touched from there on, the search finds no
factor exactly if none saves anything. Otherwise it finds one that saves as much as any, with the longest run that it
reaches, and of those that save as much the one with the least mask. -/
theorem best?_optimal (cost : CostModel) {c : Circuit} {i helper : Nat} {g : Gate} (formed : c.WellFormed)
    (position : c.gates[i]? = some g) (inverts : g.isToffoli = true) (few : g.controls.size < 64)
    (room : helper < c.lines) (untouched : ∀ other ∈ c.gates.drop i, helper ∉ other.lines)
    (priced : Priced cost c helper g (c.gates.drop (i + 1))) :
    ∃ best, best? cost c helper g (c.gates.drop (i + 1)) = .ok best ∧
      (best = none ↔ ∀ factor run saving, ¬Gains cost c helper g (c.gates.drop (i + 1)) factor run saving) ∧
      ∀ f, best = some f → Gains cost c helper g (c.gates.drop (i + 1)) f.factor f.run f.saving ∧
        f.gates = rewritten f.factor helper f.run ∧
          ∀ factor run saving, Gains cost c helper g (c.gates.drop (i + 1)) factor run saving →
            saving ≤ f.saving ∧
              (saving = f.saving → maskOf f.factor g.controls.toList ≤ maskOf factor g.controls.toList) := by
  obtain ⟨inside, atI⟩ := List.getElem?_eq_some_iff.mp position
  have ahead : c.gates.drop i = g :: c.gates.drop (i + 1) := by rw [List.drop_eq_getElem_cons inside, atI]
  have ready : Ready c helper g (c.gates.drop (i + 1)) :=
    ⟨inverts, few, formed g (List.mem_of_getElem? position), room, ahead ▸ untouched⟩
  obtain ⟨best, search⟩ := ready.exists_best? priced
  have leads := ready.best?_leads priced search
  refine ⟨best, search, ⟨fun none factor run saving gains => ?_, fun nothing => ?_⟩, fun f some => ?_⟩
  · obtain ⟨positive, found⟩ := ready.candidate_maskOf gains
    cases (leads.absent none _ positive (maskOf_lt _ _)).symm.trans found
  · refine Option.eq_none_iff_forall_ne_some.mpr fun f some => ?_
    obtain ⟨place, -, -, found, -⟩ := leads.first f some
    exact nothing _ _ _ (ready.candidate_eq_some.mp found).2.2
  · obtain ⟨place, -, small, found, others⟩ := leads.first f some
    obtain ⟨factor, gates, gains⟩ := ready.candidate_eq_some.mp found
    have mask : maskOf f.factor g.controls.toList = place := factor ▸ maskOf_subset g.controls.nodup small
    refine ⟨gains, gates, fun other run saving gains => ?_⟩
    obtain ⟨positive, tried⟩ := ready.candidate_maskOf gains
    rw [mask]
    exact others _ _ positive (maskOf_lt _ _) tried

/-- Two gates share three controls, any two of which save as much, and the last gate targets one of them. -/
def sharing : Circuit :=
  { Circuit.blank 6 with gates := [.toffoli .empty 5, .toffoli (.ofList [0, 1, 2]) 3, .toffoli (.ofList [0, 1, 2]) 4,
      .toffoli (.ofList [3]) 0] }

theorem best?_optimal_sharing :
    let g : Gate := .toffoli (.ofList [0, 1, 2]) 3
    let rest : List Gate := [.toffoli (.ofList [0, 1, 2]) 4, .toffoli (.ofList [3]) 0]
    sharing.WellFormed ∧ sharing.gates[1]? = some g ∧ g.isToffoli = true ∧ g.controls.size < 64 ∧ 5 < sharing.lines ∧
      (∀ other ∈ sharing.gates.drop 1, 5 ∉ other.lines) ∧ Priced .quantum sharing 5 g rest ∧
      ∃ f, best? .quantum sharing 5 g rest = .ok (some f) ∧ f.factor = [0, 1] ∧ f.run.length = 2 ∧ f.saving = 6 ∧
        Gains .quantum sharing 5 g rest f.factor f.run f.saving ∧
        ∀ factor run saving, Gains .quantum sharing 5 g rest factor run saving →
          saving ≤ 6 ∧ (saving = 6 → 3 ≤ maskOf factor [0, 1, 2]) := by
  intro g rest
  have formed : sharing.WellFormed := by decide
  have untouched : ∀ other ∈ sharing.gates.drop 1, 5 ∉ other.lines := by decide
  have searchable : ∀ other ∈ g :: rest, other.Searchable := by
    intro other member
    have each : ∀ other ∈ g :: rest, other.isToffoli = true ∧ other.controls.size < 64 := by decide
    exact ⟨(each other member).1, (each other member).2⟩
  have aheadFormed : ∀ other ∈ g :: rest, other.WellFormed 5 := by decide
  have head := searchable g List.mem_cons_self
  have ready : Ready sharing 5 g rest := .of_formed head.inverts head.few (by decide) aheadFormed
  have priced : Priced .quantum sharing 5 g rest :=
    .of_relents CostModel.quantum_relents head aheadFormed ready fun other member =>
      CostModel.quantum_relents.pays (searchable other member) _
  have search : (best? .quantum sharing 5 g rest).map (Option.map fun f => (f.factor, f.run.length, f.saving)) =
      .ok (some ([0, 1], 2, 6)) := by decide +kernel
  obtain ⟨f, found, views⟩ := exists_of_map_map_eq search
  obtain ⟨factor, views⟩ := Prod.mk.inj views
  obtain ⟨length, saving⟩ := Prod.mk.inj views
  obtain ⟨best, again, -, optimal⟩ :=
    best?_optimal .quantum formed (i := 1) (g := g) rfl head.inverts head.few (by decide) untouched priced
  cases found.symm.trans again
  obtain ⟨gains, -, others⟩ := optimal f rfl
  rw [saving, factor] at others
  exact ⟨formed, rfl, head.inverts, head.few, by decide, untouched, priced, f, found, factor, length, saving, gains,
    others⟩

end Reversible.Factoring
