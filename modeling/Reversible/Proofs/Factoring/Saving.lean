import Reversible.Proofs.Factoring.Search
import Reversible.Proofs.QuantumCost

namespace Reversible

namespace Gate

/-- A Toffoli gate with few enough controls that all its factors can be tried. -/
structure Searchable (g : Gate) : Prop where
  inverts : g.isToffoli = true
  few : g.controls.size < 64

variable {factor : List Nat} {helper : Nat} {g : Gate}

theorem isToffoli_factored (factor : List Nat) (helper : Nat) (g : Gate) :
    (g.factored factor helper).isToffoli = g.isToffoli := by
  unfold factored
  split
  · cases g <;> rfl
  · rfl

theorem mem_factored_controls (includes : factor.all g.hasControl = true) {line : Nat} :
    line ∈ (g.factored factor helper).controls ↔ line = helper ∨ line ∈ g.controls ∧ line ∉ factor := by
  have controls : (g.factored factor helper).controls =
      (factor.foldl (fun cs l => cs.erase l) g.controls).insert helper := by
    unfold factored
    rw [if_pos includes]
    cases g <;> rfl
  rw [controls, NatSet.mem_insert, NatSet.mem_foldl_erase]

/-- The control on the helper line stands for at least one control of the factor. -/
theorem size_factored_le (nonempty : factor ≠ []) :
    (g.factored factor helper).controls.size ≤ g.controls.size := by
  by_cases includes : factor.all g.hasControl = true
  · obtain ⟨l, inFactor⟩ := List.exists_mem_of_ne_nil factor nonempty
    have control : l ∈ g.controls := of_decide_eq_true (List.all_eq_true.mp includes l inFactor)
    have fewer : (g.controls.toList.filter (· ∉ factor)).length < g.controls.size :=
      List.length_filter_lt_length_iff_exists.mpr ⟨l, control, by simpa using inFactor⟩
    have size : (g.factored factor helper).controls.size ≤
        (helper :: g.controls.toList.filter (· ∉ factor)).length := by
      refine NatSet.size_le_of_subset fun line member => ?_
      rw [List.mem_cons, List.mem_filter, decide_eq_true_iff]
      exact (mem_factored_controls includes).mp member
    rw [List.length_cons] at size
    omega
  · have same : g.factored factor helper = g := if_neg includes
    rw [same]

theorem Searchable.factored (searchable : g.Searchable) (nonempty : factor ≠ []) :
    (g.factored factor helper).Searchable :=
  ⟨(isToffoli_factored factor helper g).trans searchable.inverts,
    (size_factored_le nonempty).trans_lt searchable.few⟩

end Gate

namespace CostModel

variable {m : CostModel} {lines : Nat} {g : Gate}

/-- Circuits cost the sum of what their gates cost, and every Toffoli gate with few controls has a cost, which more
lines do not raise. -/
structure Relents (m : CostModel) : Prop where
  summing : m.Summing
  priced : ∀ g : Gate, g.Searchable → ∀ lines, ∃ cost, m.gateCost g lines = .ok cost
  eases : ∀ g : Gate, g.Searchable → m.Eases g

theorem quantum_relents : quantum.Relents := by
  refine ⟨quantum_summing, fun g searchable lines => ?_, fun g searchable => ?_⟩
  · cases g with
    | fredkin cs a b => exact absurd searchable.inverts Bool.false_ne_true
    | toffoli cs t =>
      have few : cs.size < 64 := searchable.few
      have word : cs.size + 1 < UInt32.size := Nat.lt_trans (Nat.succ_lt_succ few) (by decide)
      exact exists_toffoli word _
  · exact quantum_eases (searchable.few.trans (by decide))

theorem LineFree.relents (free : m.LineFree) (summing : m.Summing)
    (priced : ∀ g : Gate, ∃ cost, m.gateCost g 0 = .ok cost) : m.Relents := by
  refine ⟨summing, fun g _ lines => ?_, fun g _ => free.eases g⟩
  exact (priced g).imp fun _ found => (free.gateCost_eq g 0 lines).trans found

theorem gateCount_relents : gateCount.Relents := gateCount_lineFree.relents rfl fun _ => ⟨_, rfl⟩

theorem transistors_relents : transistors.Relents := transistors_lineFree.relents rfl fun _ => ⟨_, rfl⟩

theorem weighted_relents {weights : List UInt64} (nonempty : weights ≠ []) : (weighted weights).Relents := by
  refine (weighted_lineFree weights).relents rfl fun g => ?_
  have some := List.length_pos_of_ne_nil nonempty
  have inside : min g.controls.size (weights.length - 1) < weights.length := by omega
  exact ⟨_, elementAt_eq_ok (List.getElem?_eq_getElem inside)⟩

/-- A gate with a cost that more lines do not raise. If it is a Toffoli gate, then all its factors can be tried. -/
structure Pays (m : CostModel) (lines : Nat) (g : Gate) : Prop where
  few : g.isToffoli = true → g.controls.size < 64
  priced : ∃ cost, m.gateCost g lines = .ok cost
  eases : m.Eases g

theorem Pays.wider (pays : m.Pays lines g) {wider : Nat} (fewer : lines ≤ wider) : m.Pays wider g := by
  obtain ⟨cost, found⟩ := pays.priced
  obtain ⟨less, eased, -⟩ := pays.eases lines wider cost fewer found
  exact ⟨pays.few, ⟨less, eased⟩, pays.eases⟩

theorem Relents.pays (relents : m.Relents) (searchable : g.Searchable) (lines : Nat) : m.Pays lines g :=
  ⟨fun _ => searchable.few, relents.priced g searchable lines, relents.eases g searchable⟩

theorem total_le_of_sublist {gates others : List Gate} (sublist : gates.Sublist others) :
    m.total lines gates ≤ m.total lines others :=
  (sublist.map _).sum_le_sum fun _ _ => Nat.zero_le _

end CostModel

namespace Factoring

open CostModel

variable {m : CostModel} {c : Circuit} {helper budget : Nat} {factor : List Nat} {g : Gate} {run rest : List Gate}
  {f : Factored} {s : Scan}

theorem IsFactor.ne_nil (isFactor : IsFactor g factor) : factor ≠ [] :=
  List.ne_nil_of_length_pos (Nat.zero_lt_of_lt isFactor.several)

theorem IsFactor.searchable_bracket (isFactor : IsFactor g factor) (searchable : g.Searchable) (helper : Nat) :
    (bracket factor helper).Searchable := by
  have size : (NatSet.ofList factor).size ≤ factor.length :=
    NatSet.size_le_of_subset fun _ member => NatSet.mem_ofList.mp member
  exact ⟨rfl, (size.trans isFactor.sublist.length_le).trans_lt searchable.few⟩

/-- Every gate of a rewritten run has few controls. -/
theorem Serves.rewritten_searchable (serves : Serves factor helper run) (isFactor : IsFactor g factor)
    (searchable : g.Searchable) (few : ∀ g ∈ run, g.isToffoli = true → g.controls.size < 64) :
    ∀ g ∈ rewritten factor helper run, g.Searchable := by
  refine forall_mem_rewritten (isFactor.searchable_bracket searchable helper) fun other member => ?_
  have inverts := (serves.admits other member).inverts
  exact Gate.Searchable.factored ⟨inverts, few other member inverts⟩ isFactor.ne_nil

theorem Serves.rewritten_pays (serves : Serves factor helper run) (relents : m.Relents) (isFactor : IsFactor g factor)
    (searchable : g.Searchable) {lines : Nat} (pays : ∀ g ∈ run, m.Pays lines g) :
    ∀ g ∈ rewritten factor helper run, m.Pays lines g := fun other member =>
  relents.pays (serves.rewritten_searchable isFactor searchable (fun g inRun => (pays g inRun).few) other member) lines

/-- The search looks at Toffoli gates with few controls only, and all these have a cost. -/
theorem Priced.of_relents (relents : m.Relents) (searchable : g.Searchable)
    (formed : ∀ other ∈ g :: rest, other.WellFormed helper) (ready : Ready c helper g rest)
    (pays : ∀ other ∈ g :: rest, m.Pays c.lines other) : Priced m c helper g rest := by
  intro factor run isFactor longest
  obtain rfl := (ready.longest_iff isFactor).mp longest
  have runPays : ∀ other ∈ g :: rest.takeWhile (isReached factor), m.Pays c.lines other :=
    fun other member => pays other (longest.starts.mem member)
  have rewrittenPays := (isFactor.serves searchable.inverts formed).rewritten_pays relents isFactor searchable runPays
  obtain ⟨old, oldCost, -⟩ := relents.summing.circuitCost_of_prices
    (c := { c with gates := g :: rest.takeWhile (isReached factor) }) fun other member => (runPays other member).priced
  obtain ⟨new, newCost, -⟩ := relents.summing.circuitCost_of_prices
    (c := { c with gates := rewritten factor helper (g :: rest.takeWhile (isReached factor)) })
    fun other member => (rewrittenPays other member).priced
  exact ⟨⟨old, oldCost⟩, new, newCost⟩

/-- The saving of a factor is what the cost of its run falls by. If the run costs more than a word can count, it is
less than that. -/
theorem Proper.saves (proper : Proper m c helper g rest f) (summing : m.Summing) :
    0 < f.saving.toNat ∧ m.total c.lines f.gates + f.saving.toNat ≤ m.total c.lines f.run := by
  obtain ⟨old, new, oldCost, newCost, cheaper, saving⟩ := proper.cheaper
  have oldSum := (summing.circuitCost_eq_ok.mp oldCost).2
  have newSum := (summing.circuitCost_eq_ok.mp newCost).2
  change old.toNat = min (m.total c.lines f.run) _ at oldSum
  change new.toNat = min (m.total c.lines f.gates) _ at newSum
  have less := UInt64.lt_iff_toNat_lt.mp cheaper
  have difference : f.saving.toNat = old.toNat - new.toNat :=
    saving ▸ UInt64.toNat_sub_of_le _ _ (UInt64.le_of_lt cheaper)
  omega

/-- What the gates so far and the gates ahead cost, with what has been saved, does not exceed the budget. -/
structure Scan.Saves (m : CostModel) (lines budget : Nat) (ahead : List Gate) (s : Scan) : Prop where
  pays : ∀ g ∈ s.gates, m.Pays lines g
  saves : m.total lines s.gates + m.total lines ahead + s.report.saving.toNat ≤ budget
  counted : s.report.factors ≤ s.report.saving.toNat

namespace Scan.Saves

variable {lines : Nat} {ahead : List Gate}

theorem keep (saves : s.Saves m lines budget (g :: ahead)) (pays : m.Pays lines g) :
    (s.keep g).Saves m lines budget ahead := by
  refine ⟨List.forall_mem_append.mpr ⟨saves.pays, List.forall_mem_singleton.mpr pays⟩, ?_, saves.counted⟩
  have within := saves.saves
  have single : m.total lines [g] = m.price lines g := Nat.add_zero _
  rw [total_cons] at within
  simp only [Scan.keep, total_append, single]
  omega

/-- The counter of what has been saved does not overflow, as it stays within the budget. -/
theorem apply (helper : Nat) (saves : s.Saves m lines budget (f.run ++ ahead)) (fits : budget < UInt64.size)
    (pays : ∀ g ∈ f.gates, m.Pays lines g) (positive : 0 < f.saving.toNat)
    (saving : m.total lines f.gates + f.saving.toNat ≤ m.total lines f.run) :
    ∃ next, s.apply helper f = .ok next ∧ next.Saves m lines budget ahead := by
  have within := saves.saves
  have counted := saves.counted
  rw [total_append] at within
  have room : s.report.saving.toNat + f.saving.toNat < UInt64.size := by omega
  obtain ⟨sum, added, value⟩ := exists_checkedAdd room
  refine ⟨_, bind_eq_ok.mpr ⟨sum, added, rfl⟩, List.forall_mem_append.mpr ⟨saves.pays, pays⟩, ?_, ?_⟩
  · simp only [total_append]
    omega
  · change s.report.factors + 1 ≤ sum.toNat
    omega

end Scan.Saves

/-- A scan goes through, and what it saves is what its gates have become cheaper by. -/
theorem scan_saves (relents : m.Relents) (room : helper < c.lines) (fits : budget < UInt64.size) {skip : Nat}
    (formed : ∀ g ∈ rest, g.WellFormed helper) (pays : ∀ g ∈ rest, m.Pays c.lines g)
    (saves : s.Saves m c.lines budget (rest.drop skip)) :
    ∃ next, scan m c helper skip s rest = .ok next ∧ next.Saves m c.lines budget [] := by
  induction rest generalizing skip s with
  | nil => exact ⟨s, rfl, by simpa using saves⟩
  | cons g rest ih =>
    obtain ⟨headPays, tailPays⟩ := List.forall_mem_cons.mp pays
    have through : ∀ {skip : Nat} {s : Scan}, s.Saves m c.lines budget (rest.drop skip) →
        ∃ next, scan m c helper skip s rest = .ok next ∧ next.Saves m c.lines budget [] :=
      ih (List.forall_mem_cons.mp formed).2 tailPays
    cases skip with
    | succ skip => exact through saves
    | zero =>
      by_cases inverts : g.isToffoli = true
      · have searchable : g.Searchable := ⟨inverts, headPays.few inverts⟩
        have ready := Ready.of_formed inverts searchable.few room formed
        obtain ⟨chosen, search⟩ := ready.exists_best? (.of_relents relents searchable formed ready pays)
        cases chosen with
        | none =>
          rw [scan_keep fun _ => search]
          exact through (saves.keep headPays)
        | some f =>
          have proper := best?_proper search
          have serves := proper.serves inverts formed
          have ahead : s.Saves m c.lines budget (f.run ++ rest.drop (f.run.length - 1)) :=
            proper.run_append_drop ▸ saves
          have runPays : ∀ other ∈ f.run, m.Pays c.lines other :=
            fun other member => pays other (proper.run_append_drop ▸ List.mem_append_left _ member)
          have gatesPay : ∀ other ∈ f.gates, m.Pays c.lines other :=
            proper.gates_eq serves room ▸ serves.rewritten_pays relents proper.isFactor searchable runPays
          obtain ⟨positive, saving⟩ := proper.saves relents.summing
          obtain ⟨next, applied, saved⟩ := ahead.apply helper fits gatesPay positive saving
          -- The whole run is behind the scan now, and its other gates are skipped.
          rw [scan_apply inverts search, applied, ok_bind]
          exact through saved
      · rw [scan_keep fun yes => absurd yes inverts]
        exact through (saves.keep headPays)

/-- What a circuit costs, with what has been saved, does not exceed the budget. -/
structure Affords (m : CostModel) (budget : Nat) (c : Circuit) (report : Report) : Prop where
  formed : c.WellFormed
  pays : ∀ g ∈ c.gates, m.Pays c.lines g
  saves : m.total c.lines c.gates + report.saving.toNat ≤ budget
  counted : report.factors ≤ report.saving.toNat

theorem addHelper_affords (relents : m.Relents) (fits : budget < UInt64.size) {before : Report}
    (affords : Affords m budget c before) :
    ∃ d after, addHelper m c before = .ok (d, after) ∧ Affords m budget d after := by
  let extended := c.addLine helperWire
  let start : Scan := { report := { before with helperLines := before.helperLines + 1 } }
  have room : c.lines < extended.lines := by simp [extended, Circuit.addLine, Circuit.lines]
  have pays : ∀ g ∈ c.gates, m.Pays extended.lines g := fun g member => (affords.pays g member).wider room.le
  have eased : m.total extended.lines c.gates ≤ m.total c.lines c.gates :=
    total_le_of_eases (fun g member => (affords.pays g member).eases) room.le
      fun g member => (affords.pays g member).priced
  have within := affords.saves
  have startSaves : start.Saves m extended.lines budget c.gates := by
    refine ⟨fun _ member => absurd member List.not_mem_nil, ?_, affords.counted⟩
    change 0 + m.total extended.lines c.gates + before.saving.toNat ≤ budget
    omega
  have scans : ∃ s, scan m extended c.lines 0 start c.gates = .ok s ∧ s.Saves m extended.lines budget [] :=
    scan_saves relents room fits affords.formed pays startSaves
  obtain ⟨s, scanned, saves⟩ := scans
  have added : addHelper m c before =
      .ok ({ extended with gates := s.lastClearing.elim s.gates s.gates.eraseIdx }, s.report) :=
    bind_eq_ok.mpr ⟨s, scanned, rfl⟩
  refine ⟨_, _, added, (addHelper_extends affords.formed added).formed,
    fun g member => saves.pays g ((cleared_sublist _ _).mem member), ?_, saves.counted⟩
  exact (Nat.add_le_add_right (total_le_of_sublist (cleared_sublist _ _)) _).trans saves.saves

theorem addHelpers_affords (relents : m.Relents) (fits : budget < UInt64.size) {count : Nat} {before : Report}
    (affords : Affords m budget c before) :
    ∃ d after, addHelpers m count c before = .ok (d, after) ∧ Affords m budget d after := by
  induction count generalizing c before with
  | zero => exact ⟨c, before, rfl, affords⟩
  | succ count ih =>
    obtain ⟨middle, report, first, affords⟩ := addHelper_affords relents fits affords
    obtain ⟨d, after, rest, affords⟩ := ih affords
    exact ⟨d, after, bind_eq_ok.mpr ⟨(middle, report), first, rest⟩, affords⟩

/-- Under a cost that more lines never raise, adding helper lines goes through, and the cost falls by at least what is
reported, which is at least one for every factor. Quantum costs do not rise for gates with fewer than `2 ^ 32` controls,
and costs that do not look at the lines for any gates. -/
theorem run_saves_at_least (f : Factoring) {c : Circuit} (formed : c.WellFormed)
    (few : ∀ g ∈ c.gates, g.isToffoli = true → g.controls.size < 64) (relents : f.cost.Relents)
    (eases : ∀ g ∈ c.gates, f.cost.Eases g) {before : UInt64} (priced : f.cost.circuitCost c = .ok before)
    (fits : f.cost.total c.lines c.gates < UInt64.size) :
    ∃ d report after, f.run c = .ok (d, report) ∧ f.cost.circuitCost d = .ok after ∧
      after.toNat + report.saving.toNat ≤ before.toNat ∧ report.factors ≤ report.saving.toNat ∧
      (0 < report.factors → after < before) := by
  obtain ⟨prices, sum⟩ := relents.summing.circuitCost_eq_ok.mp priced
  have affords : Affords f.cost (f.cost.total c.lines c.gates) c {} :=
    ⟨formed, fun g member => ⟨few g member, prices g member, eases g member⟩, le_rfl, le_rfl⟩
  obtain ⟨d, report, run, affords⟩ := addHelpers_affords relents fits affords
  obtain ⟨after, cost, value⟩ := relents.summing.circuitCost_of_prices fun g member => (affords.pays g member).priced
  have saves := affords.saves
  have counted := affords.counted
  have top : UInt64.size - 1 + 1 = UInt64.size := rfl
  refine ⟨d, report, after, run, cost, by omega, counted, fun some => UInt64.lt_iff_toNat_lt.mpr (by omega)⟩

/-- Two groups of gates with common controls around a gate that costs less among more lines. -/
def grouped : Circuit :=
  { Circuit.blank 6 with gates := [.toffoli (.ofList [0, 1, 2]) 3, .toffoli (.ofList [0, 1, 2]) 4,
      .fredkin (.ofList [0, 1, 2]) 3 4, .toffoli (.ofList [0, 1, 2, 3]) 4, .toffoli (.ofList [0, 1, 2]) 3] }

theorem run_saves_at_least_grouped :
    let f : Factoring := { helperLines := 2 }
    grouped.WellFormed ∧ (∀ g ∈ grouped.gates, g.isToffoli = true → g.controls.size < 64) ∧ f.cost.Relents ∧
      (∀ g ∈ grouped.gates, f.cost.Eases g) ∧ f.cost.circuitCost grouped = .ok 99 ∧
      f.cost.total grouped.lines grouped.gates < UInt64.size ∧
      ∃ d report after, f.run grouped = .ok (d, report) ∧ report.factors = 3 ∧ report.saving = 19 ∧
        f.cost.circuitCost d = .ok after ∧ after.toNat + 19 ≤ 99 ∧ after < 99 := by
  intro f
  have formed : grouped.WellFormed := by decide
  have few : ∀ g ∈ grouped.gates, g.isToffoli = true → g.controls.size < 64 := by decide
  have word : ∀ g ∈ grouped.gates, g.controls.size < UInt32.size := by decide
  have eases : ∀ g ∈ grouped.gates, f.cost.Eases g := fun g member => quantum_eases (word g member)
  have priced : f.cost.circuitCost grouped = .ok 99 := by decide +kernel
  have fits : f.cost.total grouped.lines grouped.gates < UInt64.size := by decide +kernel
  have reports : (f.run grouped).map (fun out => (out.2.factors, out.2.saving)) = .ok (3, 19) := by decide +kernel
  obtain ⟨d, report, after, run, cost, saves, counted, cheaper⟩ :=
    run_saves_at_least f formed few quantum_relents eases priced fits
  rw [run] at reports
  obtain ⟨factors, saving⟩ := Prod.mk.inj (Except.ok.inj reports)
  change report.factors = 3 at factors
  change report.saving = 19 at saving
  rw [saving] at saves
  exact ⟨formed, few, quantum_relents, eases, priced, fits, d, report, after, run, factors, saving, cost, saves,
    cheaper (by omega)⟩

end Factoring

end Reversible
