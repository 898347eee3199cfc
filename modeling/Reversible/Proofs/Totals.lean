import Reversible.Proofs.Factoring.InPlace
import Reversible.Proofs.Factoring.Saving
import Reversible.Proofs.Peephole.Saving
import Reversible.Synthesis.Transformation

namespace Reversible

/-- Every gate has a price, and the prices are added up as far as a word can count. -/
def CostModel.ofPrices (price : Gate → Nat → UInt64) : CostModel := ofGateCost fun g lines => .ok (price g lines)

theorem CostModel.exists_ofPrices (price : Gate → Nat → UInt64) (c : Circuit) :
    ∃ cost, (ofPrices price).circuitCost c = .ok cost := by
  have summing : (ofPrices price).Summing := rfl
  obtain ⟨cost, found, -⟩ := summing.circuitCost_of_prices (c := c) fun g _ => ⟨price g c.lines, rfl⟩
  exact ⟨cost, found⟩

namespace Factoring

/-- What factors save together, however much that is. -/
def savings (fs : List Factored) : Nat := (fs.map (·.saving.toNat)).sum

theorem savings_cons (f : Factored) (fs : List Factored) : savings (f :: fs) = f.saving.toNat + savings fs := rfl

theorem savings_append (fs others : List Factored) : savings (fs ++ others) = savings fs + savings others := by
  unfold savings
  rw [List.map_append, List.sum_append]

variable {cost : CostModel} {c d : Circuit} {helper count : Nat} {g : Gate} {rest : List Gate} {f : Factored}
  {s t e : Cursor} {fs : List Factored} {factors : List (List Factored)}

theorem Scan.sumsTo_apply (s : Scan) (helper : Nat) (f : Factored) :
    SumsTo (s.report.saving.toNat + f.saving.toNat) (s.apply helper f) fun next =>
      s.apply helper f = .ok next ∧ next.report.saving.toNat = s.report.saving.toNat + f.saving.toNat := by
  unfold Scan.apply
  refine (SumsTo.checkedAdd s.report.saving f.saving).bind le_rfl fun sum value => ?_
  have word : s.report.saving.toNat + f.saving.toNat < UInt64.size := value ▸ sum.toNat_lt
  refine .of_ok word ⟨?_, value⟩
  rw [checkedAdd_eq_ok.mpr value]
  rfl

/-- A scan adds up what the factors of its turns save. -/
theorem Sweeps.sumsTo {s : Scan} {skip : Nat} (sweeps : Sweeps cost helper (s.cursor c (rest.drop skip)) fs e) :
    SumsTo (s.report.saving.toNat + savings fs) (scan cost c helper skip s rest) fun next =>
      next.cursor c [] = e ∧ next.report.saving.toNat = s.report.saving.toNat + savings fs := by
  induction rest generalizing skip s fs with
  | nil =>
    rw [List.drop_nil] at sweeps
    cases sweeps with
    | done past => exact .of_ok s.report.saving.toNat_lt ⟨rfl, rfl⟩
    | turn first later =>
      obtain ⟨g, rest, ahead, -⟩ := Scan.advances_cases first
      cases ahead
  | cons g rest ih =>
    cases skip with
    | succ skip => exact ih sweeps
    | zero =>
      cases sweeps with
      | done past => cases Scan.drop_cursor.symm.trans (List.drop_eq_nil_of_le past)
      | @turn _ _ t others _ first later =>
        obtain ⟨_, _, ahead, turn⟩ := Scan.advances_cases first
        cases ahead
        rcases turn with ⟨rfl, rfl, kept⟩ | ⟨f, rfl, inverts, search, next⟩
        · rw [scan_keep kept]
          have later : Sweeps cost helper ((s.keep g).cursor c (rest.drop 0)) others e := later
          exact ih later
        -- The scan still has to skip the other gates of the run, which the sweep has behind it.
        · rw [scan_apply inverts search, List.singleton_append, savings_cons]
          refine (s.sumsTo_apply helper f).bind (by omega) fun applied ⟨application, value⟩ => ?_
          rw [← Nat.add_assoc, ← value]
          exact ih (next applied application ▸ later)

/-- Adding helper lines adds up what all the factors save. -/
theorem Widens.sumsTo (widens : Widens cost count c factors d) (before : Report) :
    SumsTo (before.saving.toNat + savings factors.flatten) (addHelpers cost count c before) fun out =>
      out.1 = d ∧ out.2.saving.toNat = before.saving.toNat + savings factors.flatten := by
  induction widens generalizing before with
  | none => exact .of_ok before.saving.toNat_lt ⟨rfl, rfl⟩
  | @add count c fs e others d swept later ih =>
    let start : Scan := { report := { before with helperLines := before.helperLines + 1 } }
    have swept : Sweeps cost c.lines (start.cursor (c.addLine helperWire) (c.gates.drop 0)) fs e := swept
    have first : SumsTo (before.saving.toNat + savings fs) (addHelper cost c before) fun out =>
        out.1 = e.finish ∧ out.2.saving.toNat = before.saving.toNat + savings fs := by
      refine swept.sumsTo.bind le_rfl fun s ⟨ends, value⟩ => .of_ok (value ▸ s.report.saving.toNat_lt) ⟨?_, value⟩
      rw [← ends, Scan.finish_cursor]
      rfl
    rw [List.flatten_cons, savings_append, ← Nat.add_assoc]
    refine first.bind (Nat.le_add_right _ _) fun ⟨middle, report⟩ ⟨same, value⟩ => ?_
    obtain rfl : middle = e.finish := same
    have value : report.saving.toNat = before.saving.toNat + savings fs := value
    rw [← value]
    exact ih report

/-- All lines but the helper line are those of the gates ahead, and all Toffoli gates have few controls. -/
structure Cursor.Sound (helper : Nat) (s : Cursor) : Prop where
  lines : s.circuit.lines = helper + 1
  formed : s.circuit.WellFormed
  few : ∀ g ∈ s.circuit.gates, g.isToffoli = true → g.controls.size < 64
  ahead : ∀ g ∈ s.circuit.gates.drop s.position, g.WellFormed helper

theorem Cursor.Sound.ready (sound : s.Sound helper) (ahead : s.circuit.gates.drop s.position = g :: rest)
    (inverts : g.isToffoli = true) : Ready s.circuit helper g rest := by
  have member : g ∈ s.circuit.gates := (List.drop_sublist s.position _).mem (ahead ▸ List.mem_cons_self)
  refine .of_formed inverts (sound.few g member inverts) ?_ (ahead ▸ sound.ahead)
  rw [sound.lines]
  exact Nat.lt_succ_self helper

theorem Advances.sound (advances : Advances cost helper s fs t) (sound : s.Sound helper) : t.Sound helper := by
  cases advances with
  | pass ahead kept =>
    refine ⟨sound.lines, sound.formed, sound.few, fun g member => sound.ahead g ?_⟩
    exact (List.drop_sublist_drop_left _ (Nat.le_succ s.position)).mem member
  | @replace g rest f ahead inverts found =>
    have proper := best?_proper found
    have formed : ∀ other ∈ g :: rest, other.WellFormed helper := ahead ▸ sound.ahead
    have serves := proper.serves inverts formed
    have ready := sound.ready ahead inverts
    have gates := proper.gates_eq serves ready.room
    have runFew : ∀ other ∈ f.run, other.isToffoli = true → other.controls.size < 64 := by
      intro other member
      have inAhead : other ∈ s.circuit.gates.drop s.position := proper.placed ahead ▸ List.mem_append_left _ member
      exact sound.few other ((List.drop_sublist _ _).mem inAhead)
    have searchable : ∀ other ∈ f.gates, other.Searchable :=
      gates ▸ serves.rewritten_searchable proper.isFactor ⟨inverts, ready.few⟩ runFew
    refine ⟨sound.lines, fun other member => ?_, fun other member toffoli => ?_, fun other member => ?_⟩
    · rcases Cursor.mem_replace member with old | new
      · exact sound.formed other old
      · change other.WellFormed s.circuit.lines
        rw [sound.lines]
        exact serves.rewritten_wellFormed other (gates ▸ new)
    · exact (Cursor.mem_replace member).elim (fun old => sound.few other old toffoli) fun new => (searchable other new).few
    · rw [proper.drop_replace ahead] at member
      exact sound.ahead other ((List.drop_sublist_drop_left _ (Nat.le_add_right _ _)).mem member)

/-- Whatever gates cost, a scan comes to its end. -/
theorem Cursor.Sound.exists_sweeps (total : ∀ c, ∃ price, cost.circuitCost c = .ok price) {s : Cursor}
    (sound : s.Sound helper) : ∃ fs e, Sweeps cost helper s fs e ∧ e.Sound helper := by
  induction s using (advances_wellFounded cost helper).induction with
  | _ s ih =>
    -- It takes a turn wherever it stands.
    have onward : ∀ {fs t}, Advances cost helper s fs t → ∃ fs e, Sweeps cost helper s fs e ∧ e.Sound helper := by
      intro fs t advances
      obtain ⟨others, e, swept, ends⟩ := ih t ⟨fs, advances⟩ (advances.sound sound)
      exact ⟨fs ++ others, e, .turn advances swept, ends⟩
    cases ahead : s.circuit.gates.drop s.position with
    | nil => exact ⟨[], s, .done (List.drop_eq_nil_iff.mp ahead), sound⟩
    | cons g rest =>
      by_cases inverts : g.isToffoli = true
      · have ready := sound.ready ahead inverts
        have priced : Priced cost s.circuit helper g rest := fun _ _ _ _ => ⟨total _, total _⟩
        obtain ⟨best, search⟩ := ready.exists_best? priced
        cases best with
        | none => exact onward (.pass ahead fun _ => search)
        | some f => exact onward (.replace ahead inverts search)
      · exact onward (.pass ahead fun yes => absurd yes inverts)

theorem exists_widens (total : ∀ c, ∃ price, cost.circuitCost c = .ok price) (count : Nat) {c : Circuit}
    (formed : c.WellFormed) (few : ∀ g ∈ c.gates, g.isToffoli = true → g.controls.size < 64) :
    ∃ factors d, Widens cost count c factors d := by
  induction count generalizing c with
  | zero => exact ⟨[], c, .none⟩
  | succ count ih =>
    have lines : (c.addLine helperWire).lines = c.lines + 1 := by simp [Circuit.addLine, Circuit.lines]
    have start : Cursor.Sound c.lines { circuit := c.addLine helperWire } := by
      refine ⟨lines, fun g member => ?_, few, formed⟩
      exact lines ▸ (formed g member).mono (Nat.le_succ c.lines)
    obtain ⟨fs, e, swept, ends⟩ := start.exists_sweeps total
    have kept : e.finish.gates.Sublist e.circuit.gates := cleared_sublist _ _
    have finished : e.finish.WellFormed := fun g member => ends.formed g (kept.mem member)
    obtain ⟨factors, d, widened⟩ := ih finished fun g member => ends.few g (kept.mem member)
    exact ⟨fs :: factors, d, .add swept widened⟩

end Factoring

/-- Although no circuit costs more than a word can count, what is saved over a run may be more. Adding helper lines stops
exactly if the factors together save more than a word can hold, and otherwise reports what they save, whatever gates cost.
In the same way, the saving of a run that replaces windows is that of all its replacements if a word can hold it, and
there is no answer if not. -/
theorem reported_savings_exact (price : Gate → Nat → UInt64) :
    (∀ (helperLines : Nat) (c : Circuit), c.WellFormed → (∀ g ∈ c.gates, g.isToffoli = true → g.controls.size < 64) →
      ∃ factors d, Factoring.Widens (.ofPrices price) helperLines c factors d ∧
        SumsTo (Factoring.savings factors.flatten) (Factoring.run ⟨helperLines, .ofPrices price⟩ c) fun out =>
          out.1 = d ∧ out.2.saving.toNat = Factoring.savings factors.flatten) ∧
      ∀ (σ : Type) (o : Peephole σ) (selector : σ) (c : Circuit) (s : Peephole.State σ),
        o.run selector c = .ok (some s) →
          SumsTo (Peephole.saved s.report.replacements) s.report.saving fun saving =>
            saving.toNat = Peephole.saved s.report.replacements := by
  refine ⟨fun helperLines c formed few => ?_, fun σ o selector c s run => ?_⟩
  · obtain ⟨factors, d, widened⟩ := Factoring.exists_widens (CostModel.exists_ofPrices price) helperLines formed few
    have sums := widened.sumsTo {}
    have nothing : ({} : Factoring.Report).saving.toNat = 0 := rfl
    rw [nothing, Nat.zero_add] at sums
    exact ⟨factors, d, widened, sums⟩
  · have cheapens := (Peephole.run_reaches run).cheapens nofun
    have sums := Peephole.sumsTo_saved cheapens 0
    rw [UInt64.toNat_zero, Nat.zero_add] at sums
    exact sums

/-- Gates with more than two controls have a price, and the others cost nothing. -/
def dear (top : UInt64) (g : Gate) (_ : Nat) : UInt64 := if g.controls.size ≤ 2 then 0 else top

/-- Two equal gates that no factor reaches across. -/
def Factoring.separated : Circuit :=
  { Circuit.blank 5 with gates := [.toffoli (.ofList [0, 1, 2]) 3, .fredkin .empty 3 4, .toffoli (.ofList [0, 1, 2]) 3] }

/-- Twice two gates that cancel each other. -/
def Peephole.repeated : Circuit :=
  { Circuit.blank 4 with gates := [.toffoli (.ofList [0, 1, 2]) 3, .toffoli (.ofList [0, 1, 2]) 3, .toffoli .empty 3,
      .toffoli (.ofList [0, 1, 2]) 3, .toffoli (.ofList [0, 1, 2]) 3] }

def Peephole.pairwise (top : UInt64) : Peephole Sliding :=
  ⟨Sliding.select, .resynthesis simulate ({} : Transformation).synthesizer 16, .ofPrices (dear top)⟩

theorem reported_savings_exact_separated :
    Factoring.separated.WellFormed ∧ (∀ g ∈ Factoring.separated.gates, g.isToffoli = true → g.controls.size < 64) ∧
      (∃ factors d report, Factoring.Widens (.ofPrices (dear 10)) 1 Factoring.separated factors d ∧
        Factoring.savings factors.flatten = 20 ∧
        Factoring.run ⟨1, .ofPrices (dear 10)⟩ Factoring.separated = .ok (d, report) ∧ report.saving = 20) ∧
      ∃ s, (Peephole.pairwise 10).run { length := 2 } Peephole.repeated = .ok (some s) ∧
        s.report.replacements = [(20, 0), (20, 0)] ∧ ∃ saving, s.report.saving = .ok saving ∧ saving.toNat = 40 := by
  have formed : Factoring.separated.WellFormed := by decide
  have few : ∀ g ∈ Factoring.separated.gates, g.isToffoli = true → g.controls.size < 64 := by decide
  have reports : (Factoring.run ⟨1, .ofPrices (dear 10)⟩ Factoring.separated).map (·.2.saving) = .ok 20 := by
    decide +kernel
  have ends : ((Peephole.pairwise 10).run { length := 2 } Peephole.repeated).map
      (Option.map (·.report.replacements)) = .ok (some [(20, 0), (20, 0)]) := by decide +kernel
  obtain ⟨helpers, windows⟩ := reported_savings_exact (dear 10)
  obtain ⟨factors, d, widened, sums⟩ := helpers 1 Factoring.separated formed few
  obtain ⟨s, run, replacements⟩ := exists_of_map_map_eq ends
  have saved : Peephole.saved s.report.replacements = 40 := by rw [replacements]; rfl
  obtain ⟨saving, found, value⟩ := (windows _ _ _ _ _ run).fits (saved ▸ by decide)
  refine ⟨formed, few, ?_, s, run, replacements, saving, found, value.trans saved⟩
  rcases Nat.lt_or_ge (Factoring.savings factors.flatten) UInt64.size with word | beyond
  · obtain ⟨⟨e, report⟩, finished, rfl, value⟩ := sums.fits word
    rw [finished] at reports
    have reported : report.saving = 20 := Except.ok.inj reports
    have sum : Factoring.savings factors.flatten = 20 := value.symm.trans (congrArg UInt64.toNat reported)
    exact ⟨factors, e, report, widened, sum, finished, reported⟩
  · rw [sums.overflows beyond] at reports
    cases reports

/-- Where a gate costs as much as a word can count, two savings are too much for the report, though each circuit has a
cost. -/
theorem reported_savings_overflow :
    Factoring.separated.WellFormed ∧ (∀ g ∈ Factoring.separated.gates, g.isToffoli = true → g.controls.size < 64) ∧
      Factoring.run ⟨1, .ofPrices (dear 18446744073709551615)⟩ Factoring.separated = .error .overflow ∧
      Peephole.repeated.WellFormed ∧ (∀ g ∈ Peephole.repeated.gates, g.isToffoli = true → g.controls.size < 64) ∧
      ∃ s, (Peephole.pairwise 18446744073709551615).run { length := 2 } Peephole.repeated = .ok (some s) ∧
        s.report.saving = .error .overflow := by
  have stops : (Factoring.run ⟨1, .ofPrices (dear 18446744073709551615)⟩ Factoring.separated).map Prod.fst =
      .error .overflow := by decide +kernel
  have ends : ((Peephole.pairwise 18446744073709551615).run { length := 2 } Peephole.repeated).map
      (Option.map (·.report.saving)) = .ok (some (.error .overflow)) := by decide +kernel
  obtain ⟨s, run, saving⟩ := exists_of_map_map_eq ends
  refine ⟨by decide, by decide, ?_, by decide, by decide, s, run, saving⟩
  cases run : Factoring.run ⟨1, .ofPrices (dear 18446744073709551615)⟩ Factoring.separated with
  | error fault =>
    rw [run] at stops
    cases stops
    rfl
  | ok out =>
    rw [run] at stops
    cases stops

end Reversible
