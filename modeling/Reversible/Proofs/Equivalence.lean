import Reversible.Proofs.LineReduction.Function
import Reversible.Proofs.LineReduction.Interface

namespace Reversible

variable {α β : Type}

theorem mapM_eq_some {f : α → Option β} {g : α → β} {xs : List α} (each : ∀ x ∈ xs, f x = some (g x)) :
    xs.mapM f = some (xs.map g) := by
  induction xs with
  | nil => rfl
  | cons x rest ih =>
    obtain ⟨head, tail⟩ := List.forall_mem_cons.mp each
    rw [List.mapM_cons, head, ih tail]
    rfl

theorem isSome_of_mapM_eq_some {f : α → Option β} {xs : List α} {ys : List β} (run : xs.mapM f = some ys) :
    ∀ x ∈ xs, (f x).isSome = true := by
  induction xs generalizing ys with
  | nil => exact nofun
  | cons x rest ih =>
    rw [List.mapM_cons] at run
    obtain ⟨y, head, run⟩ := Option.bind_eq_some_iff.mp run
    obtain ⟨tail, others, _⟩ := Option.bind_eq_some_iff.mp run
    exact List.forall_mem_cons.mpr ⟨by rw [head]; rfl, ih others⟩

namespace Circuit

variable {c d e : Circuit} {v : String → Bool} {name : String} {i j line : Nat}

/-- No name is used twice on either side, and the free inputs are few enough to try all their values. -/
structure Comparable (c : Circuit) : Prop where
  formed : c.WellFormed
  inputs : c.freeInputs.Nodup
  outputs : c.readOutputs.Nodup
  few : c.freeInputs.length ≤ maxEnumeratedInputs

instance (c : Circuit) : Decidable c.Comparable :=
  decidable_of_iff
    (c.WellFormed ∧ c.freeInputs.Nodup ∧ c.readOutputs.Nodup ∧ c.freeInputs.length ≤ maxEnumeratedInputs)
    ⟨fun ⟨formed, inputs, outputs, few⟩ => ⟨formed, inputs, outputs, few⟩,
      fun comparable => ⟨comparable.formed, comparable.inputs, comparable.outputs, comparable.few⟩⟩

/-- Simulated from the values `v` of the named inputs, the line ends with `value`. -/
def Yields (c : Circuit) (v : String → Bool) (line : Nat) (value : Bool) : Prop :=
  ∃ output, simulate c (c.inputFor v) = .ok output ∧ output.get line = .ok value

/-- The circuits have the same free inputs and the same outputs that are read, and from the same values of the inputs
every output has the same value. -/
structure Agrees (c d : Circuit) : Prop where
  inputs : ∀ name, name ∈ c.freeInputs ↔ name ∈ d.freeInputs
  outputs : ∀ name, name ∈ c.readOutputs ↔ name ∈ d.readOutputs
  values : ∀ v name i j, (name, i) ∈ c.observables → (name, j) ∈ d.observables →
    ∃ value, c.Yields v i value ∧ d.Yields v j value

/-- What all lines hold after the gates, from the values `v` of the named inputs. -/
def settled (c : Circuit) (v : String → Bool) : Assignment := act c.gates (c.wired v)

theorem yields_iff (formed : c.WellFormed) (inside : line < c.lines) {value : Bool} :
    c.Yields v line value ↔ c.settled v line = value := by
  unfold Yields
  rw [simulate_inputFor formed]
  simp only [Except.ok.injEq, exists_eq_left', Bits.get_pack inside]
  rfl

/-- Only the values of the names that are free inputs matter. -/
theorem inputFor_congr {u : String → Bool} (same : ∀ name ∈ c.freeInputs, v name = u name) :
    c.inputFor v = c.inputFor u := by
  refine congrArg Bits.ofBools (List.map_congr_left fun w member => ?_)
  unfold Wire.start
  cases constant : w.constant with
  | some value => rfl
  | none => exact same w.input (List.mem_map.mpr ⟨w, List.mem_filter.mpr ⟨member, by rw [constant]; rfl⟩, rfl⟩)

theorem settled_congr (formed : c.WellFormed) {u : String → Bool} (same : ∀ name ∈ c.freeInputs, v name = u name)
    (inside : line < c.lines) : c.settled v line = c.settled u line := by
  have yields : c.Yields u line (c.settled u line) := (yields_iff formed inside).mpr rfl
  unfold Yields at yields
  rw [← inputFor_congr same] at yields
  exact (yields_iff formed inside).mp yields

/-- The values of the names in `names` when the inputs have the bits of `x`. -/
def valuation (names : List String) (x : Nat) : String → Bool :=
  fun name => x.testBit (names.length - 1 - names.reverse.idxOf name)

theorem answer_eq (c : Circuit) (names : List String) (x : Nat) :
    c.answer simulate (c.wires.map (·.source names)) x = simulate c (c.inputFor (valuation names x)) := by
  have bits : (c.wires.map (·.source names)).map (·.value x) = c.wires.map (·.start (valuation names x)) := by
    rw [List.map_map]
    refine List.map_congr_left fun w _ => ?_
    rw [Function.comp_apply, Wire.source, Wire.start]
    cases w.constant <;> rfl
  unfold answer inputFor
  rw [bits]

/-- All values of the names are tried. -/
theorem exists_valuation (names : List String) (v : String → Bool) :
    ∃ x < 2 ^ names.length, ∀ name ∈ names, valuation names x name = v name := by
  have below := numberOf_lt (names.map v)
  rw [List.length_map] at below
  refine ⟨numberOf (names.map v), below, fun name member => ?_⟩
  have position : names.reverse.idxOf name < names.reverse.length :=
    List.idxOf_lt_length_of_mem (List.mem_reverse.mpr member)
  have found := List.getElem_idxOf position
  rw [List.getElem_reverse] at found
  unfold valuation
  rw [testBit_numberOf, List.getD_eq_getElem _ _ (by rw [List.length_reverse] at position; simp; omega),
    List.getElem_map, found]

theorem map_fst_observables (c : Circuit) : c.observables.map Prod.fst = c.readOutputs := by
  rw [observables_eq_map, readOutputs_eq_map, List.map_map]
  rfl

theorem mem_readOutputs : name ∈ c.readOutputs ↔ ∃ line, (name, line) ∈ c.observables := by
  rw [← map_fst_observables]
  simp

theorem outputLine_eq_some (distinct : c.readOutputs.Nodup) :
    c.outputLine? name = some line ↔ (name, line) ∈ c.observables := by
  have reversed : (c.observables.reverse.map Prod.fst).Nodup := by
    rw [List.map_reverse, map_fst_observables]
    exact List.nodup_reverse.mpr distinct
  exact (lookup_eq_some_iff_mem reversed).trans List.mem_reverse

theorem isSome_outputLine (distinct : c.readOutputs.Nodup) :
    (c.outputLine? name).isSome = true ↔ name ∈ c.readOutputs := by
  simp only [Option.isSome_iff_exists, outputLine_eq_some distinct, mem_readOutputs]

theorem inputNames_sorted (c : Circuit) : c.inputNames.Pairwise (· ≤ ·) := by
  have transitive (x y z : String) : decide (x ≤ y) = true → decide (y ≤ z) = true → decide (x ≤ z) = true := by
    simpa using String.le_trans
  have total (x y : String) : (decide (x ≤ y) || decide (y ≤ x)) = true := by simpa using String.le_total x y
  exact (List.pairwise_mergeSort transitive total c.freeInputs).imp of_decide_eq_true

theorem inputNames_eq {names : List String} (perm : c.freeInputs.Perm names) (sorted : names.Pairwise (· ≤ ·)) :
    c.inputNames = names :=
  List.Perm.eq_of_pairwise (fun _ _ _ _ => String.le_antisymm) c.inputNames_sorted sorted
    ((List.mergeSort_perm _ _).trans perm)

theorem inputNames_eq_iff (left : c.freeInputs.Nodup) (right : d.freeInputs.Nodup) :
    c.inputNames = d.inputNames ↔ ∀ name, name ∈ c.freeInputs ↔ name ∈ d.freeInputs := by
  constructor
  · intro same name
    have member : name ∈ c.inputNames ↔ name ∈ d.inputNames := iff_of_eq (congrArg (name ∈ ·) same)
    exact List.mem_mergeSort.symm.trans (member.trans List.mem_mergeSort)
  · intro same
    have perm : c.freeInputs.Perm d.freeInputs := (List.perm_ext_iff_of_nodup left right).mpr same
    exact inputNames_eq (perm.trans (List.mergeSort_perm _ _).symm) d.inputNames_sorted

/-- The lines of each output name in both circuits, where the other circuit has all the names. -/
def pairing (c d : Circuit) : List (Nat × Nat) :=
  c.observables.map fun (name, line) => (line, (d.outputLine? name).getD 0)

theorem mem_pairing (right : d.readOutputs.Nodup) (same : ∀ name, name ∈ c.readOutputs ↔ name ∈ d.readOutputs) :
    (i, j) ∈ c.pairing d ↔ ∃ name, (name, i) ∈ c.observables ∧ (name, j) ∈ d.observables := by
  unfold pairing
  rw [List.mem_map]
  constructor
  · rintro ⟨⟨name, line⟩, member, equal⟩
    cases equal
    obtain ⟨k, other⟩ := mem_readOutputs.mp ((same name).mp (mem_readOutputs.mpr ⟨_, member⟩))
    refine ⟨name, member, ?_⟩
    rwa [(outputLine_eq_some right).mpr other]
  · rintro ⟨name, member, other⟩
    exact ⟨(name, i), member, by simp only [(outputLine_eq_some right).mpr other, Option.getD_some]⟩

theorem pairedOutputs_eq_pairing (left : c.readOutputs.Nodup) (right : d.readOutputs.Nodup)
    (same : ∀ name, name ∈ c.readOutputs ↔ name ∈ d.readOutputs) : c.pairedOutputs? d = some (c.pairing d) := by
  have all : d.observables.all (fun (name, _) => (c.outputLine? name).isSome) = true :=
    List.all_eq_true.mpr fun entry member =>
      (isSome_outputLine left).mpr ((same _).mpr (mem_readOutputs.mpr ⟨entry.2, member⟩))
  unfold pairedOutputs?
  rw [guard, if_pos all]
  refine mapM_eq_some fun entry member => ?_
  obtain ⟨k, other⟩ := mem_readOutputs.mp ((same entry.1).mp (mem_readOutputs.mpr ⟨entry.2, member⟩))
  simp only [(outputLine_eq_some left).mpr member, (outputLine_eq_some right).mpr other]
  rfl

theorem same_of_pairedOutputs (left : c.readOutputs.Nodup) (right : d.readOutputs.Nodup) {pairs : List (Nat × Nat)}
    (paired : c.pairedOutputs? d = some pairs) : ∀ name, name ∈ c.readOutputs ↔ name ∈ d.readOutputs := by
  unfold pairedOutputs? at paired
  obtain ⟨_, all, paired⟩ := Option.bind_eq_some_iff.mp paired
  have inC : d.observables.all (fun (name, _) => (c.outputLine? name).isSome) = true := by
    by_contra missing
    rw [guard, if_neg missing] at all
    cases all
  have inD := isSome_of_mapM_eq_some paired
  intro name
  constructor
  · intro member
    obtain ⟨i, member⟩ := mem_readOutputs.mp member
    obtain ⟨both, found⟩ := Option.isSome_iff_exists.mp (inD _ member)
    obtain ⟨_, _, found⟩ := Option.bind_eq_some_iff.mp found
    obtain ⟨k, other, _⟩ := Option.bind_eq_some_iff.mp found
    exact mem_readOutputs.mpr ⟨k, (outputLine_eq_some right).mp other⟩
  · intro member
    obtain ⟨j, member⟩ := mem_readOutputs.mp member
    exact (isSome_outputLine left).mp (List.all_eq_true.mp inC _ member)

theorem sameOutputs_pack {pairs : List (Nat × Nat)} {n k : Nat} (inside : ∀ i j, (i, j) ∈ pairs → i < n ∧ j < k)
    (σ τ : Assignment) :
    sameOutputs pairs (Bits.pack n σ) (Bits.pack k τ) = .ok (pairs.all fun (i, j) => σ i == τ j) :=
  allM_eq_ok fun (i, j) member => by
    obtain ⟨left, right⟩ := inside i j member
    simp only [Bits.get_pack left, Bits.get_pack right, ok_bind]
    rfl

/-- Circuits on which every output has the same value from the same values of the inputs. -/
theorem agrees_iff (left : c.WellFormed) (right : d.WellFormed) : c.Agrees d ↔
    (∀ name, name ∈ c.freeInputs ↔ name ∈ d.freeInputs) ∧ (∀ name, name ∈ c.readOutputs ↔ name ∈ d.readOutputs) ∧
      ∀ v name i j, (name, i) ∈ c.observables → (name, j) ∈ d.observables → c.settled v i = d.settled v j := by
  have values (v : String → Bool) (name : String) (i j : Nat) (inC : (name, i) ∈ c.observables)
      (inD : (name, j) ∈ d.observables) :
      (∃ value, c.Yields v i value ∧ d.Yields v j value) ↔ c.settled v i = d.settled v j := by
    simp only [yields_iff left (mem_observables inC), yields_iff right (mem_observables inD), exists_eq_left']
    exact eq_comm
  constructor
  · intro agrees
    exact ⟨agrees.inputs, agrees.outputs, fun v name i j inC inD =>
      (values v name i j inC inD).mp (agrees.values v name i j inC inD)⟩
  · rintro ⟨inputs, outputs, same⟩
    exact ⟨inputs, outputs, fun v name i j inC inD => (values v name i j inC inD).mpr (same v name i j inC inD)⟩

/-- Every assignment to the names is some number below the bound, so what holds from all the numbers holds from all
values. -/
theorem settled_all_iff (left : c.Comparable) (right : d.Comparable)
    (inputs : ∀ name, name ∈ c.freeInputs ↔ name ∈ d.freeInputs)
    (outputs : ∀ name, name ∈ c.readOutputs ↔ name ∈ d.readOutputs) :
    (∀ x < 2 ^ c.inputNames.length, ∀ i j, (i, j) ∈ c.pairing d →
      c.settled (valuation c.inputNames x) i = d.settled (valuation c.inputNames x) j) ↔
    ∀ v name i j, (name, i) ∈ c.observables → (name, j) ∈ d.observables → c.settled v i = d.settled v j := by
  constructor
  · intro numbers v name i j inC inD
    obtain ⟨x, below, values⟩ := exists_valuation c.inputNames v
    have free : ∀ name ∈ c.freeInputs, valuation c.inputNames x name = v name :=
      fun name member => values name (List.mem_mergeSort.mpr member)
    have same := numbers x below i j ((mem_pairing right.outputs outputs).mpr ⟨name, inC, inD⟩)
    have freeD : ∀ name ∈ d.freeInputs, valuation c.inputNames x name = v name :=
      fun name member => free name ((inputs name).mpr member)
    rwa [settled_congr left.formed free (mem_observables inC),
      settled_congr right.formed freeD (mem_observables inD)] at same
  · intro all x _ i j member
    obtain ⟨name, inC, inD⟩ := (mem_pairing right.outputs outputs).mp member
    exact all _ name i j inC inD

/-- From the bits of `x`, the paired outputs are compared as they are settled. -/
theorem compared_eq_ok (left : c.Comparable) (right : d.Comparable)
    (outputs : ∀ name, name ∈ c.readOutputs ↔ name ∈ d.readOutputs) (names : List String) (x : Nat) :
    (do
      sameOutputs (c.pairing d) (← c.answer simulate (c.wires.map (·.source names)) x)
        (← d.answer simulate (d.wires.map (·.source names)) x)) =
      Except.ok ((c.pairing d).all fun (i, j) =>
        c.settled (valuation names x) i == d.settled (valuation names x) j) := by
  have inside (i j : Nat) (member : (i, j) ∈ c.pairing d) : i < c.lines ∧ j < d.lines := by
    obtain ⟨name, inC, inD⟩ := (mem_pairing right.outputs outputs).mp member
    exact ⟨mem_observables inC, mem_observables inD⟩
  rw [answer_eq, answer_eq, simulate_inputFor left.formed, simulate_inputFor right.formed, ok_bind, ok_bind]
  exact sameOutputs_pack inside _ _

theorem equivalent_spec (left : c.Comparable) (right : d.Comparable) :
    ∃ answer, equivalent simulate c d = .ok answer ∧ (answer = true ↔ c.Agrees d) := by
  have names := inputNames_eq_iff left.inputs right.inputs
  rw [agrees_iff left.formed right.formed]
  unfold equivalent
  by_cases inputs : c.inputNames = d.inputNames
  · have few : c.inputNames.length ≤ maxEnumeratedInputs := (List.length_mergeSort _).trans_le left.few
    simp only [← inputs]
    rw [if_neg (not_not.mpr rfl), require_of few, ok_bind]
    by_cases outputs : ∀ name, name ∈ c.readOutputs ↔ name ∈ d.readOutputs
    · rw [pairedOutputs_eq_pairing left.outputs right.outputs outputs]
      refine ⟨_, (allFrom_eq_allM _ _ _).trans (allM_eq_ok fun x _ => compared_eq_ok left right outputs _ x), ?_⟩
      rw [← settled_all_iff left right (names.mp inputs) outputs]
      simp [names.mp inputs, outputs, Nat.one_shiftLeft]
    · cases paired : c.pairedOutputs? d with
      | none => exact ⟨false, rfl, by simp [outputs]⟩
      | some pairs => exact absurd (same_of_pairedOutputs left.outputs right.outputs paired) outputs
  · exact ⟨false, if_pos inputs, by simp [← names, inputs]⟩

theorem equivalent_eq_true_iff (left : c.Comparable) (right : d.Comparable) :
    equivalent simulate c d = .ok true ↔ c.Agrees d := by
  obtain ⟨answer, run, means⟩ := equivalent_spec left right
  rw [run, ← means]
  exact ⟨Except.ok.inj, congrArg Except.ok⟩

theorem line_unique (distinct : c.readOutputs.Nodup) (first : (name, i) ∈ c.observables)
    (second : (name, j) ∈ c.observables) : i = j :=
  Option.some.inj (((outputLine_eq_some distinct).mpr first).symm.trans ((outputLine_eq_some distinct).mpr second))

theorem Comparable.agrees_refl (self : c.Comparable) : c.Agrees c := by
  refine (agrees_iff self.formed self.formed).mpr
    ⟨fun _ => Iff.rfl, fun _ => Iff.rfl, fun v name i j first second => ?_⟩
  rw [line_unique self.outputs first second]

theorem Agrees.symm (agrees : c.Agrees d) : d.Agrees c := by
  refine ⟨fun name => (agrees.inputs name).symm, fun name => (agrees.outputs name).symm, fun v name i j inD inC => ?_⟩
  obtain ⟨value, left, right⟩ := agrees.values v name j i inC inD
  exact ⟨value, right, left⟩

theorem Agrees.trans (first : c.Agrees d) (second : d.Agrees e) : c.Agrees e := by
  refine ⟨fun name => (first.inputs name).trans (second.inputs name),
    fun name => (first.outputs name).trans (second.outputs name), fun v name i k inC inE => ?_⟩
  obtain ⟨j, inD⟩ := mem_readOutputs.mp ((first.outputs name).mp (mem_readOutputs.mpr ⟨i, inC⟩))
  obtain ⟨value, left, middle⟩ := first.values v name i j inC inD
  obtain ⟨other, again, right⟩ := second.values v name j k inD inE
  obtain ⟨output, run, found⟩ := middle
  obtain ⟨_, rerun, refound⟩ := again
  cases run.symm.trans rerun
  cases found.symm.trans refound
  exact ⟨value, left, right⟩

/-- On circuits that can be compared the check never fails and tells whether they agree, so it is reflexive, symmetric
and transitive. -/
theorem equivalent_decides (first : c.Comparable) (second : d.Comparable) (third : e.Comparable) :
    (∃ answer, equivalent simulate c d = .ok answer ∧ (answer = true ↔ c.Agrees d)) ∧
    equivalent simulate c c = .ok true ∧
    (equivalent simulate c d = .ok true → equivalent simulate d c = .ok true) ∧
    (equivalent simulate c d = .ok true → equivalent simulate d e = .ok true →
      equivalent simulate c e = .ok true) := by
  refine ⟨equivalent_spec first second, ?_⟩
  rw [equivalent_eq_true_iff first first, equivalent_eq_true_iff first second, equivalent_eq_true_iff second first,
    equivalent_eq_true_iff second third, equivalent_eq_true_iff first third]
  exact ⟨first.agrees_refl, Agrees.symm, Agrees.trans⟩

/-- The parity of two inputs beside the first of them. -/
def parity : Circuit :=
  ⟨[⟨"a", "x", none, false⟩, ⟨"b", "y", none, false⟩], [.toffoli (NatSet.ofList [0]) 1]⟩

/-- The same with the lines in another order and with a line between them that holds a copy for a while. -/
def helpedParity : Circuit :=
  ⟨[⟨"b", "y", none, false⟩, ⟨"c", "z", some false, true⟩, ⟨"a", "x", none, false⟩],
    [.toffoli (NatSet.ofList [2]) 1, .toffoli (NatSet.ofList [1]) 0, .toffoli (NatSet.ofList [2]) 1]⟩

/-- The same with a constant one among the controls. -/
def guardedParity : Circuit :=
  ⟨[⟨"c", "y", some true, true⟩, ⟨"a", "x", none, false⟩, ⟨"b", "y", none, false⟩],
    [.toffoli (NatSet.ofList [0, 1]) 2]⟩

theorem equivalent_decides_parity : parity.Comparable ∧ helpedParity.Comparable ∧ guardedParity.Comparable ∧
    (∃ answer, equivalent simulate parity helpedParity = .ok answer ∧
      (answer = true ↔ parity.Agrees helpedParity)) ∧
    equivalent simulate parity parity = .ok true ∧ equivalent simulate helpedParity parity = .ok true ∧
      equivalent simulate parity guardedParity = .ok true := by
  have first : parity.Comparable := by decide
  have second : helpedParity.Comparable := by decide
  have third : guardedParity.Comparable := by decide
  have names : parity.inputNames = ["a", "b"] := inputNames_eq (by decide) (by decide)
  have helpedNames : helpedParity.inputNames = ["a", "b"] := inputNames_eq (by decide) (by decide)
  have guardedNames : guardedParity.inputNames = ["a", "b"] := inputNames_eq (by decide) (by decide)
  have helped : equivalent simulate parity helpedParity = .ok true := by
    unfold equivalent
    rw [names, helpedNames]
    decide +kernel
  have guarded : equivalent simulate helpedParity guardedParity = .ok true := by
    unfold equivalent
    rw [helpedNames, guardedNames]
    decide +kernel
  obtain ⟨decides, reflexive, symmetric, transitive⟩ := equivalent_decides first second third
  exact ⟨first, second, third, decides, reflexive, symmetric helped, transitive helped guarded⟩

end Circuit

end Reversible
