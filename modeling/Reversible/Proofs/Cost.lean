import Mathlib.Algebra.Order.BigOperators.Group.List
import Mathlib.Algebra.Order.Group.Nat
import Reversible.Cost
import Reversible.Proofs.Windows

namespace Reversible

theorem toNat_saturatingAdd (a b : UInt64) :
    (saturatingAdd a b).toNat = min (a.toNat + b.toNat) (UInt64.size - 1) := by
  have fits : min (a.toNat + b.toNat) (UInt64.size - 1) < UInt64.size :=
    (Nat.min_le_right _ _).trans_lt (by decide)
  unfold saturatingAdd
  rw [UInt64.toNat_ofNat', Nat.mod_eq_of_lt fits]

theorem checkedAdd_eq_ok {a b sum : UInt64} : checkedAdd a b = .ok sum ↔ sum.toNat = a.toNat + b.toNat := by
  unfold checkedAdd
  rw [require_bind_eq_ok]
  constructor
  · rintro ⟨fits, same⟩
    cases same
    rw [UInt64.toNat_add, Nat.mod_eq_of_lt fits]
  · intro exact
    have fits : a.toNat + b.toNat < UInt64.size := exact ▸ sum.toNat_lt
    refine ⟨fits, congrArg Except.ok (UInt64.toNat_inj.mp ?_)⟩
    rw [UInt64.toNat_add, Nat.mod_eq_of_lt fits, exact]

theorem exists_checkedAdd {a b : UInt64} (fits : a.toNat + b.toNat < UInt64.size) :
    ∃ sum, checkedAdd a b = .ok sum ∧ sum.toNat = a.toNat + b.toNat := by
  have exact : (a + b).toNat = a.toNat + b.toNat := by rw [UInt64.toNat_add, Nat.mod_eq_of_lt fits]
  exact ⟨a + b, checkedAdd_eq_ok.mpr exact, exact⟩

/-- A sum that comes to `total` has an answer, which satisfies `P`, exactly if a word can hold the total. -/
structure SumsTo {α : Type} (total : Nat) (x : Except Fault α) (P : α → Prop) : Prop where
  fits : total < UInt64.size → ∃ a, x = .ok a ∧ P a
  overflows : UInt64.size ≤ total → x = .error .overflow

namespace SumsTo

variable {α β : Type} {total later : Nat} {x : Except Fault α} {P : α → Prop}

theorem of_ok {a : α} (word : total < UInt64.size) (holds : P a) : SumsTo total (.ok a) P :=
  ⟨fun _ => ⟨a, rfl, holds⟩, fun more => absurd word (Nat.not_lt.mpr more)⟩

/-- A sum goes on from what has been added up before. -/
theorem bind {next : α → Except Fault β} {Q : β → Prop} (first : SumsTo total x P) (more : total ≤ later)
    (rest : ∀ a, P a → SumsTo later (next a) Q) : SumsTo later (x >>= next) Q := by
  rcases Nat.lt_or_ge total UInt64.size with word | beyond
  · obtain ⟨a, rfl, holds⟩ := first.fits word
    exact rest a holds
  · rw [first.overflows beyond, error_bind]
    exact ⟨fun word => absurd (beyond.trans more) (Nat.not_le.mpr word), fun _ => rfl⟩

theorem checkedAdd (a b : UInt64) :
    SumsTo (a.toNat + b.toNat) (Reversible.checkedAdd a b) fun sum => sum.toNat = a.toNat + b.toNat := by
  refine ⟨exists_checkedAdd, fun beyond => ?_⟩
  unfold Reversible.checkedAdd
  rw [show require (a.toNat + b.toNat < UInt64.size) .overflow = .error .overflow from
    require_eq_error.mpr ⟨Nat.not_lt.mpr beyond, rfl⟩, error_bind]

end SumsTo

namespace CostModel

variable {m : CostModel} {lines : Nat} {gates : List Gate}

/-- Every gate has a cost among `lines` lines. -/
def Prices (m : CostModel) (lines : Nat) (gates : List Gate) : Prop :=
  ∀ g ∈ gates, ∃ cost, m.gateCost g lines = .ok cost

/-- The cost of a gate among `lines` lines, as a number. -/
def price (m : CostModel) (lines : Nat) (g : Gate) : Nat :=
  match m.gateCost g lines with
  | .ok cost => cost.toNat
  | .error _ => 0

/-- What gates cost together among `lines` lines, however much that is. -/
def total (m : CostModel) (lines : Nat) (gates : List Gate) : Nat := (gates.map (m.price lines)).sum

theorem price_of_ok {g : Gate} {cost : UInt64} (priced : m.gateCost g lines = .ok cost) :
    m.price lines g = cost.toNat := by
  unfold price
  rw [priced]

theorem price_congr {g : Gate} {wider : Nat} (same : m.gateCost g lines = m.gateCost g wider) :
    m.price lines g = m.price wider g := by
  unfold price
  rw [same]

theorem total_cons (g : Gate) : m.total lines (g :: gates) = m.price lines g + m.total lines gates := rfl

theorem total_append (gates others : List Gate) :
    m.total lines (gates ++ others) = m.total lines gates + m.total lines others := by
  unfold total
  rw [List.map_append, List.sum_append]

theorem prices_append {gates others : List Gate} :
    m.Prices lines (gates ++ others) ↔ m.Prices lines gates ∧ m.Prices lines others := List.forall_mem_append

/-- A circuit costs the sum of what its gates cost, as far as a word can count. -/
def Summing (m : CostModel) : Prop := m = ofGateCost m.gateCost

theorem foldlM_saturatingAdd {start sum : UInt64} :
    gates.foldlM (fun total g => do return saturatingAdd total (← m.gateCost g lines)) start = .ok sum ↔
      m.Prices lines gates ∧ sum.toNat = min (start.toNat + m.total lines gates) (UInt64.size - 1) := by
  have word := start.toNat_lt
  induction gates generalizing start with
  | nil =>
    have capped : min (start.toNat + m.total lines []) (UInt64.size - 1) = start.toNat := by
      simp only [total, List.map_nil, List.sum_nil, UInt64.size]
      omega
    rw [capped, UInt64.toNat_inj]
    exact ⟨fun same => ⟨nofun, (Except.ok.inj same).symm⟩, fun both => congrArg Except.ok both.2.symm⟩
  | cons g rest ih =>
    rw [List.foldlM_cons]
    cases cost : m.gateCost g lines with
    | error fault =>
      refine ⟨nofun, fun both => ?_⟩
      obtain ⟨found, priced⟩ := both.1 g List.mem_cons_self
      cases cost.symm.trans priced
    | ok value =>
      have sums : min ((saturatingAdd start value).toNat + m.total lines rest) (UInt64.size - 1) =
          min (start.toNat + m.total lines (g :: rest)) (UInt64.size - 1) := by
        rw [toNat_saturatingAdd, total_cons, price_of_ok cost]
        omega
      have step := @ih (saturatingAdd start value) (UInt64.toNat_lt _)
      rw [sums] at step
      refine step.trans (and_congr_left' ?_)
      exact ⟨fun tail => List.forall_mem_cons.mpr ⟨⟨value, cost⟩, tail⟩, fun all => (List.forall_mem_cons.mp all).2⟩

/-- Such a circuit has a cost exactly if all its gates have one. -/
theorem Summing.circuitCost_eq_ok (summing : m.Summing) {c : Circuit} {sum : UInt64} :
    m.circuitCost c = .ok sum ↔
      m.Prices c.lines c.gates ∧ sum.toNat = min (m.total c.lines c.gates) (UInt64.size - 1) := by
  rw [show m.circuitCost c = (ofGateCost m.gateCost).circuitCost c from congrArg (·.circuitCost c) summing]
  refine foldlM_saturatingAdd.trans ?_
  rw [UInt64.toNat_zero, Nat.zero_add]

theorem Summing.circuitCost_of_prices (summing : m.Summing) {c : Circuit} (priced : m.Prices c.lines c.gates) :
    ∃ sum, m.circuitCost c = .ok sum ∧ sum.toNat = min (m.total c.lines c.gates) (UInt64.size - 1) := by
  have fits : min (m.total c.lines c.gates) (UInt64.size - 1) < UInt64.size :=
    (Nat.min_le_right _ _).trans_lt (by decide)
  have value : (UInt64.ofNat (min (m.total c.lines c.gates) (UInt64.size - 1))).toNat = _ :=
    UInt64.toNat_ofNat'.trans (Nat.mod_eq_of_lt fits)
  exact ⟨_, summing.circuitCost_eq_ok.mpr ⟨priced, value⟩, value⟩

/-- Among more lines the gate is no dearer. -/
def Eases (m : CostModel) (g : Gate) : Prop :=
  ∀ (lines wider : Nat) (cost : UInt64), lines ≤ wider → m.gateCost g lines = .ok cost →
    ∃ less, m.gateCost g wider = .ok less ∧ less.toNat ≤ cost.toNat

theorem prices_of_eases {wider : Nat} (eases : ∀ g ∈ gates, m.Eases g) (fewer : lines ≤ wider)
    (priced : m.Prices lines gates) : m.Prices wider gates := by
  intro g member
  obtain ⟨cost, found⟩ := priced g member
  obtain ⟨less, eased, -⟩ := eases g member lines wider cost fewer found
  exact ⟨less, eased⟩

theorem total_le_of_eases {wider : Nat} (eases : ∀ g ∈ gates, m.Eases g) (fewer : lines ≤ wider)
    (priced : m.Prices lines gates) : m.total wider gates ≤ m.total lines gates := by
  refine List.sum_le_sum fun g member => ?_
  obtain ⟨cost, found⟩ := priced g member
  obtain ⟨less, eased, below⟩ := eases g member lines wider cost fewer found
  rwa [price_of_ok found, price_of_ok eased]

/-- What a gate costs does not depend on which lines it is on. -/
def Blind (m : CostModel) : Prop :=
  ∀ g lines ρ, Set.InjOn ρ {line | line ∈ g.lines} → m.gateCost (g.rename ρ) lines = m.gateCost g lines

variable {ρ : Nat → Nat}

theorem Blind.prices_map (blind : m.Blind) (injective : ∀ g ∈ gates, Set.InjOn ρ {line | line ∈ g.lines}) :
    m.Prices lines (gates.map (Gate.rename ρ)) ↔ m.Prices lines gates := by
  unfold Prices
  rw [List.forall_mem_map]
  exact forall₂_congr fun g member => by rw [blind g lines ρ (injective g member)]

theorem Blind.total_map (blind : m.Blind) (injective : ∀ g ∈ gates, Set.InjOn ρ {line | line ∈ g.lines}) :
    m.total lines (gates.map (Gate.rename ρ)) = m.total lines gates := by
  unfold total
  rw [List.map_map]
  refine congrArg List.sum (List.map_congr_left fun g member => ?_)
  rw [Function.comp_apply, price, blind g lines ρ (injective g member)]
  rfl

end CostModel

theorem Gate.size_rename_controls {g : Gate} {ρ : Nat → Nat} (injective : Set.InjOn ρ {line | line ∈ g.lines}) :
    (g.rename ρ).controls.size = g.controls.size := by
  have distinct : (g.controls.toList.map ρ).Nodup := g.controls.nodup.map_on fun a inA b inB same =>
    injective (mem_lines.mpr (Or.inl inA)) (mem_lines.mpr (Or.inl inB)) same
  rw [rename_controls, NatSet.size_ofList distinct, List.length_map]
  rfl

namespace CostModel

variable {m : CostModel} {lines : Nat} {gates : List Gate}

/-- What a gate costs depends neither on which lines it is on nor on how many lines there are. So gates with distinct
lines cost the same if they are of one kind and have as many controls. -/
def LineFree (m : CostModel) : Prop :=
  ∀ g lines wider ρ, Set.InjOn ρ {line | line ∈ g.lines} → m.gateCost (g.rename ρ) wider = m.gateCost g lines

theorem LineFree.blind (free : m.LineFree) : m.Blind := fun g lines ρ injective => free g lines lines ρ injective

theorem LineFree.gateCost_eq (free : m.LineFree) (g : Gate) (lines wider : Nat) :
    m.gateCost g wider = m.gateCost g lines := by
  have same := free g lines wider id (Set.injOn_id _)
  rwa [Gate.rename_id] at same

theorem LineFree.eases (free : m.LineFree) (g : Gate) : m.Eases g :=
  fun lines wider cost _ priced => ⟨cost, (free.gateCost_eq g lines wider).trans priced, le_rfl⟩

theorem LineFree.total_eq (free : m.LineFree) (lines wider : Nat) (gates : List Gate) :
    m.total wider gates = m.total lines gates :=
  congrArg List.sum (List.map_congr_left fun g _ => price_congr (free.gateCost_eq g lines wider))

theorem LineFree.prices (free : m.LineFree) (priced : m.Prices lines gates) (wider : Nat) : m.Prices wider gates :=
  fun g member => (priced g member).imp fun _ found => (free.gateCost_eq g lines wider).trans found

/-- A cost that looks at nothing but the number of controls. -/
theorem ofControls_lineFree (cost : Nat → Except Fault UInt64) :
    (ofGateCost fun g _ => cost g.controls.size).LineFree :=
  fun _ _ _ _ injective => congrArg cost (Gate.size_rename_controls injective)

theorem gateCount_lineFree : gateCount.LineFree := ofControls_lineFree fun _ => pure 1

theorem transistors_lineFree : transistors.LineFree := ofControls_lineFree fun k => pure (8 * k.toUInt64)

theorem weighted_lineFree (weights : List UInt64) : (weighted weights).LineFree :=
  ofControls_lineFree fun k => elementAt weights (min k (weights.length - 1))

end CostModel

namespace Circuit.Extent

variable {m : CostModel} {c : Circuit} {start stop : Nat} {filter : List Nat} {gates : List Gate}

theorem injOn_lift (extent : c.Extent start stop filter) (bound : Within filter.length gates) :
    ∀ g ∈ gates, Set.InjOn (filter.getD · 0) {line | line ∈ g.lines} :=
  fun g member => (getD_injOn extent.distinct).mono (bound g member)

theorem total_cut (extent : c.Extent start stop filter) (blind : m.Blind) (lines : Nat) :
    m.total lines (c.cut start stop filter).circuit.gates = m.total lines (c.between start stop) :=
  blind.total_map extent.injOn_cut

theorem total_cut_le (extent : c.Extent start stop filter) (blind : m.Blind) (lines : Nat) :
    m.total lines (c.cut start stop filter).circuit.gates ≤ m.total lines c.gates := by
  have whole := congrArg (m.total lines) extent.split
  simp only [CostModel.total_append] at whole
  rw [extent.total_cut blind]
  omega

/-- A replacement exchanges what the gates of the window cost among the lines of the circuit for what its own cost
there. -/
theorem total_replaced (extent : c.Extent start stop filter) (blind : m.Blind)
    (bound : Within filter.length gates) (lines : Nat) :
    m.total lines (c.replaced (c.cut start stop filter) gates).gates +
        m.total lines (c.cut start stop filter).circuit.gates =
      m.total lines c.gates + m.total lines gates := by
  have window := extent.total_cut blind lines
  have lifted : m.total lines ((c.cut start stop filter).lift gates) = m.total lines gates :=
    blind.total_map (extent.injOn_lift bound)
  have whole := congrArg (m.total lines) extent.split
  rw [extent.replaced_gates]
  simp only [CostModel.total_append] at whole ⊢
  omega

theorem prices_replaced (extent : c.Extent start stop filter) (blind : m.Blind)
    (bound : Within filter.length gates) {lines : Nat} (circuit : m.Prices lines c.gates)
    (replacement : m.Prices lines gates) : m.Prices lines (c.replaced (c.cut start stop filter) gates).gates := by
  rw [extent.split] at circuit
  rw [extent.replaced_gates]
  obtain ⟨before, after⟩ := CostModel.prices_append.mp circuit
  have lifted : m.Prices lines ((c.cut start stop filter).lift gates) :=
    (blind.prices_map (extent.injOn_lift bound)).mpr replacement
  exact CostModel.prices_append.mpr ⟨CostModel.prices_append.mpr ⟨(CostModel.prices_append.mp before).1, lifted⟩, after⟩

end Circuit.Extent

end Reversible
