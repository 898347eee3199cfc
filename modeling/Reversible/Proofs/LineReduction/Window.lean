import Reversible.LineReduction.Basic
import Reversible.Proofs.Circuit.Run

namespace Reversible

section

variable {α : Type} {better : α → α → Bool} {x : α} {xs : List α}

theorem foldl_prefer_eq_some {best : Option α} (found : xs.foldl (prefer better) best = some x) :
    best = some x ∨ x ∈ xs := by
  induction xs generalizing best with
  | nil => exact Or.inl found
  | cons y rest ih =>
    rcases ih found with preferred | later
    · unfold prefer at preferred
      split at preferred
      · exact Or.inr (Option.some.inj preferred ▸ List.mem_cons_self)
      · split at preferred
        · exact Or.inr (Option.some.inj preferred ▸ List.mem_cons_self)
        · exact Or.inl preferred
    · exact Or.inr (List.mem_cons_of_mem y later)

theorem firstBest_mem (found : firstBest better xs = some x) : x ∈ xs :=
  (foldl_prefer_eq_some found).resolve_left nofun

theorem foldl_prefer_isSome {best : Option α} (given : best.isSome = true) :
    (xs.foldl (prefer better) best).isSome = true := by
  induction xs generalizing best with
  | nil => exact given
  | cons y rest ih =>
    refine ih ?_
    unfold prefer
    split
    · rfl
    · split <;> rfl

theorem firstBest_eq_none : firstBest better xs = none ↔ xs = [] := by
  cases xs with
  | nil => exact ⟨fun _ => rfl, fun _ => rfl⟩
  | cons y rest =>
    have found : (firstBest better (y :: rest)).isSome = true :=
      show (rest.foldl (prefer better) (some y)).isSome = true from foldl_prefer_isSome rfl
    constructor
    · intro empty
      rw [empty] at found
      cases found
    · nofun

end

namespace Circuit

theorem lastIndex?_eq_some {p : Gate → Bool} {gates : List Gate} {i : Nat} (found : lastIndex? p gates = some i) :
    (∃ g, gates[i]? = some g ∧ p g = true) ∧ ∀ g ∈ gates.drop (i + 1), p g = false := by
  obtain ⟨j, atJ, rfl⟩ := Option.map_eq_some_iff.mp found
  obtain ⟨bound, value, earlier⟩ := List.findIdx?_eq_some_iff_getElem.mp atJ
  rw [List.getElem_reverse] at value
  rw [List.length_reverse] at bound
  refine ⟨⟨_, List.getElem?_eq_getElem (by omega), value⟩, fun g member => ?_⟩
  rw [show gates.length - 1 - j + 1 = gates.length - j by omega, ← List.mem_reverse, ← List.take_reverse] at member
  obtain ⟨k, below, rfl⟩ := List.mem_take_iff_getElem.mp member
  simpa using earlier k (by omega)

theorem lastIndex?_eq_none {p : Gate → Bool} {gates : List Gate} (absent : lastIndex? p gates = none) :
    ∀ g ∈ gates, p g = false := by
  intro g member
  rw [lastIndex?, Option.map_eq_none_iff, List.findIdx?_eq_none_iff] at absent
  exact absent g (List.mem_reverse.mpr member)

/-- The position behind the last gate on a line. -/
def lastStop (c : Circuit) (line : Nat) : Nat := ((c.lastTouch line).map (· + 1)).getD 0

theorem lastStop_spec (c : Circuit) (line : Nat) :
    c.lastStop line ≤ c.size ∧ (∀ g ∈ c.gates.drop (c.lastStop line), line ∉ g.lines) ∧
      ∀ g rest, (c.gates.take (c.lastStop line)).reverse = g :: rest → line ∈ g.lines := by
  unfold lastStop
  cases found : c.lastTouch line with
  | none =>
    exact ⟨Nat.zero_le _, fun g member => Gate.touches_eq_false.mp (lastIndex?_eq_none found g member), nofun⟩
  | some i =>
    obtain ⟨⟨last, atI, touches⟩, later⟩ := lastIndex?_eq_some found
    refine ⟨(List.getElem?_eq_some_iff.mp atI).1, fun g member => Gate.touches_eq_false.mp (later g member), ?_⟩
    intro g rest first
    change (c.gates.take (i + 1)).reverse = g :: rest at first
    rw [List.take_add_one, atI, Option.toList_some, List.reverse_append, List.reverse_singleton, List.singleton_append,
      List.cons.injEq] at first
    exact first.1 ▸ Gate.touches_iff.mp touches

/-- A range of gates that ends behind the last gate on `line`, on `line` and the lines that they touch. -/
structure Behind (c : Circuit) (limit line start stop : Nat) (filter : List Nat) : Prop
    extends Extent c start stop filter where
  member : line ∈ filter
  narrow : filter.length ≤ max limit 1
  last : ∀ g ∈ c.gates.drop stop, line ∉ g.lines
  touched : ∀ l ∈ filter, l ≠ line → ∃ g ∈ c.gates.take stop, l ∈ g.lines

variable {c : Circuit}

theorem windowBehind_eq (limit line : Nat) : c.windowBehind limit line =
    let run := growRun limit .empty (c.gates.take (c.lastStop line)).reverse
    c.window (c.lastStop line - run.1) (c.lastStop line) (run.2.insert line).toList := by
  unfold windowBehind lastStop
  cases c.lastTouch line <;> rfl

/-- The first gates on the way back from `stop` are the last ones before it. -/
theorem mem_take_reverse {n stop : Nat} (within : stop ≤ c.size) {g : Gate} :
    g ∈ (c.gates.take stop).reverse.take n ↔ g ∈ c.between (stop - n) stop := by
  have taken : (c.gates.take stop).length = stop := List.length_take_of_le within
  rw [List.take_reverse, List.mem_reverse, taken, List.drop_take]
  rfl

theorem windowBehind_spec (formed : c.WellFormed) (limit : Nat) {line : Nat} (inside : line < c.lines) :
    ∃ start stop filter, c.windowBehind limit line = .ok (c.cut start stop filter) ∧
      c.Behind limit line start stop filter := by
  obtain ⟨behind, last, first⟩ := c.lastStop_spec line
  rw [windowBehind_eq]
  generalize c.lastStop line = stop at behind last first
  obtain ⟨length, lines, size⟩ := growRun_spec limit .empty (c.gates.take stop).reverse
  generalize growRun limit .empty (c.gates.take stop).reverse = run at length lines size
  have inRun : ∀ l, l ∈ run.2 ↔ ∃ g ∈ c.between (stop - run.1) stop, l ∈ g.lines := fun l => by
    rw [lines l]
    simp only [mem_take_reverse behind, NatSet.not_mem_empty, false_or]
  have inFilter : ∀ l, l ∈ (run.2.insert line).toList ↔ l = line ∨ ∃ g ∈ c.between (stop - run.1) stop, l ∈ g.lines :=
    fun l => by rw [← NatSet.mem_def, NatSet.mem_insert, inRun]
  have extent : c.Extent (stop - run.1) stop (run.2.insert line).toList := by
    refine ⟨Nat.sub_le _ _, behind, NatSet.sorted _, fun l member => ?_, fun g member l touched => ?_⟩
    · rcases (inFilter l).mp member with rfl | ⟨g, inRun, touched⟩
      · exact inside
      · exact formed.inside g (mem_of_mem_between inRun) l touched
    · exact (inFilter l).mpr (Or.inr ⟨g, member, touched⟩)
  refine ⟨stop - run.1, stop, (run.2.insert line).toList, extent.window_eq_cut formed, ⟨extent, ?_, ?_, last, ?_⟩⟩
  · exact (inFilter line).mpr (Or.inl rfl)
  · by_cases onRun : line ∈ run.2
    · rw [NatSet.insert_of_mem onRun]
      exact size.trans (by simp [NatSet.size, NatSet.empty])
    · -- The run is empty, as its last gate would be one on the line.
      have empty : run.2 = .empty := NatSet.ext fun l => by
        have none : run.1 = 0 := by
          by_contra some
          cases reversed : (c.gates.take stop).reverse with
          | nil =>
            rw [reversed, List.length_nil] at length
            exact some (Nat.le_zero.mp length)
          | cons g rest =>
            refine onRun ((lines line).mpr (Or.inr ⟨g, ?_, first g rest reversed⟩))
            rw [reversed, ← Nat.succ_pred some]
            exact List.mem_cons_self
        rw [lines l, none]
        simp
      rw [empty]
      exact Nat.le_max_right _ _
  · intro l member different
    obtain ⟨g, inRun, touched⟩ := ((inFilter l).mp member).resolve_left different
    exact ⟨g, List.mem_reverse.mp (List.mem_of_mem_take ((mem_take_reverse behind).mpr inRun)), touched⟩

theorem lt_lines_of_constant {line : Nat} (constant : (c.constant line).isSome = true) : line < c.lines := by
  by_contra outside
  have fresh : c.wire line = .fresh line := List.getD_eq_default _ _ (Nat.not_lt.mp outside)
  unfold Circuit.constant at constant
  rw [fresh] at constant
  cases constant

/-- No gate before position `k` is on the line. -/
def UnusedBefore (c : Circuit) (line k : Nat) : Prop := ∀ g ∈ c.gates.take k, line ∉ g.lines

/-- A constant line other than `line` that is not in use before position `stop`. -/
structure Spare (c : Circuit) (line stop spare : Nat) : Prop where
  different : spare ≠ line
  constant : (c.constant spare).isSome = true
  unused : c.UnusedBefore spare stop

/-- The lines among which the latest is chosen. -/
def spareLines (c : Circuit) (line stop : Nat) : List Nat :=
  (List.range c.lines).filter fun l => l != line && (c.constant l).isSome && (c.gates.take stop).all (!·.touches l)

theorem mem_spareLines {line stop spare : Nat} : spare ∈ c.spareLines line stop ↔ c.Spare line stop spare := by
  simp only [spareLines, List.mem_filter, List.mem_range, Bool.and_eq_true, bne_iff_ne, List.all_eq_true,
    Bool.not_eq_true', Gate.touches_eq_false]
  constructor
  · rintro ⟨-, ⟨different, constant⟩, unused⟩
    exact ⟨different, constant, unused⟩
  · rintro ⟨different, constant, unused⟩
    exact ⟨lt_lines_of_constant constant, ⟨different, constant⟩, unused⟩

theorem lateConstant?_spec {line stop late : Nat} (found : c.lateConstant? line stop = some late) :
    late < c.lines ∧ late ≠ line ∧ (c.constant late).isSome = true ∧ ∀ g ∈ c.gates.take stop, late ∉ g.lines := by
  have spare := mem_spareLines.mp (firstBest_mem found)
  exact ⟨lt_lines_of_constant spare.constant, spare.different, spare.constant, spare.unused⟩

/-- Before the window ends, a late constant line plays no part. -/
theorem Behind.not_mem {limit line start stop late : Nat} {filter : List Nat}
    (behind : c.Behind limit line start stop filter) (found : c.lateConstant? line stop = some late) :
    late ∉ filter := by
  obtain ⟨_, different, _, untouched⟩ := lateConstant?_spec found
  intro member
  obtain ⟨g, before, touched⟩ := behind.touched late member different
  exact untouched g before touched

theorem earliestGarbage?_eq_some {lines : List Nat} {line : Nat} (found : c.earliestGarbage? lines = some line) :
    line ∈ lines ∧ c.garbage line = true := List.mem_filter.mp (firstBest_mem found)

theorem earliestGarbage?_eq_none {lines : List Nat} : c.earliestGarbage? lines = none ↔ lines.filter c.garbage = [] :=
  firstBest_eq_none

/-- The lines of the gates before the end of a window and of the window. -/
def linesBefore (c : Circuit) (stop : Nat) (filter : List Nat) : List Nat :=
  ((linesOf (c.gates.take stop)).union filter).toList

theorem mem_linesBefore {stop : Nat} {filter : List Nat} {l : Nat} :
    l ∈ c.linesBefore stop filter ↔ l ∈ filter ∨ ∃ g ∈ c.gates.take stop, l ∈ g.lines := by
  unfold linesBefore
  rw [← NatSet.mem_def, NatSet.mem_union, mem_linesOf]

theorem Extent.before {start stop : Nat} {filter : List Nat} (extent : c.Extent start stop filter)
    (formed : c.WellFormed) : c.Extent 0 start (c.linesBefore stop filter) := by
  refine ⟨Nat.zero_le _, extent.order.trans extent.bound, NatSet.sorted _, fun l member => ?_,
    fun g member l touched => ?_⟩
  · rcases mem_linesBefore.mp member with own | ⟨g, before, touched⟩
    · exact extent.inside l own
    · exact formed.inside g (List.mem_of_mem_take before) l touched
  · have before : g ∈ c.gates.take start := member
    have earlier : g ∈ c.gates.take stop := List.take_subset_take_left _ extent.order before
    exact mem_linesBefore.mpr (Or.inr ⟨g, earlier, touched⟩)

theorem Extent.windowBefore_eq {start stop : Nat} {filter : List Nat} (extent : c.Extent start stop filter)
    (formed : c.WellFormed) : LineReduction.windowBefore c (c.cut start stop filter) =
      .ok (c.cut 0 start (c.linesBefore stop filter)) := by
  have window := (extent.before formed).window_eq_cut formed
  unfold LineReduction.windowBefore
  rw [extent.cut_stop]
  exact window

end Circuit

end Reversible
