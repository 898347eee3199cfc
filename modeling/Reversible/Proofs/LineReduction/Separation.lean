import Mathlib.Order.Bounds.Basic
import Reversible.Proofs.LineReduction.Window

namespace Reversible

section

variable {α : Type} {key : α → Nat} {x : α} {xs : List α}

theorem foldl_prefer_greatest {best : α}
    (found : xs.foldl (prefer fun next best => key best < key next) (some best) = some x) :
    key best ≤ key x ∧ ∀ y ∈ xs, key y ≤ key x := by
  induction xs generalizing best with
  | nil =>
    cases found
    exact ⟨le_rfl, nofun⟩
  | cons y rest ih =>
    rw [List.foldl_cons, prefer] at found
    split at found
    · rename_i better
      obtain ⟨ofY, others⟩ := ih found
      exact ⟨(of_decide_eq_true better).le.trans ofY, List.forall_mem_cons.mpr ⟨ofY, others⟩⟩
    · rename_i worse
      obtain ⟨ofBest, others⟩ := ih found
      have ofY := Nat.not_lt.mp fun less => worse (decide_eq_true less)
      exact ⟨ofBest, List.forall_mem_cons.mpr ⟨ofY.trans ofBest, others⟩⟩

/-- Where a larger key is better, no element has a larger key than the first best one. -/
theorem firstBest_greatest (found : firstBest (fun next best => key best < key next) xs = some x) :
    ∀ y ∈ xs, key y ≤ key x := by
  cases xs with
  | nil => exact nofun
  | cons first rest => exact List.forall_mem_cons.mpr (foldl_prefer_greatest found)

end

namespace Circuit

variable {c : Circuit} {bound line stop : Nat}

theorem lastStop_isLeast (c : Circuit) (line : Nat) :
    IsLeast {s | ∀ g ∈ c.gates.drop s, line ∉ g.lines} (c.lastStop line) := by
  obtain ⟨behind, untouched, last⟩ := c.lastStop_spec line
  refine ⟨untouched, fun s later => Nat.not_lt.mp fun before => ?_⟩
  -- The gate in front of the stop is one on the line, and it stands at `s` or after it.
  have inside : c.lastStop line - 1 < c.gates.length := by
    change c.lastStop line ≤ c.gates.length at behind
    omega
  have ends : c.gates.take (c.lastStop line) =
      c.gates.take (c.lastStop line - 1) ++ [c.gates[c.lastStop line - 1]] := by
    rw [List.take_append_getElem inside, Nat.sub_add_cancel (by omega)]
  refine later c.gates[c.lastStop line - 1] ?_ (last _ (c.gates.take (c.lastStop line - 1)).reverse ?_)
  · exact List.mem_drop_iff_getElem.mpr ⟨c.lastStop line - 1 - s, by omega, by congr 1; omega⟩
  · rw [ends, List.reverse_append, List.reverse_singleton, List.singleton_append]

/-- The window behind a line: it ends with the last gate on the line, and its range is the longest that touches at most
`bound` lines. It is on these lines and the line itself. -/
structure LongestBehind (c : Circuit) (bound line : Nat) (w : Window) : Prop where
  copied : w = c.cut w.offset w.stop w.filter
  stop : IsLeast {s | ∀ g ∈ c.gates.drop s, line ∉ g.lines} w.stop
  start : IsLeast {s | (linesOf (c.between s w.stop)).size ≤ bound} w.offset
  increasing : w.filter.Pairwise (· < ·)
  lines : ∀ l, l ∈ w.filter ↔ l = line ∨ ∃ g ∈ c.between w.offset w.stop, l ∈ g.lines

theorem growRun_isLeast (bound : Nat) (within : stop ≤ c.size) :
    IsLeast {s | (linesOf (c.between s stop)).size ≤ bound}
      (stop - (growRun bound .empty (c.gates.take stop).reverse).1) := by
  have lines : ∀ n, linesOf ((c.gates.take stop).reverse.take n) = linesOf (c.between (stop - n) stop) := fun n =>
    NatSet.ext fun line => by simp only [mem_linesOf, mem_take_reverse within]
  have length : (c.gates.take stop).reverse.length = stop := by
    rw [List.length_reverse]
    exact List.length_take_of_le within
  obtain ⟨⟨inside, narrow⟩, greatest⟩ := growRun_greatest bound (c.gates.take stop).reverse
  rw [lines] at narrow
  refine ⟨narrow, fun s fits => ?_⟩
  rcases Nat.lt_or_ge s stop with before | after
  · have taken : stop - s ≤ (growRun bound .empty (c.gates.take stop).reverse).1 := by
      refine greatest ⟨by omega, ?_⟩
      rw [lines, Nat.sub_sub_self before.le]
      exact fits
    omega
  · exact (Nat.sub_le _ _).trans after

theorem windowBehind_longest (formed : c.WellFormed) (bound : Nat) (inside : line < c.lines) :
    ∃ start stop filter, c.windowBehind bound line = .ok (c.cut start stop filter) ∧
      c.Behind bound line start stop filter ∧ c.LongestBehind bound line (c.cut start stop filter) := by
  obtain ⟨start, stop, filter, window, behind⟩ := windowBehind_spec formed bound inside
  refine ⟨start, stop, filter, window, behind, ?_⟩
  have within := (c.lastStop_spec line).1
  rw [windowBehind_eq] at window
  obtain ⟨extent, same⟩ := Extent.of_window window
  rw [same]
  refine ⟨?_, ?_, ?_, extent.increasing, fun l => ?_⟩
  · rw [extent.cut_stop]
    rfl
  · rw [extent.cut_stop]
    exact c.lastStop_isLeast line
  · rw [extent.cut_stop]
    exact growRun_isLeast bound within
  · rw [extent.cut_stop, Extent.cut_filter, ← NatSet.mem_def, NatSet.mem_insert, growRun_lines, mem_linesOf]
    simp only [mem_take_reverse within]
    rfl

/-- A constant line that stays unused at least as long as any other. -/
structure LatestSpare (c : Circuit) (line stop late : Nat) : Prop extends c.Spare line stop late where
  latest : ∀ other, c.Spare line stop other → ∀ k, c.UnusedBefore other k → c.UnusedBefore late k

def firstUse (c : Circuit) (line : Nat) : Nat := (c.firstTouch line).getD c.size

theorem unusedBefore_iff {k : Nat} : c.UnusedBefore line k ↔ min k c.size ≤ c.firstUse line := by
  unfold UnusedBefore firstUse
  cases found : c.firstTouch line with
  | none =>
    have untouched := List.findIdx?_eq_none_iff.mp found
    exact iff_of_true (fun g member => Gate.touches_eq_false.mp (untouched g (List.mem_of_mem_take member)))
      (Nat.min_le_right _ _)
  | some i =>
    obtain ⟨inside, touches, earlier⟩ := List.findIdx?_eq_some_iff_getElem.mp found
    change i < c.size at inside
    change _ ↔ min k c.size ≤ i
    constructor
    · intro unused
      by_contra used
      exact unused c.gates[i] (List.mem_take_iff_getElem.mpr ⟨i, by change i < min k c.size; omega, rfl⟩)
        (Gate.touches_iff.mp touches)
    · intro early g member onLine
      obtain ⟨j, before, rfl⟩ := List.mem_take_iff_getElem.mp member
      change j < min k c.size at before
      exact absurd (Gate.touches_iff.mpr onLine) (earlier j (by omega))

theorem lateConstant?_eq (c : Circuit) (line stop : Nat) : c.lateConstant? line stop =
    firstBest (fun next best => c.firstUse best < c.firstUse next) (c.spareLines line stop) := rfl

theorem lateConstant?_eq_none : c.lateConstant? line stop = none ↔ ∀ spare, ¬c.Spare line stop spare := by
  rw [lateConstant?_eq, firstBest_eq_none, List.eq_nil_iff_forall_not_mem]
  simp only [mem_spareLines]

theorem lateConstant?_latest {late : Nat} (found : c.lateConstant? line stop = some late) :
    c.LatestSpare line stop late := by
  rw [lateConstant?_eq] at found
  refine ⟨mem_spareLines.mp (firstBest_mem found), fun other spare k unused => ?_⟩
  rw [unusedBefore_iff] at unused ⊢
  exact unused.trans (firstBest_greatest found other (mem_spareLines.mpr spare))

/-- A line that is used no earlier than from where another one is done shares no gate with it. -/
theorem Spare.apart {late : Nat} (spare : c.Spare line stop late)
    (done : ∀ g ∈ c.gates.drop stop, line ∉ g.lines) : ∀ g ∈ c.gates, late ∈ g.lines → line ∉ g.lines := by
  intro g member onLate
  rw [← List.take_append_drop stop c.gates] at member
  rcases List.mem_append.mp member with before | after
  · exact absurd onLate (spare.unused g before)
  · exact done g after

/-- The window that is taken for a line ends with the last gate on the line and is the longest that touches at most
`bound` lines. A constant line is found for it exactly if there is one that is not in use before the end of the window.
None stays unused for longer than the one that is found, which is not in the window and shares no gate with the line. -/
theorem windowBehind_separates (formed : c.WellFormed) (bound : Nat) (inside : line < c.lines) :
    ∃ w, c.windowBehind bound line = .ok w ∧ c.LongestBehind bound line w ∧
      (c.lateConstant? line w.stop = none ↔ ∀ spare, ¬c.Spare line w.stop spare) ∧
      ∀ late, c.lateConstant? line w.stop = some late → c.LatestSpare line w.stop late ∧ late ∉ w.filter ∧
        ∀ g ∈ c.gates, late ∈ g.lines → line ∉ g.lines := by
  obtain ⟨start, stop, filter, window, behind, longest⟩ := windowBehind_longest formed bound inside
  refine ⟨_, window, longest, lateConstant?_eq_none, fun late found => ?_⟩
  have latest := lateConstant?_latest found
  refine ⟨latest, ?_, latest.toSpare.apart longest.stop.1⟩
  rw [behind.toExtent.cut_stop] at found
  exact behind.not_mem found

/-- Line 0 is done with the third gate. By then one constant line is in use, and two others come later. -/
def staggered : Circuit :=
  ⟨[⟨"a", "f", none, true⟩, ⟨"b", "g", none, false⟩, ⟨"c", "h", none, false⟩, ⟨"k", "p", some false, false⟩,
      ⟨"l", "q", some true, false⟩, ⟨"m", "r", some false, false⟩],
    [.toffoli (.ofList [1]) 5, .toffoli (.ofList [1, 2]) 0, .toffoli (.ofList [2]) 0, .toffoli (.ofList [3]) 1,
      .fredkin .empty 3 4]⟩

theorem windowBehind_separates_staggered : staggered.WellFormed ∧ 0 < staggered.lines ∧
    ∃ w, staggered.windowBehind 2 0 = .ok w ∧ w.offset = 2 ∧ w.stop = 3 ∧ w.filter = [0, 2] ∧
      staggered.LongestBehind 2 0 w ∧ staggered.lateConstant? 0 3 = some 4 ∧ staggered.LatestSpare 0 3 4 ∧
      4 ∉ [0, 2] ∧ ∀ g ∈ staggered.gates, 4 ∈ g.lines → 0 ∉ g.lines := by
  have formed : staggered.WellFormed := by decide +kernel
  have inside : 0 < staggered.lines := by decide
  have window : staggered.windowBehind 2 0 = .ok (staggered.cut 2 3 [0, 2]) := by decide +kernel
  have late : staggered.lateConstant? 0 3 = some 4 := by decide +kernel
  obtain ⟨_, found, longest, -, chosen⟩ := windowBehind_separates formed 2 inside
  cases window.symm.trans found
  obtain ⟨latest, outside, apart⟩ := chosen 4 late
  exact ⟨formed, inside, _, window, rfl, rfl, rfl, longest, late, latest, outside, apart⟩

end Circuit

end Reversible
