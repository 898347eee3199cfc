import Reversible.Proofs.Circuit.Run
import Reversible.Proofs.Selection.Draining
import Reversible.Selection.Sliding

namespace Reversible

theorem Circuit.windowOnTouched_eq_cut {c : Circuit} (formed : c.WellFormed) {start stop : Nat} (order : start ≤ stop)
    (bound : stop ≤ c.size) :
    c.windowOnTouched start stop = .ok (c.cut start stop (linesOf (c.between start stop)).toList) := by
  unfold windowOnTouched touchedLines elementsIn
  rw [require_of ⟨order, bound⟩]
  exact (Extent.of_touched formed order bound).window_eq_cut formed

namespace Circuit

variable {c : Circuit} {size length offset start i : Nat} {windows : List Window}

/-- The next `length` gates from `start` on, or those up to the end, on the lines that they touch. -/
def frame (c : Circuit) (length start : Nat) : Window :=
  let stop := min (start + length) c.size
  c.cut start stop (linesOf (c.between start stop)).toList

theorem frame_extent (formed : c.WellFormed) (within : start ≤ c.size) :
    c.Extent start (min (start + length) c.size) (c.frame length start).filter :=
  .of_touched formed (by omega) (by omega)

theorem frame_stop (formed : c.WellFormed) (within : start ≤ c.size) :
    (c.frame length start).stop = min (start + length) c.size := (frame_extent formed within).cut_stop

/-- How many multiples of `offset` there are below `size`. -/
def steps (size offset : Nat) : Nat := (size + offset - 1) / offset

theorem lt_steps_iff (moving : 0 < offset) : i < steps size offset ↔ i * offset < size := by
  unfold steps
  rw [Nat.lt_iff_add_one_le, Nat.le_div_iff_mul_le moving, Nat.succ_mul]
  omega

theorem le_steps_mul (moving : 0 < offset) : size ≤ steps size offset * offset :=
  Nat.not_lt.mp (mt (lt_steps_iff moving).mpr (Nat.lt_irrefl _))

/-- Such a window at every `offset`-th gate. -/
def frames (c : Circuit) (length offset : Nat) : List Window :=
  (List.range' 0 (steps c.size offset) offset).map (c.frame length)

theorem getElem?_frames (moving : 0 < offset) (i : Nat) : (c.frames length offset)[i]? =
    if i * offset < c.size then some (c.frame length (i * offset)) else none := by
  unfold frames
  rw [List.getElem?_map]
  by_cases inside : i * offset < c.size
  · rw [if_pos inside, List.getElem?_range' ((lt_steps_iff moving).mpr inside), Nat.zero_add, Nat.mul_comm]
    rfl
  · have outside : steps c.size offset ≤ i := Nat.not_lt.mp (mt (lt_steps_iff moving).mp inside)
    rw [if_neg inside, List.getElem?_eq_none (by rwa [List.length_range']), Option.map_none]

theorem forall_mem_frames (moving : 0 < offset) {P : Window → Prop}
    (each : ∀ start ≤ c.size, P (c.frame length start)) : ∀ w ∈ c.frames length offset, P w := by
  intro w member
  obtain ⟨i, found⟩ := List.mem_iff_getElem?.mp member
  rw [getElem?_frames moving] at found
  split at found
  · rename_i inside
    exact Option.some.inj found ▸ each _ (Nat.le_of_lt inside)
  · cases found

/-- The windows start at the multiples of `offset` in the circuit, in their order. Each holds the next `length` gates,
or those up to the end, on exactly the lines that they touch. -/
structure Sweeps (c : Circuit) (length offset : Nat) (windows : List Window) : Prop where
  starts : ∀ i, windows[i]?.map (·.offset) = if i * offset < c.size then some (i * offset) else none
  window : ∀ w ∈ windows, c.window w.offset w.stop w.filter = .ok w
  stop : ∀ w ∈ windows, w.stop = min (w.offset + length) c.size
  filter : ∀ w ∈ windows, w.filter = (linesOf (c.between w.offset w.stop)).toList

theorem frames_sweeps (formed : c.WellFormed) (moving : 0 < offset) :
    c.Sweeps length offset (c.frames length offset) where
  starts i := by
    rw [getElem?_frames moving]
    split <;> rfl
  window := forall_mem_frames moving fun start inside => by
    rw [frame_stop formed inside]
    exact (frame_extent formed inside).window_eq_cut formed
  stop := forall_mem_frames moving fun start inside => frame_stop formed inside
  filter := forall_mem_frames moving fun start inside => by
    rw [frame_stop formed inside]
    rfl

theorem Sweeps.exists_holds_iff (sweeps : c.Sweeps length offset windows) (inside : i < c.size) :
    (∃ w ∈ windows, w.Holds i) ↔ ∃ j, j * offset ≤ i ∧ i < j * offset + length := by
  constructor
  · rintro ⟨w, member, lower, upper⟩
    obtain ⟨j, found⟩ := List.mem_iff_getElem?.mp member
    have start := sweeps.starts j
    rw [found, Option.map_some] at start
    split at start
    · have offset := Option.some.inj start
      rw [sweeps.stop w member] at upper
      exact ⟨j, by omega, by omega⟩
    · cases start
  · rintro ⟨j, lower, upper⟩
    have start := sweeps.starts j
    rw [if_pos (by omega)] at start
    obtain ⟨w, found, offset⟩ := Option.map_eq_some_iff.mp start
    have member := List.mem_of_getElem? found
    have stop := sweeps.stop w member
    exact ⟨w, member, by omega, by omega⟩

/-- Windows that are further apart than they are long leave a gate out unless the first one is the whole circuit. -/
theorem Sweeps.covers_iff (sweeps : c.Sweeps length offset windows) (moving : 0 < offset) :
    (∀ i < c.size, ∃ w ∈ windows, w.Holds i) ↔ offset ≤ length ∨ c.size ≤ length := by
  constructor
  · intro covers
    by_contra apart
    obtain ⟨gap, more⟩ := not_or.mp apart
    have inside : length < c.size := Nat.not_le.mp more
    obtain ⟨j, lower, upper⟩ := (sweeps.exists_holds_iff inside).mp (covers length inside)
    rcases Nat.eq_zero_or_pos j with rfl | later
    · omega
    · have beyond := Nat.le_mul_of_pos_left offset later
      omega
  · intro enough i inside
    rw [sweeps.exists_holds_iff inside]
    rcases enough with close | whole
    · have next := Nat.lt_mul_div_succ i moving
      refine ⟨i / offset, Nat.div_mul_le_self i offset, ?_⟩
      rw [Nat.mul_succ, Nat.mul_comm] at next
      omega
    · exact ⟨0, by omega, by omega⟩

end Circuit

namespace Sliding

variable {s : Sliding} {c : Circuit} {window : Option Window} {next : Nat}

theorem slide_cases (run : s.slide c = .ok (window, next)) :
    (window = none ∧ next = 0 ∧ c.size ≤ s.position) ∨ ∃ w, window = some w ∧ next = s.position + s.offset ∧
      s.position < c.size ∧
      c.windowOnTouched s.position (s.position + min s.length (c.size - s.position)) = .ok w := by
  unfold slide at run
  obtain ⟨-, run⟩ := require_bind_eq_ok.mp run
  obtain ⟨-, run⟩ := require_bind_eq_ok.mp run
  split at run
  · rename_i past
    cases run
    exact Or.inl ⟨rfl, rfl, past⟩
  · rename_i within
    obtain ⟨w, touched, run⟩ := bind_eq_ok.mp run
    obtain ⟨-, run⟩ := require_bind_eq_ok.mp run
    cases run
    exact Or.inr ⟨w, rfl, rfl, Nat.not_le.mp within, touched⟩

/-- Past the last gate the selector goes back to the start, and before it takes a window and moves on. -/
theorem select_cases (selected : (select s c).window = .ok window) :
    (window = none ∧ (select s c).state = { s with position := 0 }) ∨
      ∃ w, window = some w ∧ (select s c).state = { s with position := s.position + s.offset } ∧
        s.position < c.size ∧
        c.windowOnTouched s.position (s.position + min s.length (c.size - s.position)) = .ok w := by
  unfold select at selected ⊢
  cases slides : s.slide c with
  | error fault =>
    rw [slides] at selected
    cases selected
  | ok answer =>
    obtain ⟨found, next⟩ := answer
    rw [slides] at selected
    cases selected
    rcases slide_cases slides with ⟨none, rfl, _⟩ | ⟨w, some, rfl, within, touched⟩
    · exact Or.inl ⟨none, rfl⟩
    · exact Or.inr ⟨w, some, rfl, within, touched⟩

theorem select_of_past (long : 0 < s.length) (moving : 0 < s.offset) (past : c.size ≤ s.position) :
    select s c = { state := { s with position := 0 }, window := .ok none } := by
  have slides : s.slide c = .ok (none, 0) := by
    unfold slide
    rw [require_of long, ok_bind, require_of moving, ok_bind, if_pos past]
    rfl
  unfold select
  rw [slides]

/-- Within a well-formed circuit the selector never fails as long as its positions fit a word. -/
theorem select_of_within (formed : c.WellFormed) (long : 0 < s.length) (moving : 0 < s.offset)
    (room : s.offset + c.size < UInt64.size) (within : s.position < c.size) :
    select s c = ⟨{ s with position := s.position + s.offset }, .ok (some (c.frame s.length s.position)), []⟩ := by
  have stop : s.position + min s.length (c.size - s.position) = min (s.position + s.length) c.size := by omega
  have slides : s.slide c = .ok (some (c.frame s.length s.position), s.position + s.offset) := by
    unfold slide
    rw [require_of long, ok_bind, require_of moving, ok_bind, if_neg (Nat.not_le.mpr within), stop,
      Circuit.windowOnTouched_eq_cut formed (by omega) (Nat.min_le_right _ _), ok_bind, require_of (by omega), ok_bind]
    rfl
  unfold select
  rw [slides]

theorem exists_select (formed : c.WellFormed) (long : 0 < s.length) (moving : 0 < s.offset)
    (room : s.offset + c.size < UInt64.size) : ∃ window, (select s c).window = .ok window := by
  rcases Nat.lt_or_ge s.position c.size with within | past
  · rw [select_of_within formed long moving room within]
    exact ⟨_, rfl⟩
  · rw [select_of_past long moving past]
    exact ⟨_, rfl⟩

/-- From any position on the windows are those at every `offset`-th position, as long as these lie in the circuit. -/
theorem drains_frames (formed : c.WellFormed) {length offset : Nat} (long : 0 < length) (moving : 0 < offset)
    (room : offset + c.size < UInt64.size) {count position : Nat} (past : c.size ≤ position + count * offset)
    (within : ∀ i < count, position + i * offset < c.size) :
    Selector.Drains select c { length, offset, position } ((List.range' position count offset).map (c.frame length))
      { length, offset } := by
  induction count generalizing position with
  | zero =>
    have done := select_of_past (s := { length, offset, position }) long moving (by simpa using past)
    exact .done (by rw [done]) (by rw [done])
  | succ count ih =>
    have first := within 0 (Nat.succ_pos _)
    have next := select_of_within (s := { length, offset, position }) formed long moving room (by simpa using first)
    have pastNext : c.size ≤ position + offset + count * offset := by
      rw [Nat.succ_mul] at past
      omega
    have withinNext : ∀ i < count, position + offset + i * offset < c.size := fun i below => by
      have later := within (i + 1) (Nat.succ_lt_succ below)
      rw [Nat.succ_mul] at later
      omega
    rw [List.range'_succ, List.map_cons]
    refine .next (by rw [next]) ?_
    rw [next]
    exact ih pastNext withinNext

/-- A selector that starts anew sweeps over the circuit. When it has been drained it is as at the start. All gates are
in its windows exactly if these are not further apart than they are long, or if one is enough for the circuit. -/
theorem select_sweeps (formed : c.WellFormed) {length offset : Nat} (long : 0 < length) (moving : 0 < offset)
    (room : offset + c.size < UInt64.size) : ∃ windows, c.Sweeps length offset windows ∧
      (∀ found t, Selector.Drains select c { length, offset } found t ↔ found = windows ∧ t = { length, offset }) ∧
      ((∀ i < c.size, ∃ w ∈ windows, w.Holds i) ↔ offset ≤ length ∨ c.size ≤ length) := by
  have drains : Selector.Drains select c { length, offset } (c.frames length offset) { length, offset } :=
    drains_frames formed long moving room (by simpa using Circuit.le_steps_mul moving)
      fun i below => by simpa using (Circuit.lt_steps_iff moving).mp below
  have sweeps : c.Sweeps length offset (c.frames length offset) := Circuit.frames_sweeps formed moving
  refine ⟨_, sweeps, fun found t => ⟨fun given => given.unique drains, ?_⟩, sweeps.covers_iff moving⟩
  rintro ⟨rfl, rfl⟩
  exact drains

/-- Four gates in a row that each touch the next line, and one more on the first line. -/
def staircase : Circuit :=
  ⟨(List.range 5).map Wire.fresh, [.toffoli (NatSet.ofList [0]) 1, .toffoli (NatSet.ofList [1]) 2,
    .toffoli (NatSet.ofList [2]) 3, .toffoli (NatSet.ofList [3]) 4, .toffoli .empty 0]⟩

/-- With windows of two gates at every third one, the gate between the two windows is in none of them. -/
theorem select_sweeps_staircase : staircase.WellFormed ∧ ∃ windows, staircase.Sweeps 2 3 windows ∧
    (∀ found t, Selector.Drains select staircase ⟨2, 3, 0⟩ found t ↔ found = windows ∧ t = ⟨2, 3, 0⟩) ∧
    ¬ ∀ i < staircase.size, ∃ w ∈ windows, w.Holds i := by
  have formed : staircase.WellFormed := by decide
  obtain ⟨windows, sweeps, drains, covers⟩ :=
    select_sweeps formed (show 0 < 2 by decide) (show 0 < 3 by decide) (by decide)
  exact ⟨formed, windows, sweeps, drains, fun all => absurd (covers.mp all) (by decide)⟩

example : ∃ windows, Selector.Drains select staircase ⟨2, 3, 0⟩ windows ⟨2, 3, 0⟩ ∧
    windows.map (fun w => (w.offset, w.stop, w.filter)) = [(0, 2, [0, 1, 2]), (3, 5, [0, 3, 4])] :=
  ⟨_, .next rfl (.next rfl (.done rfl rfl)), rfl⟩

end Sliding

end Reversible
