import Mathlib.Data.Nat.Bitwise
import Mathlib.Data.Set.Function
import Reversible.Proofs.Relabelling
import Reversible.Synthesis.RowGates

namespace Reversible

/-- The Toffoli gate on `target` under the ones of `x`. -/
def Gate.underOnes (x target : Nat) : Gate := toffoli (NatSet.ofList (onesOf x)) target

/-- The gates that set bits of `x` one after the other. -/
def raiseGates (x : Nat) : List Nat → List Gate
  | [] => []
  | t :: rest => Gate.underOnes x t :: raiseGates (setBit x t) rest

/-- The gates of a row, without the checks made on the way. -/
def rowGates (x y : Nat) : List Gate := raiseGates x (onesMissing x y) ++ (onesMissing y x).map (Gate.underOnes y)

theorem mem_onesOf {x i : Nat} : i ∈ onesOf x ↔ i < 64 ∧ x.testBit i = true := by
  simp [onesOf]

theorem mem_onesMissing {x y i : Nat} : i ∈ onesMissing x y ↔ i < 64 ∧ y.testBit i = true ∧ x.testBit i = false := by
  simp [onesMissing]

theorem onesMissing_nodup (x y : Nat) : (onesMissing x y).Nodup := List.nodup_range.filter _

theorem testBit_invertBit (x line i : Nat) :
    (invertBit x line).testBit i = if i = line then !x.testBit i else x.testBit i := by
  rw [invertBit, Nat.testBit_xor, Nat.one_shiftLeft, Nat.testBit_two_pow]
  by_cases same : i = line
  · simp [same]
  · simp [same, Ne.symm same]

theorem invertBit_invertBit (x line : Nat) : invertBit (invertBit x line) line = x := by
  refine Nat.eq_of_testBit_eq fun i => ?_
  rw [testBit_invertBit, testBit_invertBit]
  split <;> simp

theorem testBit_setBit (x line i : Nat) : (setBit x line).testBit i = (x.testBit i || decide (i = line)) := by
  rw [setBit, Nat.testBit_or, Nat.one_shiftLeft, Nat.testBit_two_pow]
  congr 1
  exact decide_eq_decide.mpr eq_comm

theorem testBit_clearBit (x line i : Nat) : (clearBit x line).testBit i = (x.testBit i && !decide (i = line)) := by
  rw [clearBit, Nat.testBit_and, testBit_invertBit]
  by_cases same : i = line
  · simp [same]
  · simp [same]

theorem testBit_foldl_setBit (x : Nat) (ts : List Nat) (i : Nat) :
    (ts.foldl setBit x).testBit i = (x.testBit i || decide (i ∈ ts)) := by
  induction ts generalizing x with
  | nil => simp
  | cons t rest ih =>
    rw [List.foldl_cons, ih, testBit_setBit, Bool.or_assoc]
    simp [List.mem_cons, Bool.decide_or]

theorem testBit_foldl_clearBit (x : Nat) (ts : List Nat) (i : Nat) :
    (ts.foldl clearBit x).testBit i = (x.testBit i && !decide (i ∈ ts)) := by
  induction ts generalizing x with
  | nil => simp
  | cons t rest ih =>
    rw [List.foldl_cons, ih, testBit_clearBit, Bool.and_assoc]
    simp [List.mem_cons, Bool.decide_or]

theorem invertBit_eq_setBit {x line : Nat} (unset : x.testBit line = false) :
    invertBit x line = setBit x line := by
  refine Nat.eq_of_testBit_eq fun i => ?_
  rw [testBit_invertBit, testBit_setBit]
  by_cases same : i = line
  · simp [same, unset]
  · simp [same]

namespace Gate

theorem applyTo_toffoli (cs : NatSet) (t z : Nat) :
    (toffoli cs t).applyTo z = if cs.toList.all z.testBit then invertBit z t else z := rfl

theorem applyTo_underOnes (v t z : Nat) :
    (underOnes v t).applyTo z = if ∀ i ∈ onesOf v, z.testBit i = true then invertBit z t else z := by
  unfold underOnes
  rw [applyTo_toffoli, NatSet.all_ofList]
  simp only [List.all_eq_true]

/-- A Toffoli gate does to the bits of a number what it does to an assignment. -/
theorem act_testBit {g : Gate} (inverts : g.isToffoli = true) (z : Nat) : g.act z.testBit = (g.applyTo z).testBit := by
  cases g with
  | fredkin cs a b => cases inverts
  | toffoli cs t =>
    rw [act_toffoli, applyTo_toffoli]
    split
    · funext i
      rw [testBit_invertBit, Function.update_apply]
      by_cases same : i = t
      · simp [same]
      · simp [same]
    · rfl

/-- An inverter under the ones of a number, none of which it targets, among `n` lines. -/
def IsUnderOnes (n : Nat) (g : Gate) : Prop := ∃ v t, g = underOnes v t ∧ v.testBit t = false ∧ v < 2 ^ n ∧ t < n

namespace IsUnderOnes

variable {n : Nat} {g : Gate}

theorem isToffoli (under : g.IsUnderOnes n) : g.isToffoli = true := by
  obtain ⟨v, t, rfl, _⟩ := under
  rfl

theorem wellFormed (under : g.IsUnderOnes n) : g.WellFormed n := by
  obtain ⟨v, t, rfl, unset, small, inside⟩ := under
  refine ⟨List.nodup_append.mpr ⟨NatSet.nodup _, List.nodup_singleton t, ?_⟩, fun line touched => ?_⟩
  · intro a control b target equal
    rw [List.mem_singleton.mp target] at equal
    have one := (mem_onesOf.mp (NatSet.mem_ofList.mp control)).2
    rw [equal, unset] at one
    cases one
  · rcases mem_lines.mp touched with control | target
    · have one := (mem_onesOf.mp (NatSet.mem_ofList.mp control)).2
      exact lt_of_one small one
    · rw [List.mem_singleton.mp target]
      exact inside

theorem applyTo_applyTo (under : g.IsUnderOnes n) (z : Nat) : g.applyTo (g.applyTo z) = z := by
  obtain ⟨v, t, rfl, unset, _⟩ := under
  have kept : ∀ i ∈ onesOf v, (invertBit z t).testBit i = z.testBit i := by
    intro i one
    rw [testBit_invertBit, if_neg]
    rintro rfl
    rw [(mem_onesOf.mp one).2] at unset
    cases unset
  rw [applyTo_underOnes v t z]
  split
  · rename_i fires
    rw [applyTo_underOnes, if_pos fun i one => (kept i one).trans (fires i one), invertBit_invertBit]
  · rename_i idle
    rw [applyTo_underOnes, if_neg idle]

theorem applyTo_lt (under : g.IsUnderOnes n) {z : Nat} (small : z < 2 ^ n) : g.applyTo z < 2 ^ n := by
  obtain ⟨v, t, rfl, _, _, inside⟩ := under
  rw [applyTo_underOnes]
  split
  · refine Nat.xor_lt_two_pow small ?_
    rw [Nat.one_shiftLeft]
    exact Nat.pow_lt_pow_right Nat.one_lt_two inside
  · exact small

end IsUnderOnes

end Gate

theorem setBit_missing {x t : Nat} {rest : List Nat} (fresh : t ∉ rest)
    (missing : ∀ u ∈ t :: rest, x.testBit u = false) : ∀ u ∈ rest, (setBit x t).testBit u = false := by
  intro u inRest
  have different : u ≠ t := fun equal => fresh (equal ▸ inRest)
  rw [testBit_setBit, missing u (List.mem_cons_of_mem t inRest)]
  simp [different]

theorem mem_raiseGates {x : Nat} {ts : List Nat} (distinct : ts.Nodup) (missing : ∀ t ∈ ts, x.testBit t = false)
    {g : Gate} (member : g ∈ raiseGates x ts) :
    ∃ v t, g = Gate.underOnes v t ∧ t ∈ ts ∧ v.testBit t = false ∧ (∀ i, x.testBit i = true → v.testBit i = true) ∧
      ∀ i, v.testBit i = true → x.testBit i = true ∨ i ∈ ts := by
  induction ts generalizing x with
  | nil => cases member
  | cons t rest ih =>
    obtain ⟨fresh, distinct⟩ := List.nodup_cons.mp distinct
    rcases List.mem_cons.mp member with rfl | later
    · exact ⟨x, t, rfl, List.mem_cons_self, missing t List.mem_cons_self, fun _ => id, fun _ => Or.inl⟩
    · obtain ⟨v, u, equal, inRest, unset, above, below⟩ := ih distinct (setBit_missing fresh missing) later
      refine ⟨v, u, equal, List.mem_cons_of_mem t inRest, unset, fun i one => above i ?_, fun i one => ?_⟩
      · rw [testBit_setBit, one, Bool.true_or]
      · rcases below i one with old | added
        · rw [testBit_setBit, Bool.or_eq_true, decide_eq_true_iff] at old
          rcases old with old | rfl
          · exact Or.inl old
          · exact Or.inr List.mem_cons_self
        · exact Or.inr (List.mem_cons_of_mem t added)

theorem foldl_raiseGates {x : Nat} {ts : List Nat} (distinct : ts.Nodup) (missing : ∀ t ∈ ts, x.testBit t = false) :
    (raiseGates x ts).foldl Gate.applyTo x = ts.foldl setBit x := by
  induction ts generalizing x with
  | nil => rfl
  | cons t rest ih =>
    obtain ⟨fresh, distinct⟩ := List.nodup_cons.mp distinct
    have raised : (Gate.underOnes x t).applyTo x = setBit x t := by
      rw [Gate.applyTo_underOnes, if_pos fun i one => (mem_onesOf.mp one).2,
        invertBit_eq_setBit (missing t List.mem_cons_self)]
    rw [raiseGates, List.foldl_cons, raised, ih distinct (setBit_missing fresh missing), List.foldl_cons]

theorem testBit_foldl_clear {y z : Nat} {ts : List Nat} (distinct : ts.Nodup)
    (missing : ∀ t ∈ ts, y.testBit t = false) (above : ∀ i ∈ onesOf y, z.testBit i = true) (i : Nat) :
    ((ts.map (Gate.underOnes y)).foldl Gate.applyTo z).testBit i = (z.testBit i != decide (i ∈ ts)) := by
  induction ts generalizing z with
  | nil => simp
  | cons t rest ih =>
    obtain ⟨fresh, distinct⟩ := List.nodup_cons.mp distinct
    have cleared : (Gate.underOnes y t).applyTo z = invertBit z t := by
      rw [Gate.applyTo_underOnes, if_pos above]
    have stillAbove : ∀ i ∈ onesOf y, (invertBit z t).testBit i = true := by
      intro i one
      have different : i ≠ t := by
        rintro rfl
        have unset := missing i List.mem_cons_self
        rw [(mem_onesOf.mp one).2] at unset
        cases unset
      rw [testBit_invertBit, if_neg different, above i one]
    rw [List.map_cons, List.foldl_cons, cleared,
      ih distinct (fun u inRest => missing u (List.mem_cons_of_mem t inRest)) stillAbove, testBit_invertBit]
    by_cases same : i = t
    · subst same
      simp [fresh]
    · simp [same]

theorem mem_rowGates {x y : Nat} {g : Gate} (member : g ∈ rowGates x y) :
    ∃ v t, g = Gate.underOnes v t ∧ v.testBit t = false ∧ min x y ≤ v ∧ (x.testBit t = true ∨ y.testBit t = true) ∧
      ∀ i, v.testBit i = true → x.testBit i = true ∨ y.testBit i = true := by
  rcases List.mem_append.mp member with raises | clears
  · obtain ⟨v, t, equal, inMissing, unset, above, below⟩ :=
      mem_raiseGates (onesMissing_nodup x y) (fun t missing => (mem_onesMissing.mp missing).2.2) raises
    refine ⟨v, t, equal, unset, (min_le_left x y).trans (Nat.le_of_testBit above),
      Or.inr (mem_onesMissing.mp inMissing).2.1, fun i one => ?_⟩
    exact (below i one).imp_right fun missing => (mem_onesMissing.mp missing).2.1
  · obtain ⟨t, inMissing, rfl⟩ := List.mem_map.mp clears
    have bits := (mem_onesMissing.mp inMissing).2
    exact ⟨y, t, rfl, bits.2, min_le_right x y, Or.inl bits.1, fun _ => Or.inr⟩

theorem rowGates_isUnderOnes {n x y : Nat} (left : x < 2 ^ n) (right : y < 2 ^ n) :
    ∀ g ∈ rowGates x y, g.IsUnderOnes n := by
  intro g member
  obtain ⟨v, t, equal, unset, _, target, ones⟩ := mem_rowGates member
  have inside : ∀ i, x.testBit i = true ∨ y.testBit i = true → i < n := by
    rintro i (one | one)
    · exact lt_of_one left one
    · exact lt_of_one right one
  refine ⟨v, t, equal, unset, Nat.lt_pow_two_of_testBit v fun i high => ?_, inside t target⟩
  exact Bool.eq_false_iff.mpr fun one => absurd (inside i (ones i one)) (by omega)

/-- Every gate of a row needs all ones of a number that is at least as large as both ends of the row. -/
theorem rowGates_fix_below {x y z : Nat} {g : Gate} (left : x < 2 ^ 64) (right : y < 2 ^ 64)
    (member : g ∈ rowGates x y) (below : z < min x y) : g.applyTo z = z := by
  obtain ⟨v, t, rfl, _, bound, _, ones⟩ := mem_rowGates member
  rw [Gate.applyTo_underOnes, if_neg]
  intro every
  have contains : ∀ i, v.testBit i = true → z.testBit i = true := by
    intro i one
    refine every i (mem_onesOf.mpr ⟨?_, one⟩)
    rcases ones i one with inX | inY
    · exact lt_of_one left inX
    · exact lt_of_one right inY
  have := Nat.le_of_testBit contains
  omega

theorem foldl_rowGates {x y : Nat} (left : x < 2 ^ 64) (right : y < 2 ^ 64) :
    (rowGates x y).foldl Gate.applyTo x = y := by
  have raised := fun i => congrArg (Nat.testBit · i)
    (foldl_raiseGates (onesMissing_nodup x y) fun t missing => (mem_onesMissing.mp missing).2.2)
  simp only [testBit_foldl_setBit] at raised
  have above : ∀ i ∈ onesOf y, ((raiseGates x (onesMissing x y)).foldl Gate.applyTo x).testBit i = true := by
    intro i one
    obtain ⟨low, inY⟩ := mem_onesOf.mp one
    rw [raised, Bool.or_eq_true, decide_eq_true_iff, mem_onesMissing]
    cases inX : x.testBit i with
    | true => exact Or.inl rfl
    | false => exact Or.inr ⟨low, inY, rfl⟩
  refine Nat.eq_of_testBit_eq fun i => ?_
  rw [rowGates, List.foldl_append,
    testBit_foldl_clear (onesMissing_nodup y x) (fun t missing => (mem_onesMissing.mp missing).2.2) above, raised]
  by_cases low : i < 64
  · simp only [mem_onesMissing, low, true_and]
    cases x.testBit i <;> cases y.testBit i <;> rfl
  · have high : 64 ≤ i := Nat.not_lt.mp low
    simp [mem_onesMissing, low, testBit_above left high, testBit_above right high]

theorem length_raiseGates (x : Nat) (ts : List Nat) : (raiseGates x ts).length = ts.length := by
  induction ts generalizing x with
  | nil => rfl
  | cons t rest ih => rw [raiseGates, List.length_cons, List.length_cons, ih]

/-- A row takes one gate for every position where its ends differ. -/
theorem length_rowGates (x y : Nat) : (rowGates x y).length = hammingDistance x y := by
  have split : ∀ positions : List Nat,
      (positions.filter fun i => y.testBit i && !x.testBit i).length +
        (positions.filter fun i => x.testBit i && !y.testBit i).length =
      (positions.filter fun i => x.testBit i != y.testBit i).length := by
    intro positions
    induction positions with
    | nil => rfl
    | cons i rest ih =>
      simp only [List.filter_cons]
      cases x.testBit i <;> cases y.testBit i <;> simp <;> omega
  rw [rowGates, List.length_append, length_raiseGates, List.length_map]
  exact split (List.range 64)

theorem controlledNot_onesOf {v t : Nat} (unset : v.testBit t = false) :
    Gate.controlledNot (onesOf v) t = .ok (Gate.underOnes v t) := by
  have free : t ∉ NatSet.ofList (onesOf v) := fun control => by
    rw [(mem_onesOf.mp (NatSet.mem_ofList.mp control)).2] at unset
    cases unset
  unfold Gate.controlledNot
  rw [require_of free]
  rfl

theorem eq_underOnes_of_controlledNot {v t : Nat} {g : Gate} (run : Gate.controlledNot (onesOf v) t = .ok g) :
    g = Gate.underOnes v t := by
  obtain ⟨-, run⟩ := require_bind_eq_ok.mp run
  cases run
  rfl

theorem raise_eq_ok {x : Nat} {ts : List Nat} (distinct : ts.Nodup) (missing : ∀ t ∈ ts, x.testBit t = false) :
    raise x ts = .ok (raiseGates x ts) := by
  induction ts generalizing x with
  | nil => rfl
  | cons t rest ih =>
    obtain ⟨fresh, distinct⟩ := List.nodup_cons.mp distinct
    unfold raise
    rw [controlledNot_onesOf (missing t List.mem_cons_self), ok_bind, ih distinct (setBit_missing fresh missing)]
    rfl

theorem eq_raiseGates_of_raise {x : Nat} {ts : List Nat} {gates : List Gate} (run : raise x ts = .ok gates) :
    gates = raiseGates x ts := by
  induction ts generalizing x gates with
  | nil =>
    cases run
    rfl
  | cons t rest ih =>
    obtain ⟨g, head, run⟩ := bind_eq_ok.mp run
    obtain ⟨others, tail, run⟩ := bind_eq_ok.mp run
    cases run
    rw [raiseGates, eq_underOnes_of_controlledNot head, ih tail]

/-- The bits that are set do not change what is to be cleared. -/
theorem onesMissing_raised (x y : Nat) : onesMissing y ((onesMissing x y).foldl setBit x) = onesMissing y x := by
  refine List.filter_congr fun i inside => ?_
  rw [testBit_foldl_setBit]
  simp only [mem_onesMissing, List.mem_range.mp inside, true_and]
  cases x.testBit i <;> cases y.testBit i <;> rfl

theorem eq_rowGates_of_turn {x y : Nat} {gates : List Gate} (run : turn x y = .ok gates) : gates = rowGates x y := by
  obtain ⟨raising, raises, run⟩ := bind_eq_ok.mp run
  obtain ⟨clearing, clears, run⟩ := bind_eq_ok.mp run
  obtain ⟨-, run⟩ := require_bind_eq_ok.mp run
  cases run
  obtain ⟨rfl, -⟩ := eq_map_of_mapM (fun _ _ => eq_underOnes_of_controlledNot) clears
  rw [eq_raiseGates_of_raise raises, onesMissing_raised]
  rfl

/-- Between 64-bit numbers all checks pass: no gate targets one of its controls, and the bits end up as they should. -/
theorem turn_eq_ok {x y : Nat} (left : x < 2 ^ 64) (right : y < 2 ^ 64) : turn x y = .ok (rowGates x y) := by
  have clears : (onesMissing y x).mapM (Gate.controlledNot (onesOf y)) =
      .ok ((onesMissing y x).map (Gate.underOnes y)) :=
    mapM_eq_ok fun t missing => controlledNot_onesOf (mem_onesMissing.mp missing).2.2
  have goal : (onesMissing y x).foldl clearBit ((onesMissing x y).foldl setBit x) = y := by
    refine Nat.eq_of_testBit_eq fun i => ?_
    rw [testBit_foldl_clearBit, testBit_foldl_setBit]
    simp only [mem_onesMissing]
    by_cases low : i < 64
    · simp only [low, true_and]
      cases x.testBit i <;> cases y.testBit i <;> rfl
    · have high : 64 ≤ i := Nat.not_lt.mp low
      rw [testBit_above left high, testBit_above right high]
      simp
  unfold turn
  rw [raise_eq_ok (onesMissing_nodup x y) fun t missing => (mem_onesMissing.mp missing).2.2, ok_bind]
  dsimp only
  rw [onesMissing_raised, clears, ok_bind, require_of goal]
  rfl

/-- A row is turned without a failing check. Its gates stay on the lines of its ends and are as many inverters as these
have different bits. In order they take one end to the other, and each alone fixes all assignments below both. -/
theorem rowGates_turn {n x y : Nat} (word : n ≤ 64) (left : x < 2 ^ n) (right : y < 2 ^ n) :
    turn x y = .ok (rowGates x y) ∧ (∀ g ∈ rowGates x y, g.isToffoli = true ∧ g.WellFormed n) ∧
      (rowGates x y).length = hammingDistance x y ∧ (rowGates x y).foldl Gate.applyTo x = y ∧
        ∀ g ∈ rowGates x y, ∀ z < min x y, g.applyTo z = z := by
  have fits : 2 ^ n ≤ 2 ^ 64 := Nat.pow_le_pow_right Nat.two_pos word
  have wideLeft := left.trans_le fits
  have wideRight := right.trans_le fits
  refine ⟨turn_eq_ok wideLeft wideRight, fun g member => ?_, length_rowGates x y, foldl_rowGates wideLeft wideRight,
    fun g member z below => ?_⟩
  · have under := rowGates_isUnderOnes left right g member
    exact ⟨under.isToffoli, under.wellFormed⟩
  · exact rowGates_fix_below wideLeft wideRight member below

/-- Two bits are set and three are cleared, among them the top bit of a word. The last of the gates needs the ones of
10, and 9 has not all of them. -/
theorem rowGates_turn_opposite : 64 ≤ 64 ∧ 2 ^ 63 + 5 < 2 ^ 64 ∧ 10 < 2 ^ 64 ∧
    turn (2 ^ 63 + 5) 10 = .ok (rowGates (2 ^ 63 + 5) 10) ∧
    rowGates (2 ^ 63 + 5) 10 = [.toffoli (.ofList [0, 2, 63]) 1, .toffoli (.ofList [0, 1, 2, 63]) 3,
      .toffoli (.ofList [1, 3]) 0, .toffoli (.ofList [1, 3]) 2, .toffoli (.ofList [1, 3]) 63] ∧
    (∀ g ∈ rowGates (2 ^ 63 + 5) 10, g.isToffoli = true ∧ g.WellFormed 64) ∧
    hammingDistance (2 ^ 63 + 5) 10 = 5 ∧ (rowGates (2 ^ 63 + 5) 10).foldl Gate.applyTo (2 ^ 63 + 5) = 10 ∧
    .toffoli (.ofList [1, 3]) 63 ∈ rowGates (2 ^ 63 + 5) 10 ∧ 9 < min (2 ^ 63 + 5) 10 ∧
    (Gate.toffoli (.ofList [1, 3]) 63).applyTo 9 = 9 := by
  have gates : rowGates (2 ^ 63 + 5) 10 = [.toffoli (.ofList [0, 2, 63]) 1, .toffoli (.ofList [0, 1, 2, 63]) 3,
      .toffoli (.ofList [1, 3]) 0, .toffoli (.ofList [1, 3]) 2, .toffoli (.ofList [1, 3]) 63] := by decide +kernel
  have last : .toffoli (.ofList [1, 3]) 63 ∈ rowGates (2 ^ 63 + 5) 10 := by
    rw [gates]
    decide
  obtain ⟨checked, formed, length, turns, fixed⟩ :=
    rowGates_turn (n := 64) (x := 2 ^ 63 + 5) (y := 10) le_rfl (by decide) (by decide)
  have distance : hammingDistance (2 ^ 63 + 5) 10 = 5 := by rw [← length, gates]; rfl
  exact ⟨le_rfl, by decide, by decide, checked, gates, formed, distance, turns, last, by decide,
    fixed _ last 9 (by decide)⟩

theorem foldl_applyTo_eq_self {gates : List Gate} {z : Nat} (fixed : ∀ g ∈ gates, g.applyTo z = z) :
    gates.foldl Gate.applyTo z = z := by
  induction gates with
  | nil => rfl
  | cons g rest ih =>
    rw [List.foldl_cons, fixed g List.mem_cons_self]
    exact ih fun other member => fixed other (List.mem_cons_of_mem g member)

theorem foldl_rowGates_below {x y z : Nat} (left : x < 2 ^ 64) (right : y < 2 ^ 64) (below : z < min x y) :
    (rowGates x y).foldl Gate.applyTo z = z :=
  foldl_applyTo_eq_self fun _ member => rowGates_fix_below left right member below

theorem foldl_applyTo_lt {n : Nat} {gates : List Gate} (under : ∀ g ∈ gates, g.IsUnderOnes n) {z : Nat}
    (small : z < 2 ^ n) : gates.foldl Gate.applyTo z < 2 ^ n := by
  induction gates generalizing z with
  | nil => exact small
  | cons g rest ih =>
    exact ih (fun other member => under other (List.mem_cons_of_mem g member))
      ((under g List.mem_cons_self).applyTo_lt small)

/-- The gates in reverse order undo what they have done. -/
theorem foldl_applyTo_reverse {n : Nat} {gates : List Gate} (under : ∀ g ∈ gates, g.IsUnderOnes n) (z : Nat) :
    gates.reverse.foldl Gate.applyTo (gates.foldl Gate.applyTo z) = z := by
  induction gates generalizing z with
  | nil => rfl
  | cons g rest ih =>
    rw [List.reverse_cons, List.foldl_append, List.foldl_cons, List.foldl_cons,
      ih fun other member => under other (List.mem_cons_of_mem g member)]
    exact (under g List.mem_cons_self).applyTo_applyTo z

theorem foldl_applyTo_bijOn {n : Nat} {gates : List Gate} (under : ∀ g ∈ gates, g.IsUnderOnes n) :
    Set.BijOn (gates.foldl Gate.applyTo) {z | z < 2 ^ n} {z | z < 2 ^ n} := by
  have backwards : ∀ g ∈ gates.reverse, g.IsUnderOnes n := fun g member => under g (List.mem_reverse.mp member)
  have undone : Set.InvOn (gates.reverse.foldl Gate.applyTo) (gates.foldl Gate.applyTo)
      {z | z < 2 ^ n} {z | z < 2 ^ n} := by
    refine ⟨fun z _ => foldl_applyTo_reverse under z, fun z _ => ?_⟩
    have redone := foldl_applyTo_reverse backwards z
    rwa [List.reverse_reverse] at redone
  exact undone.bijOn (fun z => foldl_applyTo_lt under) fun z => foldl_applyTo_lt backwards

theorem act_foldl_applyTo {gates : List Gate} (inverts : ∀ g ∈ gates, g.isToffoli = true) (z : Nat) :
    Circuit.act gates z.testBit = (gates.foldl Gate.applyTo z).testBit := by
  induction gates generalizing z with
  | nil => rfl
  | cons g rest ih =>
    rw [Circuit.act_cons, Gate.act_testBit (inverts g List.mem_cons_self),
      ih fun other member => inverts other (List.mem_cons_of_mem g member)]
    rfl

end Reversible
