import Reversible.Proofs.Synthesis.RowGates
import Reversible.Synthesis.Transformation

namespace Reversible.Transformation

/-- Every number below `2 ^ n` is listed once. -/
def IsPermutation (n : Nat) (perm : Array Nat) : Prop := perm.toList.Perm (List.range (2 ^ n))

namespace IsPermutation

variable {n : Nat} {perm : Array Nat}

theorem size_eq (permutes : IsPermutation n perm) : perm.size = 2 ^ n := by
  rw [← Array.length_toList, List.Perm.length_eq permutes, List.length_range]

theorem bijOn (permutes : IsPermutation n perm) :
    Set.BijOn (fun r => perm.getD r r) {r | r < 2 ^ n} {r | r < 2 ^ n} := by
  have distinct : perm.toList.Nodup := (List.Perm.nodup_iff permutes).mpr List.nodup_range
  have length : perm.toList.length = 2 ^ n := permutes.size_eq
  have value : ∀ r < 2 ^ n, perm.toList[r]? = some (perm.getD r r) := by
    intro r inside
    simp [Array.getD, permutes.size_eq, inside]
  refine ⟨fun r inside => ?_, fun r inR s inS equal => ?_, fun y below => ?_⟩
  · have member := List.mem_of_getElem? (value r inside)
    exact List.mem_range.mp ((List.Perm.mem_iff permutes).mp member)
  · have entries : perm.toList[r]? = perm.toList[s]? := by rw [value r inR, value s inS]; exact congrArg some equal
    exact (List.getElem?_inj (length ▸ inR) distinct).mp entries
  · obtain ⟨r, entry⟩ := List.mem_iff_getElem?.mp ((List.Perm.mem_iff permutes).mpr (List.mem_range.mpr below))
    have inside : r < 2 ^ n := length ▸ (List.getElem?_eq_some_iff.mp entry).1
    exact ⟨r, inside, Option.some.inj ((value r inside).symm.trans entry)⟩

end IsPermutation

namespace Progress

/-- The output of a row in what is left to do. -/
def output (p : Progress) (r : Nat) : Nat := p.rest.getD r r

/-- The rows before `x` are done, and what is left to do makes up `perm` together with the gates so far. -/
structure Reaches (n : Nat) (perm : Array Nat) (x : Nat) (p : Progress) : Prop where
  size : p.rest.size = 2 ^ n
  bijective : Set.BijOn p.output {r | r < 2 ^ n} {r | r < 2 ^ n}
  factors : ∀ z < 2 ^ n, p.back.foldl Gate.applyTo (p.output (p.front.foldl Gate.applyTo z)) = perm.getD z z
  fixed : ∀ r < x, p.output r = r
  front : ∀ g ∈ p.front, g.IsUnderOnes n
  back : ∀ g ∈ p.back, g.IsUnderOnes n

theorem reaches_start {n : Nat} {perm : Array Nat} (permutes : IsPermutation n perm) :
    Reaches n perm 0 { rest := perm } where
  size := permutes.size_eq
  bijective := permutes.bijOn
  factors := fun _ _ => rfl
  fixed := nofun
  front := nofun
  back := nofun

variable {n x : Nat} {perm : Array Nat} {p : Progress}

theorem entryAt_output (inside : x < p.rest.size) : entryAt p.rest x = .ok (p.output x) := by
  simp [entryAt, output, Array.getD, inside]

theorem of_entryAt {y : Nat} (run : entryAt p.rest x = .ok y) : x < p.rest.size ∧ y = p.output x := by
  by_cases inside : x < p.rest.size
  · exact ⟨inside, (Except.ok.inj ((entryAt_output inside).symm.trans run)).symm⟩
  · simp [entryAt, inside] at run

/-- A gate that stays among the assignments can stand in front of what is left. -/
theorem exists_afterGate {f : Array Nat} {g : Gate} (size : f.size = 2 ^ n) (under : g.IsUnderOnes n) :
    ∃ h, afterGate f g = .ok h ∧ h.size = 2 ^ n ∧ ∀ r < 2 ^ n, h.getD r r = f.getD (g.applyTo r) (g.applyTo r) := by
  have entries : (List.range f.size).mapM (fun r => entryAt f (g.applyTo r)) =
      .ok ((List.range f.size).map fun r => f.getD (g.applyTo r) (g.applyTo r)) := by
    refine mapM_eq_ok fun r member => ?_
    have inside := under.applyTo_lt (size ▸ List.mem_range.mp member)
    exact entryAt_output (p := { rest := f }) (size ▸ inside)
  refine ⟨_, by rw [afterGate, entries]; rfl, by simp [size], fun r below => ?_⟩
  simp [Array.getD, size, below]

theorem exists_foldlM_afterGate {f : Array Nat} {gates : List Gate} (size : f.size = 2 ^ n)
    (under : ∀ g ∈ gates, g.IsUnderOnes n) :
    ∃ h, gates.foldlM afterGate f = .ok h ∧ h.size = 2 ^ n ∧ ∀ r < 2 ^ n,
      h.getD r r = f.getD (gates.reverse.foldl Gate.applyTo r) (gates.reverse.foldl Gate.applyTo r) := by
  induction gates generalizing f with
  | nil => exact ⟨f, rfl, size, fun _ _ => rfl⟩
  | cons g rest ih =>
    obtain ⟨head, tail⟩ := List.forall_mem_cons.mp under
    obtain ⟨first, run, firstSize, moved⟩ := exists_afterGate size head
    obtain ⟨h, later, hSize, others⟩ := ih firstSize tail
    refine ⟨h, by rw [List.foldlM_cons, run, ok_bind, later], hSize, fun r below => ?_⟩
    have inside : rest.reverse.foldl Gate.applyTo r < 2 ^ n :=
      foldl_applyTo_lt (fun g member => tail g (List.mem_reverse.mp member)) below
    rw [others r below, moved _ inside, List.reverse_cons, List.foldl_append]
    rfl

/-- Gates that stay among the assignments can be taken in front of what is left. -/
theorem exists_inFront {gates : List Gate} (size : p.rest.size = 2 ^ n) (under : ∀ g ∈ gates, g.IsUnderOnes n) :
    ∃ q, p.inFront gates = .ok q ∧ q.rest.size = 2 ^ n ∧ q.front = p.front ++ gates.reverse ∧ q.back = p.back ∧
      ∀ r < 2 ^ n, q.output r = p.output (gates.foldl Gate.applyTo r) := by
  obtain ⟨h, run, hSize, moved⟩ :=
    exists_foldlM_afterGate size fun g member => under g (List.mem_reverse.mp member)
  rw [List.reverse_reverse] at moved
  exact ⟨{ p with rest := h, front := p.front ++ gates.reverse }, by rw [inFront, run]; rfl, hSize, rfl, rfl, moved⟩

theorem output_behind (gates : List Gate) {r : Nat} (inside : r < p.rest.size) :
    (p.behind gates).output r = gates.foldl Gate.applyTo (p.output r) := by
  simp [output, behind, Array.getD, inside]

theorem back_behind (gates : List Gate) (z : Nat) : (p.behind gates).back.foldl Gate.applyTo z =
    p.back.foldl Gate.applyTo (gates.reverse.foldl Gate.applyTo z) := List.foldl_append

namespace Reaches

/-- All smaller outputs are taken, so what is not done yet has an output above its row. -/
theorem lt_of_getD_ne (reaches : Reaches n perm x p) (inside : x < 2 ^ n) (open' : p.output x ≠ x) :
    x < p.output x := by
  by_contra notAbove
  have below : p.output x < x := by omega
  have done := reaches.fixed _ below
  exact open' (reaches.bijective.injOn (show p.output x < 2 ^ n by omega) inside done)

theorem lt_of_getD_eq (reaches : Reaches n perm x p) {source : Nat} (open' : p.output x ≠ x)
    (found : p.output source = x) : x < source := by
  by_contra notAbove
  rcases Nat.lt_or_eq_of_le (Nat.not_lt.mp notAbove) with below | same
  · have done := reaches.fixed source below
    omega
  · exact open' (same ▸ found)

theorem source_exists (reaches : Reaches n perm x p) (inside : x < 2 ^ n) :
    ∃ source, p.rest.idxOf? x = some source ∧ source < 2 ^ n ∧ p.output source = x := by
  obtain ⟨r, below, value⟩ := reaches.bijective.surjOn inside
  have bound : r < p.rest.size := by rw [reaches.size]; exact below
  have member : x ∈ p.rest := by
    have at' : p.rest[r] = x := by simpa [output, Array.getD, bound] using value
    exact at' ▸ Array.getElem_mem bound
  cases found : p.rest.idxOf? x with
  | none => exact absurd member (Array.idxOf?_eq_none_iff.mp found)
  | some source =>
    rw [← p.rest.toArray_toList, List.idxOf?_toArray] at found
    obtain ⟨listBound, at', _⟩ := List.idxOf?_eq_some_iff.mp found
    have sourceBound : source < p.rest.size := listBound
    refine ⟨source, rfl, reaches.size ▸ sourceBound, ?_⟩
    simpa [output, Array.getD, sourceBound] using at'

theorem inFront (reaches : Reaches n perm x p) (width : n ≤ 63) {source : Nat} (above : x < source)
    (inside : source < 2 ^ n) (value : p.output source = x) :
    ∃ q, p.inFront (rowGates x source) = .ok q ∧ Reaches n perm (x + 1) q := by
  have word : 2 ^ n < 2 ^ 64 := two_pow_lt_word (by omega)
  have row := rowGates_isUnderOnes (above.trans inside) inside
  have moved := foldl_applyTo_bijOn row
  obtain ⟨q, run, size, front, back, rest⟩ := exists_inFront reaches.size row
  have rowReverse : ∀ g ∈ (rowGates x source).reverse, g.IsUnderOnes n :=
    fun g member => row g (List.mem_reverse.mp member)
  refine ⟨q, run, size, ?_, fun z below => ?_, fun r below => ?_, ?_, back ▸ reaches.back⟩
  · refine (reaches.bijective.comp moved).congr fun r below => ?_
    exact (rest r below).symm
  · have atFront := foldl_applyTo_lt reaches.front below
    have undone := foldl_applyTo_reverse rowReverse (p.front.foldl Gate.applyTo z)
    rw [List.reverse_reverse] at undone
    rw [back, front, List.foldl_append, rest _ (foldl_applyTo_lt rowReverse atFront), undone]
    exact reaches.factors z below
  · rcases Nat.lt_or_eq_of_le (Nat.lt_succ_iff.mp below) with earlier | rfl
    · rw [rest r (by omega), foldl_rowGates_below (by omega) (by omega) (by omega), reaches.fixed r earlier]
    · rw [rest r (by omega), foldl_rowGates (by omega) (by omega), value]
  · rw [front]
    exact List.forall_mem_append.mpr ⟨reaches.front, rowReverse⟩

theorem behind (reaches : Reaches n perm x p) (width : n ≤ 63) {y : Nat} (above : x < y) (inside : y < 2 ^ n)
    (value : p.output x = y) : Reaches n perm (x + 1) (p.behind (rowGates y x)) := by
  have word : 2 ^ n < 2 ^ 64 := two_pow_lt_word (by omega)
  have row := rowGates_isUnderOnes inside (above.trans inside)
  have rest : ∀ r < 2 ^ n, (p.behind (rowGates y x)).output r = (rowGates y x).foldl Gate.applyTo (p.output r) :=
    fun r below => output_behind _ (reaches.size ▸ below)
  refine ⟨by simp [Progress.behind, reaches.size], ?_, fun z below => ?_, fun r below => ?_, reaches.front, ?_⟩
  · refine ((foldl_applyTo_bijOn row).comp reaches.bijective).congr fun r below => ?_
    exact (rest r below).symm
  · have atFront : p.front.foldl Gate.applyTo z < 2 ^ n := foldl_applyTo_lt reaches.front below
    change (p.behind _).back.foldl _ ((p.behind _).output (p.front.foldl Gate.applyTo z)) = _
    rw [back_behind, rest _ atFront, foldl_applyTo_reverse row]
    exact reaches.factors z below
  · rcases Nat.lt_or_eq_of_le (Nat.lt_succ_iff.mp below) with earlier | rfl
    · rw [rest r (by omega), reaches.fixed r earlier, foldl_rowGates_below (by omega) (by omega) (by omega)]
    · rw [rest r (by omega), value, foldl_rowGates (by omega) (by omega)]
  · exact List.forall_mem_append.mpr ⟨fun g member => row g (List.mem_reverse.mp member), reaches.back⟩

end Reaches

end Progress

open Progress

variable {n : Nat} {perm : Array Nat}

theorem Progress.Reaches.pass {x : Nat} {p : Progress} (reaches : Reaches n perm x p) (done : p.output x = x) :
    Reaches n perm (x + 1) p := by
  refine { reaches with fixed := fun r below => ?_ }
  rcases Nat.lt_or_eq_of_le (Nat.lt_succ_iff.mp below) with earlier | rfl
  · exact reaches.fixed r earlier
  · exact done

theorem source?_of_found {s : Transformation} {x y source : Nat} {p : Progress}
    (found : p.rest.idxOf? x = some source) : s.source? p x y =
      .ok (if s.bidirectional ∧ hammingDistance x source < hammingDistance x y then some source else none) := by
  unfold source?
  rw [found]
  cases s.bidirectional <;> simp

/-- All checks of a row pass while the rows before it are done. -/
theorem fixRow_reaches (s : Transformation) (width : n ≤ 63) {x : Nat} {p : Progress} (reaches : Reaches n perm x p)
    (inside : x < 2 ^ n) (open' : p.output x ≠ x) :
    ∃ q, s.fixRow p x (p.output x) = .ok q ∧ Reaches n perm (x + 1) q := by
  have word : 2 ^ n < 2 ^ 64 := two_pow_lt_word (by omega)
  have image : p.output x < 2 ^ n := reaches.bijective.mapsTo inside
  obtain ⟨source, found, bound, value⟩ := reaches.source_exists inside
  have done : ∀ q, Reaches n perm (x + 1) q → entryAt q.rest x = .ok x := fun q reached => by
    rw [entryAt_output (reached.size ▸ inside), reached.fixed x (Nat.lt_succ_self x)]
  unfold fixRow
  rw [source?_of_found found, ok_bind]
  split_ifs with fewer
  · obtain ⟨q, run, reached⟩ := reaches.inFront width (reaches.lt_of_getD_eq open' value) bound value
    refine ⟨q, ?_, reached⟩
    dsimp only
    rw [turn_eq_ok (inside.trans word) (bound.trans word), ok_bind, run, ok_bind, done q reached, ok_bind,
      require_of rfl]
    rfl
  · have reached := reaches.behind width (reaches.lt_of_getD_ne inside open') image rfl
    refine ⟨_, ?_, reached⟩
    dsimp only
    rw [turn_eq_ok (image.trans word) (inside.trans word), ok_bind, pure_eq_ok, ok_bind, done _ reached, ok_bind,
      require_of rfl]
    rfl

/-- Rows in ascending order never fail. Without a limit all of them are done. -/
theorem fixRows_reaches (s : Transformation) (width : n ≤ 63) {x count : Nat} {p : Progress}
    (reaches : Reaches n perm x p) (room : x + count ≤ 2 ^ n) :
    ∃ result, s.fixRows p (List.range' x count) = .ok result ∧
      (∀ q, result = .ok q → Reaches n perm (x + count) q) ∧ (s.gateLimit = none → ∃ q, result = .ok q) := by
  induction count generalizing x p with
  | zero => exact ⟨.ok p, rfl, fun q equal => by cases equal; exact reaches, fun _ => ⟨p, rfl⟩⟩
  | succ count ih =>
    rw [List.range'_succ, show x + (count + 1) = x + 1 + count by omega]
    have inside : x < 2 ^ n := by omega
    unfold fixRows
    rw [entryAt_output (reaches.size ▸ inside), ok_bind]
    by_cases done : p.output x = x
    · rw [if_pos done]
      exact ih (reaches.pass done) (by omega)
    obtain ⟨next, step, reached⟩ := fixRow_reaches s width reaches inside done
    rw [if_neg done, step, ok_bind]
    cases limit : s.checkLimit next.gates.length with
    | error e =>
      refine ⟨.error e, rfl, nofun, fun unlimited => ?_⟩
      simp [checkLimit, unlimited] at limit
    | ok _ => exact ih reached (by omega)

theorem Progress.Reaches.ofGates {p : Progress} (reaches : Reaches n perm (2 ^ n) p) :
    Circuit.ofGates n p.gates = .ok { Circuit.blank n with gates := p.gates } := by
  have checked : p.gates.forM (Circuit.checkGate n) = .ok () := by
    refine forM_eq_ok fun g member => ?_
    have under : g.IsUnderOnes n := (List.mem_append.mp member).elim (reaches.front g) (reaches.back g)
    exact require_of under.wellFormed.maxLine_lt _
  unfold Circuit.ofGates
  rw [checked]
  rfl

/-- What makes a circuit one for a permutation of all assignments to `n` lines. -/
structure Realizes (n : Nat) (perm : Array Nat) (c : Circuit) : Prop where
  lines : c.lines = n
  inverts : ∀ g ∈ c.gates, g.isToffoli = true
  formed : c.WellFormed
  computes : ∀ x < 2 ^ n, Circuit.act c.gates x.testBit = (perm.getD x x).testBit

theorem Progress.Reaches.realizes {p : Progress} (reaches : Reaches n perm (2 ^ n) p) :
    Realizes n perm { Circuit.blank n with gates := p.gates } := by
  have under : ∀ g ∈ p.gates, g.IsUnderOnes n :=
    fun g member => (List.mem_append.mp member).elim (reaches.front g) (reaches.back g)
  have lines : ({ Circuit.blank n with gates := p.gates } : Circuit).lines = n := by
    simp [Circuit.lines, Circuit.blank]
  refine ⟨lines, fun g member => (under g member).isToffoli, fun g member => ?_, fun x below => ?_⟩
  · rw [lines]
    exact (under g member).wellFormed
  · have factors := reaches.factors x below
    rw [reaches.fixed _ (foldl_applyTo_lt reaches.front below)] at factors
    change Circuit.act p.gates _ = _
    rw [act_foldl_applyTo fun g member => (under g member).isToffoli, ← factors, Progress.gates, List.foldl_append]

/-- Synthesis of a permutation never fails. It gives up only at a limit, and what it builds computes the permutation. -/
theorem permutation_spec (s : Transformation) (width : n ≤ 63) (permutes : IsPermutation n perm) :
    ∃ result, s.permutation n perm = .ok result ∧ (∀ c, result = .ok c → Realizes n perm c) ∧
      (s.gateLimit = none → ∃ c, result = .ok c) := by
  have count : 1 <<< n = 2 ^ n := Nat.one_shiftLeft n
  obtain ⟨result, run, done, finishes⟩ := fixRows_reaches s width (reaches_start permutes) (Nat.zero_add _).le
  unfold permutation
  rw [assignmentCount_eq_ok (by omega), ok_bind, count, require_of permutes.size_eq, ok_bind, List.range_eq_range',
    run, ok_bind]
  cases result with
  | error e => exact ⟨.error e, rfl, nofun, fun unlimited => by simpa using finishes unlimited⟩
  | ok p =>
    have reached := done p rfl
    rw [Nat.zero_add] at reached
    refine ⟨.ok { Circuit.blank n with gates := p.gates }, ?_, fun c equal => ?_, fun _ => ⟨_, rfl⟩⟩
    · simp only [reached.ofGates, ok_bind, pure_eq_ok]
    · cases equal
      exact reached.realizes

/-- Without a limit every permutation gets a circuit of Toffoli gates, which takes every assignment to its image. -/
theorem permutation_simulates (s : Transformation) (unlimited : s.gateLimit = none) (width : n ≤ 63)
    (permutes : IsPermutation n perm) :
    ∃ c, s.permutation n perm = .ok (.ok c) ∧ c.lines = n ∧ (∀ g ∈ c.gates, g.isToffoli = true ∧ g.WellFormed n) ∧
      ∀ x (below : x < perm.size),
        simulate c (Bits.ofWord n x.toUInt64) = .ok (Bits.ofWord n perm[x].toUInt64) := by
  obtain ⟨result, run, realizes, finishes⟩ := permutation_spec s width permutes
  obtain ⟨c, rfl⟩ := finishes unlimited
  have circuit := realizes c rfl
  have word : 2 ^ n < 2 ^ 64 := two_pow_lt_word (by omega)
  refine ⟨c, run, circuit.lines, fun g member => ?_, fun x below => ?_⟩
  · exact ⟨circuit.inverts g member, circuit.lines ▸ circuit.formed g member⟩
  · have small : x < 2 ^ n := permutes.size_eq ▸ below
    have image : perm.getD x x = perm[x] := by simp [Array.getD, below]
    have bound : perm[x] < 2 ^ n := image ▸ permutes.bijOn.mapsTo small
    have simulated := Circuit.simulate_pack circuit.formed x.testBit
    rw [circuit.lines, circuit.computes x small, image] at simulated
    rw [Bits.ofWord_toUInt64 n (by omega), Bits.ofWord_toUInt64 n (by omega), simulated]

theorem permutation_simulates_cycle :
    ({} : Transformation).gateLimit = none ∧ 2 ≤ 63 ∧ IsPermutation 2 #[1, 2, 3, 0] ∧
      ∃ c, ({} : Transformation).permutation 2 #[1, 2, 3, 0] = .ok (.ok c) ∧ c.lines = 2 ∧
        (∀ g ∈ c.gates, g.isToffoli = true ∧ g.WellFormed 2) ∧
        ∀ x (below : x < #[1, 2, 3, 0].size),
          simulate c (Bits.ofWord 2 x.toUInt64) = .ok (Bits.ofWord 2 #[1, 2, 3, 0][x].toUInt64) := by
  have permutes : IsPermutation 2 #[1, 2, 3, 0] := by
    unfold IsPermutation
    decide
  exact ⟨rfl, by decide, permutes, permutation_simulates {} rfl (by decide) permutes⟩

end Reversible.Transformation
