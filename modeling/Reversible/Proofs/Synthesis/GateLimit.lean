import Reversible.Proofs.Synthesis.Transformation

namespace Reversible

theorem Circuit.of_ofGates {n : Nat} {gates : List Gate} {c : Circuit} (run : Circuit.ofGates n gates = .ok c) :
    c = { Circuit.blank n with gates } := by
  unfold ofGates at run
  obtain ⟨_, -, run⟩ := bind_eq_ok.mp run
  cases run
  rfl

namespace Transformation

variable {s : Transformation} {n x y limit : Nat} {perm : Array Nat} {p q : Progress}

open Progress

theorem of_source? {source : Nat} (run : s.source? p x y = .ok (some source)) :
    s.bidirectional = true ∧ p.rest.idxOf? x = some source ∧ hammingDistance x source < hammingDistance x y := by
  cases found : p.rest.idxOf? x with
  | none =>
    unfold source? at run
    rw [found] at run
    cases both : s.bidirectional <;> rw [both] at run <;> cases run
  | some other =>
    rw [source?_of_found found, Except.ok.injEq, Option.ite_none_right_eq_some] at run
    obtain ⟨⟨both, fewer⟩, same⟩ := run
    cases same
    exact ⟨both, rfl, fewer⟩

/-- A row is fixed behind what is left, or in front of it where that is allowed and takes fewer gates. -/
theorem fixRow_cases (run : s.fixRow p x y = .ok q) :
    q = p.behind (rowGates y x) ∨ ∃ source, s.bidirectional = true ∧ p.rest.idxOf? x = some source ∧
      hammingDistance x source < hammingDistance x y ∧ p.inFront (rowGates x source) = .ok q := by
  unfold fixRow at run
  obtain ⟨choice, chosen, run⟩ := bind_eq_ok.mp run
  cases choice with
  | none =>
    obtain ⟨gates, turned, run⟩ := bind_eq_ok.mp run
    obtain ⟨next, placed, run⟩ := bind_eq_ok.mp run
    cases placed
    obtain ⟨fixed, _, run⟩ := bind_eq_ok.mp run
    obtain ⟨_, run⟩ := require_bind_eq_ok.mp run
    cases run
    exact Or.inl (by rw [eq_rowGates_of_turn turned])
  | some source =>
    obtain ⟨gates, turned, run⟩ := bind_eq_ok.mp run
    obtain ⟨next, placed, run⟩ := bind_eq_ok.mp run
    obtain ⟨fixed, _, run⟩ := bind_eq_ok.mp run
    obtain ⟨_, run⟩ := require_bind_eq_ok.mp run
    cases run
    obtain ⟨both, found, fewer⟩ := of_source? chosen
    exact Or.inr ⟨source, both, found, fewer, eq_rowGates_of_turn turned ▸ placed⟩

theorem Progress.length_inFront {gates : List Gate} (run : p.inFront gates = .ok q) :
    q.gates.length = p.gates.length + gates.length := by
  obtain ⟨rest, -, run⟩ := bind_eq_ok.mp run
  cases run
  simp only [Progress.gates, List.length_append, List.length_reverse]
  omega

theorem Progress.length_behind (p : Progress) (gates : List Gate) :
    (p.behind gates).gates.length = p.gates.length + gates.length := by
  simp only [Progress.gates, behind, List.length_append, List.length_reverse]
  omega

/-- No row takes gates away. -/
theorem fixRow_length_le (run : s.fixRow p x y = .ok q) : p.gates.length ≤ q.gates.length := by
  rcases fixRow_cases run with rfl | ⟨source, -, -, -, placed⟩
  · exact p.length_behind (rowGates y x) ▸ Nat.le_add_right _ _
  · exact Progress.length_inFront placed ▸ Nat.le_add_right _ _

theorem fixRows_of_done {xs : List Nat} (inside : x < p.rest.size) (done : p.output x = x) :
    s.fixRows p (x :: xs) = s.fixRows p xs := by
  rw [fixRows, entryAt_output inside, ok_bind]
  exact if_pos done

theorem fixRows_of_open {xs : List Nat} (inside : x < p.rest.size) (open' : p.output x ≠ x)
    (step : s.fixRow p x (p.output x) = .ok q) :
    s.fixRows p (x :: xs) = match s.checkLimit q.gates.length with
      | .error e => .ok (.error e)
      | .ok () => s.fixRows q xs := by
  rw [fixRows, entryAt_output inside, ok_bind, if_neg open', step]
  rfl

/-- Rows are done one after the other as long as their gates are within the limit. -/
theorem fixRows_cons_cases {xs : List Nat} (run : s.fixRows p (x :: xs) = .ok (.ok q)) :
    x < p.rest.size ∧ (p.output x = x ∧ s.fixRows p xs = .ok (.ok q) ∨
      p.output x ≠ x ∧ ∃ next, s.fixRow p x (p.output x) = .ok next ∧ s.checkLimit next.gates.length = .ok () ∧
        s.fixRows next xs = .ok (.ok q)) := by
  rw [fixRows] at run
  obtain ⟨y, entry, run⟩ := bind_eq_ok.mp run
  obtain ⟨inside, rfl⟩ := of_entryAt entry
  refine ⟨inside, ?_⟩
  by_cases done : p.output x = x
  · rw [if_pos done] at run
    exact Or.inl ⟨done, run⟩
  rw [if_neg done] at run
  obtain ⟨next, step, run⟩ := bind_eq_ok.mp run
  cases limit : s.checkLimit next.gates.length with
  | error e =>
    rw [limit] at run
    cases run
  | ok _ =>
    rw [limit] at run
    exact Or.inr ⟨done, next, step, limit, run⟩

theorem fixRows_length_le {xs : List Nat} (run : s.fixRows p xs = .ok (.ok q)) : p.gates.length ≤ q.gates.length := by
  induction xs generalizing p with
  | nil =>
    cases run
    exact Nat.le_refl _
  | cons x rest ih =>
    rcases (fixRows_cons_cases run).2 with ⟨-, later⟩ | ⟨-, next, step, -, later⟩
    · exact ih later
    · exact (fixRow_length_le step).trans (ih later)

/-- The same settings with another limit, or with none. -/
def withLimit (s : Transformation) (limit : Option Nat) : Transformation := { s with gateLimit := limit }

theorem fixRow_withLimit (limit : Option Nat) : (s.withLimit limit).fixRow p x y = s.fixRow p x y := rfl

theorem checkLimit_withLimit (limit gates : Nat) : (s.withLimit (some limit)).checkLimit gates =
    if gates ≤ limit then .ok () else .error (.gateLimitExceeded limit) := by
  change (if limit < gates then _ else _) = _
  by_cases within : gates ≤ limit
  · rw [if_neg (Nat.not_lt.mpr within), if_pos within]
  · rw [if_pos (Nat.not_le.mp within), if_neg within]

/-- The gates never become fewer, so it is their number in the end that counts. -/
theorem fixRows_withLimit {xs : List Nat} (run : (s.withLimit none).fixRows p xs = .ok (.ok q))
    (within : p.gates.length ≤ limit) : (s.withLimit (some limit)).fixRows p xs =
      .ok (if q.gates.length ≤ limit then .ok q else .error (.gateLimitExceeded limit)) := by
  induction xs generalizing p with
  | nil =>
    cases run
    rw [if_pos within]
    rfl
  | cons x rest ih =>
    obtain ⟨inside, ⟨done, later⟩ | ⟨open', next, step, -, later⟩⟩ := fixRows_cons_cases run
    · rw [fixRows_of_done inside done]
      exact ih later within
    rw [fixRow_withLimit] at step
    rw [fixRows_of_open inside open' ((fixRow_withLimit (some limit)).trans step), checkLimit_withLimit]
    by_cases room : next.gates.length ≤ limit
    · rw [if_pos room]
      exact ih later room
    · have more := fixRows_length_le later
      rw [if_neg room, if_neg (by omega)]

/-- What is built for a permutation are the gates that fixing all rows has taken. -/
theorem permutation_inv {c : Circuit} (run : s.permutation n perm = .ok (.ok c)) :
    n < 64 ∧ perm.size = 1 <<< n ∧ ∃ p, s.fixRows { rest := perm } (List.range (1 <<< n)) = .ok (.ok p) ∧
      Circuit.ofGates n p.gates = .ok c := by
  unfold permutation assignmentCount at run
  obtain ⟨size, counted, run⟩ := bind_eq_ok.mp run
  obtain ⟨width, counted⟩ := require_bind_eq_ok.mp counted
  cases counted
  obtain ⟨covers, run⟩ := require_bind_eq_ok.mp run
  obtain ⟨result, fixes, run⟩ := bind_eq_ok.mp run
  cases result with
  | error e => cases run
  | ok p =>
    obtain ⟨d, built, run⟩ := bind_eq_ok.mp run
    cases run
    exact ⟨width, covers, p, fixes, built⟩

/-- What is built without a limit is built with a limit too if it is within it, and is refused otherwise. -/
theorem permutation_withLimit {c : Circuit} (run : (s.withLimit none).permutation n perm = .ok (.ok c)) (limit : Nat) :
    (s.withLimit (some limit)).permutation n perm =
      .ok (if c.size ≤ limit then .ok c else .error (.gateLimitExceeded limit)) := by
  obtain ⟨width, covers, p, fixes, built⟩ := permutation_inv run
  unfold permutation
  rw [assignmentCount_eq_ok width, ok_bind, require_of covers, ok_bind, fixRows_withLimit fixes (Nat.zero_le _), ok_bind]
  cases Circuit.of_ofGates built
  change _ = Except.ok (if p.gates.length ≤ limit then _ else _)
  by_cases within : p.gates.length ≤ limit
  · simp only [if_pos within, built, ok_bind, pure_eq_ok]
  · simp only [if_neg within, pure_eq_ok]

/-- A limit on the number of gates never changes what is built for a permutation. Within the limit it is what is built
without one, and beyond it the limit is reported. -/
theorem permutation_limited (s : Transformation) (width : n ≤ 63) (permutes : IsPermutation n perm) (limit : Nat) :
    ∃ c, { s with gateLimit := none }.permutation n perm = .ok (.ok c) ∧
      { s with gateLimit := some limit }.permutation n perm =
        .ok (if c.size ≤ limit then .ok c else .error (.gateLimitExceeded limit)) := by
  obtain ⟨result, run, -, finishes⟩ := permutation_spec (s.withLimit none) width permutes
  obtain ⟨c, rfl⟩ := finishes rfl
  exact ⟨c, run, permutation_withLimit run limit⟩

/-- The second row takes two gates. Most rows after it are done, and the seventh takes one more. -/
def scattered : Array Nat := #[0, 5, 2, 3, 4, 1, 7, 6]

theorem permutation_limited_scattered : 3 ≤ 63 ∧ IsPermutation 3 scattered ∧
    ∃ c, ({} : Transformation).permutation 3 scattered = .ok (.ok c) ∧ c.size = 3 ∧
      ({ gateLimit := some 3 } : Transformation).permutation 3 scattered = .ok (.ok c) ∧
      ({ gateLimit := some 2 } : Transformation).permutation 3 scattered = .ok (.error (.gateLimitExceeded 2)) := by
  have permutes : IsPermutation 3 scattered := by
    unfold IsPermutation
    decide
  obtain ⟨c, run, enough⟩ := permutation_limited {} (by decide) permutes 3
  obtain ⟨d, again, few⟩ := permutation_limited {} (by decide) permutes 2
  cases run.symm.trans again
  have size : c.size = 3 := by
    have sizes : (({} : Transformation).permutation 3 scattered).map (·.toOption.map Circuit.size) = .ok (some 3) := by
      decide +kernel
    change ({} : Transformation).permutation 3 scattered = _ at run
    rw [run] at sizes
    exact Option.some.inj (Except.ok.inj sizes)
  rw [size] at enough few
  exact ⟨by decide, permutes, c, run, size, enough, few⟩

end Transformation

end Reversible
