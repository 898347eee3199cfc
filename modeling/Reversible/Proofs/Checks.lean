import Mathlib.Data.List.Forall2
import Reversible.Enumeration

namespace Reversible

variable {α β : Type}

@[simp] theorem pure_eq_ok (a : α) : (pure a : Except Fault α) = .ok a := rfl

@[simp] theorem ok_bind (a : α) (f : α → Except Fault β) : (Except.ok a >>= f) = f a := rfl

@[simp] theorem error_bind (fault : Fault) (f : α → Except Fault β) :
    ((Except.error fault : Except Fault α) >>= f) = .error fault := rfl

/-- A checked computation succeeds exactly if its first part does and then its second one. -/
theorem bind_eq_ok {x : Except Fault α} {f : α → Except Fault β} {b : β} :
    (x >>= f) = .ok b ↔ ∃ a, x = .ok a ∧ f a = .ok b := by
  cases x with
  | ok a => simp
  | error fault => simp

theorem some_map_eq_ok {x : Except Fault α} {a : α} : some <$> x = .ok (some a) ↔ x = .ok a := by
  cases x with
  | ok b => exact ⟨fun same => by cases same; rfl, fun same => by cases same; rfl⟩
  | error fault => exact ⟨nofun, nofun⟩

theorem exists_of_map_map_eq {x : Except Fault (Option α)} {view : α → β} {b : β}
    (viewed : x.map (Option.map view) = .ok (some b)) : ∃ a, x = .ok (some a) ∧ view a = b := by
  cases x with
  | error fault => cases viewed
  | ok result =>
    cases result with
    | none => cases viewed
    | some a => exact ⟨a, rfl, Option.some.inj (Except.ok.inj viewed)⟩

theorem toOption_join_eq_some {x : Except Fault (Option α)} {a : α} :
    x.toOption.join = some a ↔ x = .ok (some a) := by
  cases x with
  | error fault => exact ⟨nofun, nofun⟩
  | ok answer => exact ⟨congrArg Except.ok, Except.ok.inj⟩

theorem require_of {condition : Prop} [Decidable condition] (holds : condition) (fault : Fault) :
    require condition fault = .ok () := require_eq_ok.mpr holds

@[simp] theorem require_bind_eq_ok {condition : Prop} [Decidable condition] {fault : Fault}
    {f : Unit → Except Fault β} {b : β} :
    (require condition fault >>= f) = .ok b ↔ condition ∧ f () = .ok b := by
  by_cases holds : condition
  · rw [require_of holds, ok_bind]
    exact ⟨fun rest => ⟨holds, rest⟩, And.right⟩
  · have stops : require condition fault = .error fault := require_eq_error.mpr ⟨holds, rfl⟩
    rw [stops, error_bind]
    exact ⟨nofun, fun both => absurd both.1 holds⟩

/-- Where `f` never stops on the elements of a list, mapping it over the list never stops. -/
theorem mapM_eq_ok {f : α → Except Fault β} {g : α → β} {xs : List α}
    (each : ∀ x ∈ xs, f x = .ok (g x)) : xs.mapM f = .ok (xs.map g) := by
  induction xs with
  | nil => rfl
  | cons x rest ih =>
    have tail := ih fun y member => each y (List.mem_cons_of_mem x member)
    simp [List.mapM_cons, each x List.mem_cons_self, tail]

theorem forall₂_of_mapM {f : α → Except Fault β} {xs : List α} {ys : List β} (run : xs.mapM f = .ok ys) :
    List.Forall₂ (fun x y => f x = .ok y) xs ys := by
  induction xs generalizing ys with
  | nil =>
    cases run
    exact .nil
  | cons x rest ih =>
    rw [List.mapM_cons] at run
    obtain ⟨y, head, run⟩ := bind_eq_ok.mp run
    obtain ⟨tail, others, run⟩ := bind_eq_ok.mp run
    cases run
    exact .cons head (ih others)

/-- Mapping `f` over a list gives what `g` gives if this is all that `f` can answer. -/
theorem eq_map_of_mapM {f : α → Except Fault β} {g : α → β} (value : ∀ x y, f x = .ok y → y = g x) {xs : List α}
    {ys : List β} (run : xs.mapM f = .ok ys) : ys = xs.map g ∧ ∀ x ∈ xs, f x = .ok (g x) := by
  induction xs generalizing ys with
  | nil =>
    cases run
    exact ⟨rfl, nofun⟩
  | cons x rest ih =>
    rw [List.mapM_cons] at run
    obtain ⟨y, head, run⟩ := bind_eq_ok.mp run
    obtain ⟨tail, restRun, run⟩ := bind_eq_ok.mp run
    cases run
    obtain ⟨rfl, each⟩ := ih restRun
    obtain rfl := value x y head
    exact ⟨rfl, List.forall_mem_cons.mpr ⟨head, each⟩⟩

/-- If `f` succeeds exactly on what satisfies `P`, with the value of `g`, it can be mapped over a list exactly if all
its elements satisfy `P`. -/
theorem mapM_eq_ok_iff {f : α → Except Fault β} {P : α → Prop} {g : α → β} {xs : List α} {ys : List β}
    (each : ∀ x ∈ xs, ∀ y, f x = .ok y ↔ P x ∧ y = g x) : xs.mapM f = .ok ys ↔ (∀ x ∈ xs, P x) ∧ ys = xs.map g := by
  induction xs generalizing ys with
  | nil => exact ⟨fun run => ⟨nofun, (Except.ok.inj run).symm⟩, fun both => congrArg Except.ok both.2.symm⟩
  | cons x rest ih =>
    obtain ⟨head, tail⟩ := List.forall_mem_cons.mp each
    rw [List.mapM_cons, bind_eq_ok]
    constructor
    · rintro ⟨y, first, run⟩
      obtain ⟨zs, others, run⟩ := bind_eq_ok.mp run
      cases run
      obtain ⟨holds, rfl⟩ := (head y).mp first
      obtain ⟨all, rfl⟩ := (ih tail).mp others
      exact ⟨List.forall_mem_cons.mpr ⟨holds, all⟩, rfl⟩
    · rintro ⟨all, rfl⟩
      obtain ⟨holds, others⟩ := List.forall_mem_cons.mp all
      exact ⟨_, (head _).mpr ⟨holds, rfl⟩, bind_eq_ok.mpr ⟨_, (ih tail).mpr ⟨others, rfl⟩, rfl⟩⟩

theorem forM_eq_ok {f : α → Except Fault Unit} {xs : List α} (each : ∀ x ∈ xs, f x = .ok ()) :
    xs.forM f = .ok () := by
  induction xs with
  | nil => rfl
  | cons x rest ih =>
    have tail := ih fun y member => each y (List.mem_cons_of_mem x member)
    change (f x >>= fun _ => rest.forM f) = _
    rw [each x List.mem_cons_self, ok_bind, tail]

theorem allM_eq_ok {f : α → Except Fault Bool} {p : α → Bool} {xs : List α} (each : ∀ x ∈ xs, f x = .ok (p x)) :
    xs.allM f = .ok (xs.all p) := by
  induction xs with
  | nil => rfl
  | cons x rest ih =>
    obtain ⟨head, tail⟩ := List.forall_mem_cons.mp each
    rw [List.allM, head, ok_bind, List.all_cons]
    cases p x
    · rfl
    · exact ih tail

/-- Steps that never stop on what stands for a value, and lead to what stands for the next one, never stop. -/
theorem foldlM_eq_foldl {γ : Type} {f : β → α → Except Fault β} {step : γ → α → γ} (view : γ → β) {xs : List α}
    (each : ∀ x ∈ xs, ∀ c, f (view c) x = .ok (view (step c x))) (c : γ) :
    xs.foldlM f (view c) = .ok (view (xs.foldl step c)) := by
  induction xs generalizing c with
  | nil => rfl
  | cons x rest ih =>
    obtain ⟨head, tail⟩ := List.forall_mem_cons.mp each
    rw [List.foldlM_cons, head, ok_bind, ih tail, List.foldl_cons]

theorem elementAt_eq_ok {xs : List α} {i : Nat} {x : α} (found : xs[i]? = some x) :
    elementAt xs i = .ok x := by
  unfold elementAt
  rw [found]

theorem getD_of_elementAt {xs : List α} {i : Nat} {x : α} (run : elementAt xs i = .ok x) (default : α) :
    i < xs.length ∧ x = xs.getD i default := by
  unfold elementAt at run
  split at run
  · rename_i found
    cases run
    obtain ⟨inside, value⟩ := List.getElem?_eq_some_iff.mp found
    exact ⟨inside, by rw [List.getD_eq_getElem?_getD, found]; rfl⟩
  · cases run

theorem assignmentCount_eq_ok {n : Nat} (fits : n < 64) : assignmentCount n = .ok (1 <<< n) := by
  unfold assignmentCount
  rw [require_of fits]
  rfl

/-- What every step of a fold keeps, the fold keeps. -/
theorem foldFrom_invariant {f : α → Nat → Except Fault α} (kept : α → Prop)
    (step : ∀ a x b, kept a → f a x = .ok b → kept b) {start count : Nat} {a b : α}
    (before : kept a) (run : foldFrom f start count a = .ok b) : kept b := by
  induction count generalizing start a with
  | zero =>
    cases run
    exact before
  | succ count ih =>
    obtain ⟨next, first, rest⟩ := bind_eq_ok.mp run
    exact ih (step a start next before first) rest

/-- A fold of steps that never stop never stops. -/
theorem exists_foldFrom {f : α → Nat → Except Fault α} (step : ∀ a x, ∃ b, f a x = .ok b) (start count : Nat) (a : α) :
    ∃ b, foldFrom f start count a = .ok b := by
  induction count generalizing start a with
  | zero => exact ⟨a, rfl⟩
  | succ count ih =>
    obtain ⟨next, first⟩ := step a start
    obtain ⟨b, rest⟩ := ih (start + 1) next
    exact ⟨b, bind_eq_ok.mpr ⟨next, first, rest⟩⟩

end Reversible
