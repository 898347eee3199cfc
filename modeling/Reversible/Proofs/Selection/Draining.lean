import Reversible.Proofs.Checks
import Reversible.Selection.Basic

namespace Reversible

/-- The gate at position `i` of the circuit is one of the window. -/
def Window.Holds (w : Window) (i : Nat) : Prop := w.offset ≤ i ∧ i < w.stop

instance (w : Window) (i : Nat) : Decidable (w.Holds i) := inferInstanceAs (Decidable (_ ∧ _))

namespace Selector

/-- Asked again and again about one circuit, a selector in state `s` answers with these windows, then with none, and is
left in state `t`. -/
inductive Drains {σ : Type} (select : Selector σ) (c : Circuit) : σ → List Window → σ → Prop
  | done {s t : σ} (last : (select s c).window = .ok none) (state : (select s c).state = t) : Drains select c s [] t
  | next {s t : σ} {w : Window} {windows : List Window} (first : (select s c).window = .ok (some w))
      (rest : Drains select c (select s c).state windows t) : Drains select c s (w :: windows) t

namespace Drains

variable {σ : Type} {select : Selector σ} {c : Circuit} {s t u : σ} {windows others : List Window}

theorem unique (drains : Drains select c s windows t) (again : Drains select c s others u) :
    windows = others ∧ t = u := by
  induction drains generalizing others with
  | done last state =>
    cases again with
    | done _ other => exact ⟨rfl, state.symm.trans other⟩
    | next first _ =>
      rw [last] at first
      cases first
  | next first _ ih =>
    cases again with
    | done last _ =>
      rw [last] at first
      cases first
    | next second rest =>
      rw [second] at first
      cases first
      obtain ⟨rfl, same⟩ := ih rest
      exact ⟨rfl, same⟩

/-- Only what is answered matters, so a state is as good as another one that leads to the same answer. -/
theorem congr (window : (select s c).window = (select u c).window) (state : (select s c).state = (select u c).state)
    (drains : Drains select c u windows t) : Drains select c s windows t := by
  cases drains with
  | done last rest => exact .done (window.trans last) (state.trans rest)
  | next first rest => exact .next (window.trans first) (state ▸ rest)

end Drains

end Selector

end Reversible
