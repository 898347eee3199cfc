import Reversible.Circuit.Window
import Reversible.Event

namespace Reversible

/-- What a selector answers: its next state, also where it fails, and the next window or none. -/
structure Selection (σ : Type) where
  state : σ
  window : Except Fault (Option Window)
  events : List Event := []

/-- Proposes windows of a circuit one by one. After the last window it answers with none and starts again. -/
abbrev Selector (σ : Type) := σ → Circuit → Selection σ

end Reversible
