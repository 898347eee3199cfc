import Reversible.Proofs.Peephole.Run
import Reversible.Proofs.Selection.Growing
import Reversible.Proofs.Selection.Sliding
import Reversible.Selection.Listed

namespace Reversible

theorem Circuit.HasWindow.of_windowOnTouched {c : Circuit} {w : Window} {start stop : Nat}
    (run : c.windowOnTouched start stop = .ok w) : c.HasWindow w := by
  obtain ⟨touched, -, run⟩ := bind_eq_ok.mp run
  exact ⟨start, stop, touched.toList, run⟩

theorem Sliding.select_faithful : Selector.Faithful Sliding.select := by
  intro s c w selected
  rcases select_cases selected with ⟨none, _⟩ | ⟨found, some, _, _, touched⟩
  · cases none
  · cases some
    exact .of_windowOnTouched touched

theorem Growing.select_faithful : Selector.Faithful Growing.select := by
  intro s c w selected
  rcases select_cases s c with ⟨t, selection, _, run, window, _⟩ | ⟨window, _⟩
  · rw [window] at selected
    rw [runOnLevel?_eq] at run
    obtain ⟨_, _, rfl⟩ := Option.map_eq_some_iff.mp run
    exact ⟨_, _, _, some_map_eq_ok.mp selected⟩
  · rw [window] at selected
    cases selected

theorem Listed.select_faithful : Selector.Faithful Listed.select := by
  intro s c w selected
  unfold select at selected
  split at selected
  · have window := some_map_eq_ok.mp selected
    unfold WindowRange.window at window
    split at window
    · exact ⟨_, _, _, window⟩
    · exact .of_windowOnTouched window
  · cases selected

end Reversible
