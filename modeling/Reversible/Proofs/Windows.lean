import Mathlib.Data.List.GetD
import Reversible.Circuit.Window
import Reversible.Proofs.Relabelling

namespace Reversible

theorem getD_idxOf {xs : List Nat} {x : Nat} (member : x ∈ xs) : xs.getD (xs.idxOf x) 0 = x := by
  rw [List.getD_eq_getElem?_getD, List.getElem?_idxOf member]
  rfl

theorem idxOf_getD {xs : List Nat} {i : Nat} (distinct : xs.Nodup) (inside : i < xs.length) :
    xs.idxOf (xs.getD i 0) = i := by
  rw [List.getD_eq_getElem _ _ inside]
  exact distinct.idxOf_getElem i inside

theorem getD_mem {xs : List Nat} {i : Nat} (inside : i < xs.length) : xs.getD i 0 ∈ xs := by
  rw [List.getD_eq_getElem _ _ inside]
  exact List.getElem_mem inside

theorem idxOf_injOn (xs : List Nat) : Set.InjOn xs.idxOf {x | x ∈ xs} :=
  fun _ inXs _ _ equal => (List.idxOf_inj inXs).mp equal

theorem getD_injOn {xs : List Nat} (distinct : xs.Nodup) : Set.InjOn (xs.getD · 0) {i | i < xs.length} := by
  intro i inI j inJ equal
  rw [← idxOf_getD distinct inI, ← idxOf_getD distinct inJ]
  exact congrArg xs.idxOf equal

theorem idxOf?_eq_idxOf {xs : List Nat} {x : Nat} (member : x ∈ xs) : xs.idxOf? x = some (xs.idxOf x) := by
  cases found : xs.idxOf? x with
  | none => exact absurd member (List.idxOf?_eq_none_iff.mp found)
  | some i => rw [List.idxOf_eq_getD_idxOf?, found]; rfl

namespace Circuit

def between (c : Circuit) (start stop : Nat) : List Gate := (c.gates.drop start).take (stop - start)

theorem mem_of_mem_between {c : Circuit} {start stop : Nat} {g : Gate} (member : g ∈ c.between start stop) :
    g ∈ c.gates := List.mem_of_mem_drop (List.mem_of_mem_take member)

/-- A range of gates and ascending lines of the circuit, among them all lines of these gates. -/
structure Extent (c : Circuit) (start stop : Nat) (filter : List Nat) : Prop where
  order : start ≤ stop
  bound : stop ≤ c.size
  increasing : filter.Pairwise (· < ·)
  inside : ∀ line ∈ filter, line < c.lines
  covers : ∀ g ∈ c.between start stop, ∀ line ∈ g.lines, line ∈ filter

/-- The window on these gates and lines. -/
def cut (c : Circuit) (start stop : Nat) (filter : List Nat) : Window :=
  ⟨⟨filter.map c.wire, (c.between start stop).map (Gate.rename filter.idxOf)⟩, start, filter, c.lines⟩

namespace Extent

variable {c : Circuit} {start stop : Nat} {filter : List Nat}

theorem distinct (extent : c.Extent start stop filter) : filter.Nodup := extent.increasing.imp Nat.ne_of_lt

theorem localLine (extent : c.Extent start stop filter) (g : Gate) {line : Nat} (member : line ∈ filter) :
    Window.localLine c.lines filter g line = .ok (filter.idxOf line) := by
  unfold Window.localLine
  rw [require_of (extent.inside line member), ok_bind, idxOf?_eq_idxOf member]
  rfl

theorem injOn_cut (extent : c.Extent start stop filter) :
    ∀ g ∈ c.between start stop, Set.InjOn filter.idxOf {line | line ∈ g.lines} :=
  fun g member => (idxOf_injOn filter).mono fun line touched => extent.covers g member line touched

theorem window_eq_cut (extent : c.Extent start stop filter) (formed : c.WellFormed) :
    c.window start stop filter = .ok (c.cut start stop filter) := by
  have gates : (c.between start stop).mapM (fun g => g.relabel (Window.localLine c.lines filter g)) =
      .ok ((c.between start stop).map (Gate.rename filter.idxOf)) := by
    refine mapM_eq_ok fun g member => Gate.relabel_eq_rename ?_ (formed g (mem_of_mem_between member)).fits.apart
      (extent.injOn_cut g member)
    exact fun line touched => extent.localLine g (extent.covers g member line touched)
  unfold window
  rw [require_of ⟨extent.order, extent.bound⟩, ok_bind, require_of extent.increasing, ok_bind,
    require_of extent.inside, ok_bind]
  change ((c.between start stop).mapM _ >>= _) = _
  rw [gates]
  rfl

/-- A window that is given out has a proper extent, and it is the one that is cut out there. -/
theorem of_window {w : Window} (run : c.window start stop filter = .ok w) :
    c.Extent start stop filter ∧ w = c.cut start stop filter := by
  have value : ∀ g line k, Window.localLine c.lines filter g line = .ok k → k = filter.idxOf line ∧ line ∈ filter := by
    intro g line k found
    obtain ⟨-, found⟩ := require_bind_eq_ok.mp found
    cases position : filter.idxOf? line with
    | none =>
      rw [position] at found
      cases found
    | some i =>
      rw [position] at found
      cases found
      exact ⟨by rw [List.idxOf_eq_getD_idxOf?, position]; rfl, List.isSome_idxOf?.mp (by rw [position]; rfl)⟩
  unfold window at run
  obtain ⟨order, run⟩ := require_bind_eq_ok.mp run
  obtain ⟨increasing, run⟩ := require_bind_eq_ok.mp run
  obtain ⟨inside, run⟩ := require_bind_eq_ok.mp run
  obtain ⟨gates, mapped, run⟩ := bind_eq_ok.mp run
  cases run
  obtain ⟨rfl, each⟩ := eq_map_of_mapM (g := Gate.rename filter.idxOf)
    (fun g h relabelled =>
      (Gate.eq_rename_of_relabel (fun line k found => (value g line k found).1) relabelled).1) mapped
  refine ⟨⟨order.1, order.2, increasing, inside, fun g member line touched => ?_⟩, rfl⟩
  have named := Gate.eq_rename_of_relabel (fun line k found => (value g line k found).1) (each g member)
  exact (value g line _ (named.2 line touched)).2

@[simp] theorem cut_filter : (c.cut start stop filter).filter = filter := rfl

theorem cut_lines : (c.cut start stop filter).circuit.lines = filter.length := by
  simp [cut, lines]

theorem cut_size (extent : c.Extent start stop filter) : (c.cut start stop filter).size = stop - start := by
  have bound := extent.bound
  unfold Circuit.size at bound
  simp only [cut, Window.size, Circuit.size, between, List.length_map, List.length_take, List.length_drop]
  omega

theorem cut_stop (extent : c.Extent start stop filter) : (c.cut start stop filter).stop = stop := by
  have order := extent.order
  unfold Window.stop
  rw [extent.cut_size]
  change start + (stop - start) = stop
  omega

theorem cut_wellFormed (extent : c.Extent start stop filter) (formed : c.WellFormed) :
    (c.cut start stop filter).circuit.WellFormed := by
  intro g member
  obtain ⟨old, inWindow, rfl⟩ := List.mem_map.mp member
  rw [cut_lines]
  refine (formed old (mem_of_mem_between inWindow)).rename (extent.injOn_cut old inWindow) fun line touched => ?_
  exact List.idxOf_lt_length_of_mem (extent.covers old inWindow line touched)

theorem cut_within (extent : c.Extent start stop filter) :
    Within (c.cut start stop filter).circuit.lines (c.cut start stop filter).circuit.gates := by
  intro g member i touched
  rw [cut_lines]
  obtain ⟨old, inWindow, rfl⟩ := List.mem_map.mp member
  obtain ⟨line, inOld, rfl⟩ := Gate.mem_rename_lines.mp touched
  exact List.idxOf_lt_length_of_mem (extent.covers old inWindow line inOld)

/-- The window computes what its gates compute in the circuit. -/
theorem act_cut (extent : c.Extent start stop filter) {σ τ : Assignment}
    (agree : ∀ i < filter.length, τ i = σ (filter.getD i 0)) {i : Nat} (inside : i < filter.length) :
    act (c.cut start stop filter).circuit.gates τ i = act (c.between start stop) σ (filter.getD i 0) := by
  have onLines : ∀ line ∈ {line | line ∈ filter}, τ (filter.idxOf line) = σ line := by
    intro line member
    rw [agree _ (List.idxOf_lt_length_of_mem member), getD_idxOf member]
  have renamed := act_rename (idxOf_injOn filter) extent.covers onLines _ (getD_mem inside)
  rwa [idxOf_getD extent.distinct inside] at renamed

end Extent

end Circuit

namespace Window

/-- Gates on the window's lines, put back on the lines of the circuit. -/
def lift (w : Window) (gates : List Gate) : List Gate := gates.map (Gate.rename (w.filter.getD · 0))

/-- The lines of a window are distinct lines of its circuit. -/
structure Placed (w : Window) : Prop where
  distinct : w.filter.Nodup
  inside : ∀ line ∈ w.filter, line < w.parentLines

theorem mem_lift_lines {w : Window} {gates : List Gate}
    (bound : Circuit.Within w.filter.length gates) {g : Gate} (member : g ∈ w.lift gates)
    {line : Nat} (touched : line ∈ g.lines) : line ∈ w.filter := by
  obtain ⟨old, inGates, rfl⟩ := List.mem_map.mp member
  obtain ⟨i, inOld, rfl⟩ := Gate.mem_rename_lines.mp touched
  exact getD_mem (bound old inGates i inOld)

theorem lift_wellFormed {w : Window} (placed : w.Placed) {gates : List Gate}
    (formed : ∀ g ∈ gates, g.WellFormed w.filter.length) : ∀ g ∈ w.lift gates, g.WellFormed w.parentLines := by
  intro g member
  obtain ⟨old, inGates, rfl⟩ := List.mem_map.mp member
  refine (formed old inGates).rename ?_ fun i touched => ?_
  · exact (getD_injOn placed.distinct).mono (formed old inGates).2
  · exact placed.inside _ (getD_mem ((formed old inGates).2 i touched))

theorem liftGate_eq_rename {w : Window} (placed : w.Placed) {g : Gate} (fits : g.Fits w.filter.length) :
    w.liftGate g = .ok (g.rename (w.filter.getD · 0)) := by
  have lifted : g.relabel (elementAt w.filter) = .ok (g.rename (w.filter.getD · 0)) := by
    refine Gate.relabel_eq_rename (fun i touched => elementAt_eq_ok ?_) fits.apart ?_
    · have inside := fits.inside i touched
      rw [List.getD_eq_getElem _ _ inside, List.getElem?_eq_getElem inside]
    · exact (getD_injOn placed.distinct).mono fits.inside
  have checked : (g.rename (w.filter.getD · 0)).maxLine < w.parentLines := Gate.maxLine_lt fun line touched =>
    placed.inside line (mem_lift_lines (List.forall_mem_singleton.mpr fits.inside) (List.mem_singleton_self _) touched)
  unfold liftGate Circuit.checkGate
  rw [lifted, ok_bind, require_of checked]
  rfl

theorem expand_eq_lift {w : Window} (placed : w.Placed) {replacement : Circuit}
    (fits : ∀ g ∈ replacement.gates, g.Fits w.filter.length) (width : replacement.lines = w.filter.length) :
    w.expand replacement = .ok { Circuit.blank w.parentLines with gates := w.lift replacement.gates } := by
  have gates : replacement.gates.mapM w.liftGate = .ok (w.lift replacement.gates) :=
    mapM_eq_ok fun g member => liftGate_eq_rename placed (fits g member)
  unfold expand
  rw [require_of width, ok_bind, gates]
  rfl

/-- A replacement that can be put back has as many lines as the window, and its gates fit on them. -/
theorem of_expand {w : Window} {replacement expanded : Circuit} (run : w.expand replacement = .ok expanded) :
    replacement.lines = w.filter.length ∧ (∀ g ∈ replacement.gates, g.Fits w.filter.length) ∧
      expanded = { Circuit.blank w.parentLines with gates := w.lift replacement.gates } := by
  have value : ∀ line k, elementAt w.filter line = .ok k → k = w.filter.getD line 0 :=
    fun line k found => (getD_of_elementAt found 0).2
  have lifted : ∀ g h, w.liftGate g = .ok h → h = g.rename (w.filter.getD · 0) ∧ g.Fits w.filter.length := by
    intro g h found
    obtain ⟨other, relabelled, found⟩ := bind_eq_ok.mp found
    obtain ⟨-, found⟩ := require_bind_eq_ok.mp found
    cases found
    obtain ⟨same, named⟩ := Gate.eq_rename_of_relabel value relabelled
    obtain ⟨-, apart, -⟩ := (Gate.relabel_eq_ok_iff named).mp relabelled
    exact ⟨same, fun line touched => (getD_of_elementAt (named line touched) 0).1,
      fun t target control => apart t target (List.mem_map_of_mem control)⟩
  unfold expand at run
  obtain ⟨width, run⟩ := require_bind_eq_ok.mp run
  obtain ⟨gates, mapped, run⟩ := bind_eq_ok.mp run
  cases run
  obtain ⟨rfl, each⟩ := eq_map_of_mapM (fun g h found => (lifted g h found).1) mapped
  exact ⟨width, fun g member => (lifted g _ (each g member)).2, rfl⟩

/-- A replacement computes on the lines of the window what it computes by itself. -/
theorem act_lift {w : Window} (placed : w.Placed) {gates : List Gate}
    (bound : Circuit.Within w.filter.length gates) {σ τ : Assignment}
    (agree : ∀ i < w.filter.length, σ (w.filter.getD i 0) = τ i) {i : Nat} (inside : i < w.filter.length) :
    Circuit.act (w.lift gates) σ (w.filter.getD i 0) = Circuit.act gates τ i :=
  Circuit.act_rename (getD_injOn placed.distinct) bound agree i inside

/-- It leaves the other lines alone. -/
theorem act_lift_outside {w : Window} {gates : List Gate}
    (bound : Circuit.Within w.filter.length gates) (σ : Assignment) {line : Nat}
    (outside : line ∉ w.filter) : Circuit.act (w.lift gates) σ line = σ line :=
  Circuit.act_untouched (fun _ member touched => outside (mem_lift_lines bound member touched)) σ

end Window

namespace Circuit

/-- The circuit with `gates`, gates on the window's lines, in the place of the gates of the window. -/
def replaced (c : Circuit) (w : Window) (gates : List Gate) : Circuit :=
  { c with gates := c.gates.take w.offset ++ w.lift gates ++ c.gates.drop w.stop }

theorem replaceWindow_eq_replaced {c : Circuit} {w : Window} (placed : w.Placed) (parent : w.parentLines = c.lines)
    (bound : w.stop ≤ c.size) {replacement : Circuit} (fits : ∀ g ∈ replacement.gates, g.Fits w.filter.length)
    (width : replacement.lines = w.filter.length) :
    c.replaceWindow w replacement = .ok (c.replaced w replacement.gates) := by
  have lines : ({ blank w.parentLines with gates := w.lift replacement.gates } : Circuit).lines = c.lines := by
    simp [Circuit.lines, blank, parent]
  unfold replaceWindow
  rw [require_of parent, ok_bind, Window.expand_eq_lift placed fits width, ok_bind]
  unfold splice replaceGates
  rw [require_of lines, ok_bind, require_of (show w.offset + w.size ≤ c.size from bound)]
  rfl

theorem of_replaceWindow {c d : Circuit} {w : Window} {replacement : Circuit}
    (run : c.replaceWindow w replacement = .ok d) :
    replacement.lines = w.filter.length ∧ Within w.filter.length replacement.gates ∧
      d = c.replaced w replacement.gates := by
  unfold replaceWindow at run
  obtain ⟨-, run⟩ := require_bind_eq_ok.mp run
  obtain ⟨expanded, expands, run⟩ := bind_eq_ok.mp run
  obtain ⟨width, fits, rfl⟩ := Window.of_expand expands
  obtain ⟨-, run⟩ := require_bind_eq_ok.mp run
  obtain ⟨-, run⟩ := require_bind_eq_ok.mp run
  cases run
  exact ⟨width, fun g member => (fits g member).inside, rfl⟩

/-- What holds of the gates of a circuit and of those put in holds of the gates of the result. -/
theorem forall_mem_replaced {c : Circuit} {w : Window} {gates : List Gate} {P : Gate → Prop}
    (circuit : ∀ g ∈ c.gates, P g) (lifted : ∀ g ∈ w.lift gates, P g) : ∀ g ∈ (c.replaced w gates).gates, P g := by
  intro g member
  rcases List.mem_append.mp member with earlier | later
  · rcases List.mem_append.mp earlier with before | put
    · exact circuit g (List.mem_of_mem_take before)
    · exact lifted g put
  · exact circuit g (List.mem_of_mem_drop later)

theorem replaced_wellFormed {c : Circuit} (formed : c.WellFormed) {w : Window} (placed : w.Placed)
    (parent : w.parentLines = c.lines) {gates : List Gate}
    (localFormed : ∀ g ∈ gates, g.WellFormed w.filter.length) : (c.replaced w gates).WellFormed :=
  forall_mem_replaced formed (parent ▸ Window.lift_wellFormed placed localFormed)

theorem replaced_within {c : Circuit} (within : Within c.lines c.gates) {w : Window} (placed : w.Placed)
    (parent : w.parentLines = c.lines) {gates : List Gate} (bound : Within w.filter.length gates) :
    Within c.lines (c.replaced w gates).gates :=
  forall_mem_replaced within fun _ lifted line touched =>
    parent ▸ placed.inside line (Window.mem_lift_lines bound lifted touched)

theorem Extent.placed {c : Circuit} {start stop : Nat} {filter : List Nat} (extent : c.Extent start stop filter) :
    (c.cut start stop filter).Placed := ⟨extent.distinct, extent.inside⟩

theorem Extent.split {c : Circuit} {start stop : Nat} {filter : List Nat} (extent : c.Extent start stop filter) :
    c.gates = c.gates.take start ++ c.between start stop ++ c.gates.drop stop := by
  have order := extent.order
  rw [between, ← List.take_add, show start + (stop - start) = stop by omega, List.take_append_drop]

theorem Extent.replaced_eq {c : Circuit} {start stop : Nat} {filter : List Nat} (extent : c.Extent start stop filter)
    (gates : List Gate) : c.replaced (c.cut start stop filter) gates =
      { c with gates := c.gates.take start ++ (c.cut start stop filter).lift gates ++ c.gates.drop stop } := by
  unfold replaced
  rw [extent.cut_stop]
  rfl

theorem Extent.replaced_gates {c : Circuit} {start stop : Nat} {filter : List Nat}
    (extent : c.Extent start stop filter) (gates : List Gate) : (c.replaced (c.cut start stop filter) gates).gates =
      c.gates.take start ++ (c.cut start stop filter).lift gates ++ c.gates.drop stop :=
  congrArg Circuit.gates (extent.replaced_eq gates)

/-- Gates that do on the lines of a window what its gates do there can take their place. -/
theorem Extent.act_replaced {c : Circuit} {start stop : Nat} {filter : List Nat} (extent : c.Extent start stop filter)
    {gates : List Gate} (bound : Within filter.length gates)
    (same : ∀ τ, ∀ i < filter.length, act gates τ i = act (c.cut start stop filter).circuit.gates τ i)
    (σ : Assignment) : act (c.replaced (c.cut start stop filter) gates).gates σ = act c.gates σ := by
  have middle : ∀ τ, act ((c.cut start stop filter).lift gates) τ = act (c.between start stop) τ := by
    intro τ
    funext line
    by_cases own : line ∈ filter
    · have inside := List.idxOf_lt_length_of_mem own
      let local' (i : Nat) : Bool := τ (filter.getD i 0)
      have lifted : _ = act gates local' _ := Window.act_lift extent.placed bound (fun _ _ => rfl) inside
      have computed : act _ local' _ = _ := extent.act_cut (fun _ _ => rfl) inside
      rw [cut_filter, getD_idxOf own] at lifted
      rw [getD_idxOf own] at computed
      exact lifted.trans ((same local' _ inside).trans computed)
    · rw [Window.act_lift_outside bound τ own]
      exact (act_untouched (fun g inWindow touched => own (extent.covers g inWindow line touched)) τ).symm
  rw [extent.replaced_gates]
  conv_rhs => rw [extent.split]
  simp only [act_append, middle]

end Circuit

end Reversible
