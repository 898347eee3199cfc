import Mathlib.Data.List.Nodup
import Mathlib.Data.List.Perm.Subperm
import Mathlib.Data.Set.Function
import Reversible.Proofs.Action

namespace Reversible

theorem length_le_of_lt {xs : List Nat} {n : Nat} (distinct : xs.Nodup) (bound : ∀ x ∈ xs, x < n) : xs.length ≤ n := by
  have within : xs ⊆ List.range n := fun x member => List.mem_range.mpr (bound x member)
  have length := (distinct.subperm within).length_le
  rwa [List.length_range] at length

/-- Distinct numbers below `m` are `m` many exactly if they are all of them. -/
theorem length_eq_iff_forall_mem {xs : List Nat} {m : Nat} (distinct : xs.Nodup) (bound : ∀ x ∈ xs, x < m) :
    xs.length = m ↔ ∀ x < m, x ∈ xs := by
  have within : xs.Subperm (List.range m) := distinct.subperm fun x member => List.mem_range.mpr (bound x member)
  constructor
  · intro length x below
    have perm := within.perm_of_length_le (by rw [List.length_range, length])
    exact perm.mem_iff.mpr (List.mem_range.mpr below)
  · intro every
    have whole : (List.range m).Subperm xs :=
      List.nodup_range.subperm fun x member => every x (List.mem_range.mp member)
    have least := whole.length_le
    rw [List.length_range] at least
    exact Nat.le_antisymm (length_le_of_lt distinct bound) least

namespace NatSet

theorem nodup (s : NatSet) : s.toList.Nodup := s.sorted.imp Nat.ne_of_lt

@[simp] theorem ofList_toList (s : NatSet) : ofList s.toList = s := ext fun _ => mem_ofList

theorem toList_ofList_perm {xs : List Nat} (distinct : xs.Nodup) : (ofList xs).toList.Perm xs :=
  (List.perm_ext_iff_of_nodup (nodup _) distinct).mpr fun _ => mem_ofList

theorem size_ofList {xs : List Nat} (distinct : xs.Nodup) : (ofList xs).size = xs.length :=
  (toList_ofList_perm distinct).length_eq

theorem size_ofList_eq_iff {xs : List Nat} : (ofList xs).size = xs.length ↔ xs.Nodup := by
  refine ⟨fun size => ?_, size_ofList⟩
  have within : (ofList xs).toList ⊆ xs := fun _ member => mem_ofList.mp member
  have perm := ((nodup (ofList xs)).subperm within).perm_of_length_le (Nat.le_of_eq size.symm)
  exact perm.nodup_iff.mp (nodup _)

theorem size_le_of_subset {s : NatSet} {xs : List Nat} (within : ∀ n ∈ s, n ∈ xs) : s.size ≤ xs.length :=
  (s.nodup.subperm within).length_le

theorem all_ofList (xs : List Nat) (p : Nat → Bool) : (ofList xs).toList.all p = xs.all p := by
  rw [Bool.eq_iff_iff, List.all_eq_true, List.all_eq_true]
  exact forall_congr' fun _ => imp_congr_left mem_ofList

theorem insert_of_mem {n : Nat} {s : NatSet} (member : n ∈ s) : s.insert n = s := by
  refine ext fun k => ?_
  rw [mem_insert]
  refine ⟨?_, Or.inr⟩
  rintro (rfl | old)
  · exact member
  · exact old

end NatSet

namespace Gate

theorem lines_nodup_iff {g : Gate} : g.lines.Nodup ↔ g.targets.Nodup ∧ ∀ t ∈ g.targets, t ∉ g.controls := by
  unfold lines
  rw [List.nodup_append']
  refine ⟨fun parts => ⟨parts.2.1, fun t target control => parts.2.2 control target⟩, fun parts => ?_⟩
  exact ⟨g.controls.nodup, parts.1, fun line control target => parts.2 line target control⟩

/-- The lines of a gate are below `n`, and no target is a control. Two targets may be the same line. -/
structure Fits (n : Nat) (g : Gate) : Prop where
  inside : ∀ line ∈ g.lines, line < n
  apart : ∀ t ∈ g.targets, t ∉ g.controls

theorem WellFormed.fits {n : Nat} {g : Gate} (formed : g.WellFormed n) : g.Fits n :=
  ⟨formed.2, (lines_nodup_iff.mp formed.1).2⟩

/-- The gate with `m` applied to all its lines. -/
def rename (m : Nat → Nat) : Gate → Gate
  | toffoli cs t => toffoli (NatSet.ofList (cs.toList.map m)) (m t)
  | fredkin cs a b => fredkin (NatSet.ofList (cs.toList.map m)) (m a) (m b)

theorem rename_controls (m : Nat → Nat) (g : Gate) :
    (g.rename m).controls = NatSet.ofList (g.controls.toList.map m) := by
  cases g <;> rfl

@[simp] theorem rename_targets (m : Nat → Nat) (g : Gate) : (g.rename m).targets = g.targets.map m := by
  cases g <;> rfl

theorem mem_rename_controls {m : Nat → Nat} {g : Gate} {line : Nat} :
    line ∈ (g.rename m).controls ↔ ∃ old ∈ g.controls, m old = line := by
  rw [rename_controls, NatSet.mem_ofList, List.mem_map]
  rfl

theorem mem_rename_lines {m : Nat → Nat} {g : Gate} {line : Nat} :
    line ∈ (g.rename m).lines ↔ ∃ old ∈ g.lines, m old = line := by
  rw [mem_lines, mem_rename_controls, rename_targets, List.mem_map]
  constructor
  · rintro (⟨old, control, value⟩ | ⟨old, target, value⟩)
    · exact ⟨old, mem_lines.mpr (Or.inl control), value⟩
    · exact ⟨old, mem_lines.mpr (Or.inr target), value⟩
  · rintro ⟨old, member, value⟩
    exact (mem_lines.mp member).imp (fun control => ⟨old, control, value⟩) (fun target => ⟨old, target, value⟩)

theorem map_lines_nodup {m : Nat → Nat} {g : Gate} (distinct : g.lines.Nodup)
    (injective : Set.InjOn m {line | line ∈ g.lines}) : (g.controls.toList.map m ++ g.targets.map m).Nodup := by
  rw [← List.map_append]
  exact distinct.map_on fun a inA b inB equal => injective inA inB equal

theorem rename_lines_perm {m : Nat → Nat} {g : Gate} (distinct : g.lines.Nodup)
    (injective : Set.InjOn m {line | line ∈ g.lines}) : (g.rename m).lines.Perm (g.lines.map m) := by
  have parts := List.nodup_append.mp (map_lines_nodup distinct injective)
  unfold lines
  rw [rename_targets, List.map_append, rename_controls]
  exact (NatSet.toList_ofList_perm parts.1).append_right _

theorem WellFormed.rename {n k : Nat} {m : Nat → Nat} {g : Gate} (formed : g.WellFormed n)
    (injective : Set.InjOn m {line | line ∈ g.lines}) (bound : ∀ line ∈ g.lines, m line < k) :
    (g.rename m).WellFormed k := by
  refine ⟨?_, fun line member => ?_⟩
  · rw [(rename_lines_perm formed.1 injective).nodup_iff]
    exact formed.1.map_on fun a inA b inB equal => injective inA inB equal
  · obtain ⟨old, touched, rfl⟩ := mem_rename_lines.mp member
    exact bound old touched

/-- What the two checks of relabelling ask for: controls stay apart from each other and from targets. -/
theorem relabel_eq_ok_iff {f : Nat → Except Fault Nat} {m : Nat → Nat} {g h : Gate}
    (total : ∀ line ∈ g.lines, f line = .ok (m line)) : g.relabel f = .ok h ↔
      (g.controls.toList.map m).Nodup ∧ (∀ t ∈ g.targets, m t ∉ g.controls.toList.map m) ∧ h = g.rename m := by
  have controls : g.controls.toList.mapM f = .ok (g.controls.toList.map m) :=
    mapM_eq_ok fun line member => total line (mem_lines.mpr (Or.inl member))
  have targets : g.relabelTargets f (NatSet.ofList (g.controls.toList.map m)) = .ok (g.rename m) := by
    cases g with
    | toffoli cs t =>
      simp only [relabelTargets]
      rw [total t (by simp [lines, Gate.targets])]
      rfl
    | fredkin cs a b =>
      simp only [relabelTargets]
      rw [total a (by simp [lines, Gate.targets]), ok_bind, total b (by simp [lines, Gate.targets])]
      rfl
  have size : (NatSet.ofList (g.controls.toList.map m)).size = g.controls.size ↔ (g.controls.toList.map m).Nodup := by
    rw [← NatSet.size_ofList_eq_iff, List.length_map]
    rfl
  have apart : (∀ t ∈ (g.rename m).targets, (g.rename m).hasControl t = false) ↔
      ∀ t ∈ g.targets, m t ∉ g.controls.toList.map m := by
    rw [rename_targets, List.forall_mem_map]
    refine forall₂_congr fun t _ => ?_
    rw [hasControl, decide_eq_false_iff_not, rename_controls, NatSet.mem_ofList]
  unfold relabel
  rw [controls, ok_bind, require_bind_eq_ok, size, targets, ok_bind, require_bind_eq_ok, apart, pure_eq_ok,
    Except.ok.injEq, eq_comm (a := g.rename m)]

/-- Relabelling with a map that keeps the lines of the gate apart passes all checks. -/
theorem relabel_eq_rename {f : Nat → Except Fault Nat} {m : Nat → Nat} {g : Gate}
    (total : ∀ line ∈ g.lines, f line = .ok (m line)) (apart : ∀ t ∈ g.targets, t ∉ g.controls)
    (injective : Set.InjOn m {line | line ∈ g.lines}) : g.relabel f = .ok (g.rename m) := by
  have onControls : ∀ line ∈ g.controls, line ∈ g.lines := fun line control => mem_lines.mpr (Or.inl control)
  refine (relabel_eq_ok_iff total).mpr ⟨?_, fun t target merged => ?_, rfl⟩
  · exact g.controls.nodup.map_on fun a inA b inB same => injective (onControls a inA) (onControls b inB) same
  · obtain ⟨line, control, same⟩ := List.mem_map.mp merged
    have equal := injective (onControls line control) (mem_lines.mpr (Or.inr target)) same
    exact apart t target (equal ▸ control)

/-- Where relabelling passes its checks, the gate is renamed, and each of its lines has a new name. -/
theorem eq_rename_of_relabel {f : Nat → Except Fault Nat} {m : Nat → Nat}
    (value : ∀ line k, f line = .ok k → k = m line)
    {g h : Gate} (run : g.relabel f = .ok h) : h = g.rename m ∧ ∀ line ∈ g.lines, f line = .ok (m line) := by
  unfold relabel at run
  obtain ⟨mapped, controls, run⟩ := bind_eq_ok.mp run
  obtain ⟨rfl, named⟩ := eq_map_of_mapM value controls
  obtain ⟨-, run⟩ := require_bind_eq_ok.mp run
  obtain ⟨other, targets, run⟩ := bind_eq_ok.mp run
  obtain ⟨-, run⟩ := require_bind_eq_ok.mp run
  cases run
  have targetsNamed : h = g.rename m ∧ ∀ line ∈ g.targets, f line = .ok (m line) := by
    cases g with
    | toffoli cs t =>
      obtain ⟨k, target, same⟩ := bind_eq_ok.mp targets
      cases same
      obtain rfl := value t k target
      exact ⟨rfl, List.forall_mem_singleton.mpr target⟩
    | fredkin cs a b =>
      obtain ⟨k, first, rest⟩ := bind_eq_ok.mp targets
      obtain ⟨l, second, same⟩ := bind_eq_ok.mp rest
      cases same
      obtain rfl := value a k first
      obtain rfl := value b l second
      exact ⟨rfl, List.forall_mem_cons.mpr ⟨first, List.forall_mem_singleton.mpr second⟩⟩
  exact ⟨targetsNamed.1, fun line touched => (mem_lines.mp touched).elim (named line) (targetsNamed.2 line)⟩

@[simp] theorem rename_id (g : Gate) : g.rename id = g := by
  cases g <;> simp [rename]

theorem rename_rename (m k : Nat → Nat) (g : Gate) : (g.rename m).rename k = g.rename (k ∘ m) := by
  have controls : NatSet.ofList ((NatSet.ofList (g.controls.toList.map m)).toList.map k) =
      NatSet.ofList (g.controls.toList.map (k ∘ m)) := by
    refine NatSet.ext fun line => ?_
    simp only [NatSet.mem_ofList, List.mem_map, ← NatSet.mem_def, exists_exists_and_eq_and, Function.comp_apply]
  cases g with
  | toffoli cs t => exact congrArg (toffoli · (k (m t))) controls
  | fredkin cs a b => exact congrArg (fredkin · (k (m a)) (k (m b))) controls

theorem rename_congr {m k : Nat → Nat} {g : Gate} (same : ∀ line ∈ g.lines, m line = k line) :
    g.rename m = g.rename k := by
  have controls : g.controls.toList.map m = g.controls.toList.map k :=
    List.map_congr_left fun line control => same line (mem_lines.mpr (Or.inl control))
  have targets : ∀ line ∈ g.targets, m line = k line := fun line target => same line (mem_lines.mpr (Or.inr target))
  cases g with
  | toffoli cs t =>
    simp only [Gate.controls] at controls
    rw [rename, rename, controls, targets t (by simp [Gate.targets])]
  | fredkin cs a b =>
    simp only [Gate.controls] at controls
    rw [rename, rename, controls, targets a (by simp [Gate.targets]), targets b (by simp [Gate.targets])]

theorem rename_eq_self {m : Nat → Nat} {g : Gate} (same : ∀ line ∈ g.lines, m line = line) : g.rename m = g :=
  (rename_congr same).trans (rename_id g)

theorem rename_controls_all {m : Nat → Nat} {g : Gate} {σ τ : Assignment}
    (agree : ∀ line ∈ g.controls, τ (m line) = σ line) :
    (g.rename m).controls.toList.all τ = g.controls.toList.all σ := by
  rw [rename_controls, NatSet.all_ofList, List.all_map, Bool.eq_iff_iff, List.all_eq_true, List.all_eq_true]
  exact forall_congr' fun line => imp_congr_right fun control => by rw [Function.comp_apply, agree line control]

/-- A renamed gate does on the new names what the gate does on the old ones. The map need not keep apart
lines that do not matter to the two assignments. -/
theorem act_rename {m : Nat → Nat} {g : Gate} {S : Set Nat} (injective : S.InjOn m)
    (inside : ∀ line ∈ g.lines, line ∈ S) {σ τ : Assignment} (agree : ∀ line ∈ S, τ (m line) = σ line) :
    ∀ line ∈ S, (g.rename m).act τ (m line) = g.act σ line := by
  intro line member
  have fires := rename_controls_all (g := g) (m := m) fun line control =>
    agree line (inside line (mem_lines.mpr (Or.inl control)))
  unfold act
  rw [fires]
  split
  · cases g with
    | toffoli cs t =>
      have inT : t ∈ S := inside t (by simp [lines, targets])
      simp only [rename, Function.update_apply, injective.eq_iff member inT, agree line member, agree t inT]
    | fredkin cs a b =>
      have inA : a ∈ S := inside a (by simp [lines, targets])
      have inB : b ∈ S := inside b (by simp [lines, targets])
      simp only [rename, Function.update_apply, injective.eq_iff member inA, injective.eq_iff member inB,
        agree line member, agree a inA, agree b inB]
  · exact agree line member

end Gate

theorem Circuit.act_rename {m : Nat → Nat} {gates : List Gate} {S : Set Nat} (injective : S.InjOn m)
    (inside : ∀ g ∈ gates, ∀ line ∈ g.lines, line ∈ S) {σ τ : Assignment}
    (agree : ∀ line ∈ S, τ (m line) = σ line) :
    ∀ line ∈ S, act (gates.map (Gate.rename m)) τ (m line) = act gates σ line := by
  induction gates generalizing σ τ with
  | nil => exact agree
  | cons g rest ih =>
    have head := Gate.act_rename injective (inside g List.mem_cons_self) agree
    exact ih (fun other member => inside other (List.mem_cons_of_mem g member)) head

/-- Gates on the lines of `S` do there the same to assignments that agree there. -/
theorem Circuit.act_congr {gates : List Gate} {S : Set Nat} (inside : ∀ g ∈ gates, ∀ line ∈ g.lines, line ∈ S)
    {σ τ : Assignment} (agree : ∀ line ∈ S, τ line = σ line) :
    ∀ line ∈ S, act gates τ line = act gates σ line := by
  intro line member
  have renamed := act_rename (Set.injOn_id S) inside agree line member
  rwa [show Gate.rename id = id from funext Gate.rename_id, List.map_id] at renamed

theorem Gate.act_congr {g : Gate} {S : Set Nat} (inside : ∀ line ∈ g.lines, line ∈ S) {σ τ : Assignment}
    (agree : ∀ line ∈ S, τ line = σ line) : ∀ line ∈ S, g.act τ line = g.act σ line :=
  Circuit.act_congr (List.forall_mem_singleton.mpr inside) agree

end Reversible
