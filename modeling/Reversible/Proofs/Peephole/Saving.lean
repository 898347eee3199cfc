import Reversible.Proofs.Cost
import Reversible.Proofs.Peephole.Selection

namespace Reversible.Peephole

open CostModel

/-- What the replacements save together, however much that is. -/
def saved (replacements : List (UInt64 × UInt64)) : Nat :=
  (replacements.map fun pair => pair.1.toNat - pair.2.toNat).sum

/-- Every replacement is cheaper than what it replaces. -/
def Cheapens (replacements : List (UInt64 × UInt64)) : Prop := ∀ pair ∈ replacements, pair.2 < pair.1

theorem saved_append (replacements others : List (UInt64 × UInt64)) :
    saved (replacements ++ others) = saved replacements + saved others := by
  unfold saved
  rw [List.map_append, List.sum_append]

/-- The savings are added up as far as a word can hold their sum. -/
theorem sumsTo_saved {replacements : List (UInt64 × UInt64)} (cheapens : Cheapens replacements) (start : UInt64) :
    SumsTo (start.toNat + saved replacements)
      (replacements.foldlM (fun sum (old, new) => checkedAdd sum (old - new)) start)
      fun total => total.toNat = start.toNat + saved replacements := by
  induction replacements generalizing start with
  | nil => exact .of_ok start.toNat_lt rfl
  | cons pair rest ih =>
    obtain ⟨old, new⟩ := pair
    obtain ⟨cheaper, others⟩ := List.forall_mem_cons.mp cheapens
    have difference : (old - new).toNat = old.toNat - new.toNat :=
      UInt64.toNat_sub_of_le _ _ (UInt64.le_of_lt cheaper)
    have split : saved ((old, new) :: rest) = (old.toNat - new.toNat) + saved rest := rfl
    rw [List.foldlM_cons]
    refine (SumsTo.checkedAdd start (old - new)).bind (by omega) fun sum value => ?_
    have sums : start.toNat + saved ((old, new) :: rest) = sum.toNat + saved rest := by omega
    rw [sums]
    exact ih others sum

/-- The saving is no more than the difference of the costs, and it is the difference if the costs fit a word. -/
structure Balances (after saving before : Nat) : Prop where
  atMost : after + saving ≤ before
  exact : before < UInt64.size → after + saving = before

theorem Balances.refl (cost : Nat) : Balances cost 0 cost := ⟨le_rfl, fun _ => rfl⟩

theorem Balances.trans {last later middle earlier first : Nat} (second : Balances last later middle)
    (one : Balances middle earlier first) : Balances last (earlier + later) first := by
  have below := one.atMost
  have belowNext := second.atMost
  refine ⟨by omega, fun fits => ?_⟩
  have whole := one.exact fits
  have wholeNext := second.exact (by omega)
  omega

variable {σ : Type} {o : Peephole σ} {c d : Circuit} {w : Window} {candidate : Circuit} {old new : UInt64}

/-- A replacement that is accepted saves what is reported of it. -/
theorem Accepts.balances (accepts : o.Accepts c w candidate old new d) (window : c.HasWindow w)
    (summing : o.cost.Summing) (free : o.cost.LineFree) (priced : o.cost.Prices c.lines c.gates) :
    d.lines = c.lines ∧ o.cost.Prices c.lines d.gates ∧
      Balances (o.cost.total c.lines d.gates) (old.toNat - new.toNat) (o.cost.total c.lines c.gates) := by
  obtain ⟨proposed, width, oldCost, newCost, cheaper, placed⟩ := accepts
  obtain ⟨start, stop, filter, extent, rfl⟩ := window.extent
  obtain ⟨lines, bound, rfl⟩ := Circuit.of_replaceWindow placed
  obtain ⟨-, oldSum⟩ := summing.circuitCost_eq_ok.mp oldCost
  obtain ⟨newPriced, newSum⟩ := summing.circuitCost_eq_ok.mp newCost
  refine ⟨rfl, extent.prices_replaced free.blind bound priced (free.prices newPriced _), ?_⟩
  change old.toNat = min (o.cost.total (c.cut start stop filter).lines _) _ at oldSum
  rw [free.total_eq c.lines] at oldSum newSum
  have exchanged := extent.total_replaced free.blind bound c.lines
  have inside := extent.total_cut_le free.blind c.lines
  have less := UInt64.lt_iff_toNat_lt.mp cheaper
  have word := old.toNat_lt
  -- The lower cost is not cut off at the largest word, and the higher one is not if the whole circuit fits.
  refine ⟨by omega, fun fits => ?_⟩
  have top : UInt64.size - 1 + 1 = UInt64.size := rfl
  omega

theorem Moves.cheapens {s t : State σ} (moves : o.Moves s t) (cheapens : Cheapens s.report.replacements) :
    Cheapens t.report.replacements := by
  cases moves with
  | keeps circuit report =>
    rw [report.listed, List.append_nil]
    exact cheapens
  | replaces selected accepts report =>
    rw [report.listed]
    exact List.forall_mem_append.mpr ⟨cheapens, List.forall_mem_singleton.mpr accepts.cheaper⟩

theorem Reaches.cheapens {start s : State σ} (reached : o.Reaches start s)
    (cheapens : Cheapens start.report.replacements) : Cheapens s.report.replacements := by
  induction reached with
  | start => exact cheapens
  | next _ step ih => exact (step_moves step).cheapens ih

/-- The circuit has become cheaper by what the report says. -/
structure Accounts (o : Peephole σ) (start s : State σ) : Prop where
  lines : s.circuit.lines = start.circuit.lines
  priced : o.cost.Prices start.circuit.lines s.circuit.gates
  counted : s.report.replaced = s.report.replacements.length
  balances : Balances (o.cost.total start.circuit.lines s.circuit.gates) (saved s.report.replacements)
    (o.cost.total start.circuit.lines start.circuit.gates)

theorem Accounts.start {selector : σ} (priced : o.cost.Prices c.lines c.gates) :
    Accounts o { selector, circuit := c } { selector, circuit := c } :=
  ⟨rfl, priced, rfl, .refl _⟩

theorem Accounts.next {start s t : State σ} (accounts : Accounts o start s) (moves : o.Moves s t)
    (faithful : o.select.Faithful) (summing : o.cost.Summing) (free : o.cost.LineFree) : Accounts o start t := by
  cases moves with
  | keeps circuit report =>
    have listed : t.report.replacements = s.report.replacements := report.listed.trans (List.append_nil _)
    have counted : t.report.replaced = s.report.replaced := report.counted
    refine ⟨circuit ▸ accounts.lines, circuit ▸ accounts.priced, ?_, ?_⟩
    · rw [counted, listed, accounts.counted]
    · rw [circuit, listed]
      exact accounts.balances
  | @replaces w candidate old new selected accepts report =>
    have priced : o.cost.Prices s.circuit.lines s.circuit.gates := accounts.lines.symm ▸ accounts.priced
    obtain ⟨lines, pricedAfter, balances⟩ := accepts.balances (faithful _ _ _ selected) summing free priced
    have single : saved [(old, new)] = old.toNat - new.toNat := Nat.add_zero _
    rw [accounts.lines] at lines pricedAfter balances
    refine ⟨lines, pricedAfter, ?_, ?_⟩
    · rw [report.counted, report.listed, accounts.counted, List.length_append]
    · rw [report.listed, saved_append, single]
      exact balances.trans accounts.balances

theorem Reaches.accounts {selector : σ} {s : State σ} (reached : o.Reaches { selector, circuit := c } s)
    (faithful : o.select.Faithful) (summing : o.cost.Summing) (free : o.cost.LineFree)
    (priced : o.cost.Prices c.lines c.gates) : Accounts o { selector, circuit := c } s := by
  induction reached with
  | start => exact .start priced
  | next _ step ih => exact ih.next (step_moves step) faithful summing free

end Reversible.Peephole
