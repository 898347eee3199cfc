import Reversible.Proofs.Synthesis.Embedding
import Reversible.Proofs.Synthesis.Transformation

namespace Reversible

/-- Simulated on the input of a row, the circuit puts every output that the row fixes on its line. -/
def Circuit.RealizesTable (c : Circuit) (t : TruthTable) (order : List Nat) : Prop :=
  ∀ row ∈ t.rows, ∃ out, simulate c row.1 = .ok out ∧
    ∀ line value, (line, some value) ∈ order.zip row.2 → out.get line = .ok value

namespace Synthesizer

/-- It may give up on a table, but it never fails, and the circuits that it builds are well-formed. -/
def Proper (s : Synthesizer) : Prop :=
  ∀ t order, t.WellFormed → t.ValidOrder order →
    ∃ synthesis, s t order = .ok synthesis ∧ ∀ c, synthesis.outcome = .ok c → c.WellFormed

/-- Circuits on the lines of the table also do what the table asks for. Other circuits may do anything. -/
def Realizing (s : Synthesizer) : Prop :=
  s.Proper ∧ ∀ t order synthesis c, t.WellFormed → t.ValidOrder order → s t order = .ok synthesis →
    synthesis.outcome = .ok c → c.lines = t.inputs → c.RealizesTable t order

end Synthesizer

namespace Transformation

theorem Realizes.table {t : TruthTable} (formed : t.WellFormed) {order : List Nat} (ordered : t.ValidOrder order)
    (narrow : t.inputs ≤ 64) {perm : Array Nat}
    (allowed : ∀ row ∈ t.rows, Embedding.agrees order row.2 (perm.getD row.1.number row.1.number) = true)
    {c : Circuit} (realizes : Realizes t.inputs perm c) : c.RealizesTable t order := by
  intro row member
  obtain ⟨canonical, width⟩ := formed.inputs row (List.mem_reverse.mp member)
  have fits : row.1.width ≤ 64 := width ▸ narrow
  have inside := Bits.number_lt canonical fits
  have input := Bits.eq_pack_number canonical fits
  rw [width] at inside input
  have simulated := Circuit.simulate_pack realizes.formed row.1.number.testBit
  rw [realizes.lines, realizes.computes _ inside, ← input] at simulated
  refine ⟨_, simulated, fun line value entry => ?_⟩
  have below : line < t.inputs := ordered.2.1 line (List.of_mem_zip entry).1
  rw [Bits.get_pack below, Embedding.agrees_iff.mp (allowed row member) line value entry]

theorem synthesizer_spec (s : Transformation) (limit : s.maxLines ≤ 63) {t : TruthTable} (formed : t.WellFormed)
    {order : List Nat} (ordered : t.ValidOrder order) :
    ∃ synthesis, s.synthesizer t order = .ok synthesis ∧
      ∀ c, synthesis.outcome = .ok c → c.WellFormed ∧ c.RealizesTable t order := by
  obtain ⟨embedded, embeds, spec⟩ := t.embed_spec formed order ((Nat.min_le_right _ _).trans limit)
  unfold synthesizer
  rw [embeds, ok_bind]
  cases embedded with
  | error e => exact ⟨_, rfl, nofun⟩
  | ok perm =>
    obtain ⟨narrow, permutes, allowed⟩ := spec perm rfl
    obtain ⟨built, builds, realizes, _⟩ := permutation_spec s (narrow.trans limit) permutes
    simp only [builds, ok_bind]
    cases built with
    | error e => exact ⟨_, rfl, nofun⟩
    | ok c =>
      refine ⟨_, rfl, fun d equal => ?_⟩
      cases equal
      have circuit := realizes c rfl
      exact ⟨circuit.formed, circuit.table formed ordered (by omega) allowed⟩

/-- With words that hold every assignment, synthesis by transformation realizes every table. -/
theorem synthesizer_realizing (s : Transformation) (limit : s.maxLines ≤ 63) : s.synthesizer.Realizing := by
  constructor
  · intro t order formed ordered
    obtain ⟨synthesis, run, circuits⟩ := s.synthesizer_spec limit formed ordered
    exact ⟨synthesis, run, fun c built => (circuits c built).1⟩
  · intro t order synthesis c formed ordered run built _
    obtain ⟨found, runs, circuits⟩ := s.synthesizer_spec limit formed ordered
    cases run.symm.trans runs
    exact (circuits c built).2

end Transformation

end Reversible
