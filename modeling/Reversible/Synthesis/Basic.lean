import Reversible.Circuit.Basic
import Reversible.TruthTable

namespace Reversible

/-- Why no circuit is built for a table. The table is at fault, or the limits set for the search. -/
inductive SynthesisError where
  | tooManyLines (lines limit : Nat)
  | orderMismatch (order : List Nat) (inputs outputs : Nat)
  | ambiguous (input : Nat)
  | gateLimitExceeded (limit : Nat)
deriving DecidableEq

/-- A number in base two. -/
def binary (n : Nat) : String := String.ofList (Nat.toDigits 2 n)

def SynthesisError.message : SynthesisError → String
  | tooManyLines lines limit => s!"specification over {lines} lines exceeds the limit of {limit}"
  | orderMismatch order inputs outputs =>
    s!"output order {bracketed order} does not fit a specification with {inputs} inputs and {outputs} outputs"
  | ambiguous input => s!"input 0b{binary input} needs an output that no don't-care assignment can keep distinct"
  | gateLimitExceeded limit => s!"synthesized circuit exceeds the limit of {limit} gates"

end Reversible
