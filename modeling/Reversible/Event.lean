import Reversible.Synthesis.Basic

namespace Reversible

/-- Why a garbage line stays in the circuit. -/
inductive SkipReason where
  | noConstantLine
  | maxWindowLines
  | ambiguous
  | synthesisFailed
deriving DecidableEq

def SkipReason.name : SkipReason → String
  | noConstantLine => "NoConstantLine"
  | maxWindowLines => "MaxWindowLines"
  | ambiguous => "Ambiguous"
  | synthesisFailed => "SynthesisFailed"

/-- What a pass, or a part plugged into it, reports while it works. Windows are given by the position of
their first gate and the position after their last one. -/
inductive Event where
  | tableSynthesized (rows lines gates : Nat)
  | levelRaised (lines : Nat)
  | windowRefused (start stop : Nat) (reason : SynthesisError)
  | windowMisfit (start stop given expected : Nat)
  | windowReplaced (start stop : Nat) (filter : List Nat) (old new : UInt64)
  | deadLineDropped (line : Nat)
  | garbageWindow (line start stop : Nat) (filter : List Nat)
  | manyVariables (offset free : Nat)
  | windowGrown (line lines : Nat)
  | lineSkipped (line : Nat) (reason : SkipReason)
  | lineRefused (line : Nat) (reason : SynthesisError)
  | lineMisfit (line given expected : Nat)
  | lineMerged (oldGates newGates constantLine line : Nat)
  | factored (factor : List Nat) (helper start stop : Nat) (saving : UInt64)
deriving DecidableEq

def Event.message : Event → String
  | tableSynthesized rows lines gates => s!"Synthesized {rows} rows over {lines} lines with {gates} gates"
  | levelRaised lines => s!"Line window selection: now up to {lines} lines"
  | windowRefused start stop reason => s!"Window {start}..{stop}: no replacement ({reason.message})"
  | windowMisfit start stop given expected =>
    s!"Window {start}..{stop}: replacement has {given} lines instead of {expected}"
  | windowReplaced start stop filter old new =>
    s!"Window {start}..{stop} on lines {bracketed filter}: cost {old.toNat} -> {new.toNat}"
  | deadLineDropped line => s!"Dropping dead garbage line {line}"
  | garbageWindow line start stop filter =>
    s!"Garbage line {line}: window {start}..{stop} on lines {bracketed filter}"
  | manyVariables offset free => s!"Prefix of window at {offset} has {free} variables"
  | windowGrown line lines => s!"Growing window for line {line} to {lines} lines"
  | lineSkipped line reason => s!"Skipping garbage line {line}: {reason.name}"
  | lineRefused line reason => s!"Synthesis failed for window of line {line}: {reason.message}"
  | lineMisfit line given expected =>
    s!"Synthesized window for line {line} has {given} lines instead of {expected}"
  | lineMerged oldGates newGates constantLine line =>
    s!"Replacing {oldGates} gates by {newGates} and merging constant line {constantLine} into line {line}"
  | factored factor helper start stop saving =>
    s!"Factoring {bracketed factor} onto line {helper} over gates {start}..{stop} saves {saving.toNat}"

end Reversible
