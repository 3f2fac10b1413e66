/-!
# Cache — why stored bytes are refused

The bytes may not be a sealed table, or their payload may not be one, or the table in it may not
hold together.
-/

namespace Reachability.Cache

/-- What does not hold together in a stored table. -/
inductive Flaw where
  | ruleCount (stated actual : Nat)
  | goalCount (stated actual : Nat)
  | rewardCount (stated actual : Nat)
  | strayReference (index rules : Nat)
  | duplicateGoal (goal : String)
  | goalEnd (goal : String) (stop rules previous : Nat)
  | duplicateLabel (label : String)
  | unknownReward (label reward : String)
  | strayCapability (index rules : Nat)
  | unknownFlag (rule flag : String)
  | repeatedFlag (rule flag : String)
  | unknownFunction (function : String)
  | missingNumber (function : String)
  | joinlessGroup (count : Nat)
  | repeatedRuleNames
  | unknownLocation (goal location : String)
  | cyclic (message : String)
  deriving DecidableEq, Repr

/-- Why bytes are refused. -/
inductive CacheError where
  | badMagic
  | incompatibleVersion (blob supported : Nat)
  | checksumMismatch
  | lengthMismatch (expected actual : Nat)
  /-- The payload is not the bytes of a stored table. -/
  | undecodable
  | invalid (flaw : Flaw)
  deriving DecidableEq, Repr

/-- The message of a flaw. -/
def Flaw.message : Flaw → String
  | ruleCount stated actual => s!"metadata says {stated} rules but payload has {actual}"
  | goalCount stated actual => s!"metadata says {stated} goals but payload has {actual}"
  | rewardCount stated actual => s!"metadata says {stated} rewards but payload has {actual}"
  | strayReference index rules => s!"rule ref {index} out of bounds (max {rules})"
  | duplicateGoal goal => s!"duplicate goal '{goal}'"
  | goalEnd goal stop rules previous =>
    s!"goal '{goal}' ends at {stop} (rules: {rules}, previous end: {previous})"
  | duplicateLabel label => s!"duplicate label '{label}'"
  | unknownReward label reward => s!"label '{label}' lists unknown reward '{reward}'"
  | strayCapability index rules => s!"capability entry {index} out of bounds (max {rules})"
  | unknownFlag rule flag => s!"rule '{rule}' has unknown flag '{flag}'"
  | repeatedFlag rule flag => s!"rule '{rule}' repeats flag '{flag}'"
  | unknownFunction function => s!"unknown function '{function}'"
  | missingNumber function => s!"function '{function}' is missing its integer argument"
  | joinlessGroup count => s!"group of {count} conditions has no operator"
  | repeatedRuleNames => "rule names are not unique"
  | unknownLocation goal location => s!"goal '{goal}' names unknown location '{location}'"
  | cyclic message => message

/-- The message of an error. -/
def CacheError.message : CacheError → String
  | badMagic => "not a reachdsl binary: invalid magic bytes"
  | incompatibleVersion blob supported =>
    s!"incompatible format version: blob is v{blob}, engine supports v{supported}"
  | checksumMismatch => "integrity check failed: BLAKE3 checksum mismatch"
  | lengthMismatch expected actual =>
    s!"payload length mismatch: expected {expected} bytes, got {actual}"
  | undecodable => "failed to decode payload"
  | invalid flaw => s!"validation failed: {flaw.message}"

end Reachability.Cache
