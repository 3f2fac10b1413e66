import Reachability.Text.CaseTable
import Reachability.Text.Ranges

/-!
# Text — lowercase

Each letter is replaced by its lowercase form.  A capital sigma at the end of a word becomes a
final sigma: the nearest character before it that is not ignorable is cased, and the nearest after
it is not.
-/

namespace Reachability.Text

/-- Whether `c` is a cased letter. -/
def isCased (c : Char) : Bool := inRanges casedRanges c

/-- Whether `c` is passed over when looking for the letters around a sigma. -/
def isCaseIgnorable (c : Char) : Bool := inRanges caseIgnorableRanges c

/-- Whether a run holds the code point `n`. -/
def CaseRun.holds (run : CaseRun) (n : Nat) : Bool :=
  run.first ≤ n && n ≤ run.last && (n - run.first) % run.step == 0

/-- The lowercase form of a character outside its context. -/
def lowercaseChar (c : Char) : List Char :=
  if c = 'İ' then ['i', '\u0307']
  else
    match lowercaseRuns.find? (·.holds c.toNat) with
    | some run => [Char.ofNat (c.toNat + run.shift).toNat]
    | none => [c]

/-- Whether the first character that is not ignorable is cased. -/
def meetsCased (cs : List Char) : Bool :=
  match cs.dropWhile isCaseIgnorable with
  | [] => false
  | c :: _ => isCased c

/-- The lowercase form of `cs`, where `before` are the characters before it, the nearest first. -/
def lowercaseAfter (before : List Char) : List Char → List Char
  | [] => []
  | c :: rest =>
    let lower :=
      if c = 'Σ' then if meetsCased before && !meetsCased rest then ['ς'] else ['σ']
      else lowercaseChar c
    lower ++ lowercaseAfter (c :: before) rest

/-- The lowercase form of a text. -/
def lowercase (cs : List Char) : List Char := lowercaseAfter [] cs

end Reachability.Text
