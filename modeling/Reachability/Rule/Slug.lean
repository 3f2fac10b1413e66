import Reachability.Text.Lowercase

/-!
# Rule — the goal named after a rule

A rule that belongs to a goal without saying which belongs to the one named after it: its name in
lowercase without the punctuation of ASCII, underscores for spaces.
-/

namespace Reachability

/-- Whether `c` is punctuation of ASCII. -/
def isAsciiPunctuation (c : Char) : Bool :=
  ('!' ≤ c && c ≤ '/') || (':' ≤ c && c ≤ '@') || ('[' ≤ c && c ≤ '\x60') || ('\x7b' ≤ c && c ≤ '~')

/-- The name of the goal named after `name`. -/
def goalSlug (name : String) : String :=
  let kept := name.toList.filter (!isAsciiPunctuation ·)
  String.ofList (Text.lowercase (kept.map fun c => if c = ' ' then '_' else c))

end Reachability
