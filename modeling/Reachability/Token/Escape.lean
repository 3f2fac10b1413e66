import Reachability.Token.Scan

/-!
# Token — writing a name

A name is written so that reading it back gives one word: a backslash goes before each reserved
character, before a digit at the start, and before a slash that would complete a comment opener.
-/

namespace Reachability.Token

/-- Whether `c` needs a backslash after `previous`, the character before it in the name. -/
def needsEscape (previous : Option Char) (c : Char) : Bool :=
  isReserved c || (previous.isNone && c.isDigit) || (c == '/' && previous == some '/')

/-- `cs` escaped, where `previous` is the character before them. -/
def escapeAfter (previous : Option Char) : List Char → List Char
  | [] => []
  | c :: rest =>
    if needsEscape previous c then '\\' :: c :: escapeAfter (some c) rest
    else c :: escapeAfter (some c) rest

/-- A name as it is written in a line. -/
def escape (name : List Char) : List Char := escapeAfter none name

end Reachability.Token
