/-!
# Token — the units of a line

A line is made of words, numbers and eight marks.  A token keeps the column it starts at, counted
in characters from 0.
-/

namespace Reachability

/-- The punctuation of a line. -/
inductive Mark where
  | semi
  | hash
  | atSign
  | tilde
  | amp
  | bar
  | opening
  | closing
  deriving DecidableEq, Repr

namespace Mark

/-- How a mark is written. -/
def char : Mark → Char
  | semi => ';'
  | hash => '#'
  | atSign => '@'
  | tilde => '~'
  | amp => '&'
  | bar => '|'
  | opening => '('
  | closing => ')'

/-- The mark that `c` is, if it is one. -/
def ofChar? : Char → Option Mark
  | ';' => some semi
  | '#' => some hash
  | '@' => some atSign
  | '~' => some tilde
  | '&' => some amp
  | '|' => some bar
  | '(' => some opening
  | ')' => some closing
  | _ => none

@[simp] theorem ofChar?_char (m : Mark) : ofChar? m.char = some m := by
  cases m <;> rfl

theorem ofChar?_eq_some_iff {c : Char} {m : Mark} : ofChar? c = some m ↔ c = m.char := by
  constructor
  · intro h
    unfold ofChar? at h
    split at h <;> cases h <;> rfl
  · rintro rfl
    exact ofChar?_char m

end Mark

/-- A lexical unit. -/
inductive Token where
  /-- Text up to the next mark or comment. -/
  | word (text : String)
  /-- A run of digits. -/
  | number (value : UInt64)
  /-- Punctuation. -/
  | mark (mark : Mark)
  deriving DecidableEq, Repr

namespace Token

/-- The token as it reads. -/
def text : Token → String
  | word text => text
  | number value => String.ofList (Nat.toDigits 10 value.toNat)
  | mark m => m.char.toString

/-- The token as messages quote it. -/
def quoted (token : Token) : String := "`" ++ token.text ++ "`"

end Token

/-- A token and the column it starts at. -/
structure Placed where
  column : Nat
  token : Token
  deriving DecidableEq, Repr

/-- The column, from 1, of the end of a line with these tokens: right after the last of them, as
it reads. -/
def endColumn (tokens : List Placed) : Nat :=
  match tokens.getLast? with
  | none => 1
  | some last => last.column + last.token.text.length + 1

end Reachability
