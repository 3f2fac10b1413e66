import Reachability.Proofs.Token.Scanner
import Reachability.Sheet.RuleLine

/-!
# Sheet — comments

A comment after a blank leaves no trace, whatever the line in front of it ends with
(`Sheet.scan_comment`).  To a scanner the comment is the end of the line: it closes the open token,
and the blank in front of it, escaped or not, is lost at the end of a word
(`Token.Scanner.runFrom_blank_comment`).
-/

namespace Reachability

namespace Token.Scanner

open Reachability.Text

/-- A blank at the end of a word is lost. -/
theorem closeWord_append_blank {blank : Char} (hblank : isBlank blank = true) (column : Nat)
    (chars : List Char) : closeWord column (chars ++ [blank]) = closeWord column chars := by
  rw [closeWord, closeWord, List.rdropWhile_concat_pos _ _ _ hblank]

/-- A blank is part of a word, but a comment right after it ends the word and the line. -/
theorem runFrom_word_comment {blank : Char} (hblank : isBlank blank = true) (column start : Nat)
    (chars cs : List Char) :
    runFrom column (.word start (chars ++ [blank])) ('/' :: '/' :: cs) =
      closeWord start chars := by
  have hslash : stepWord column start (chars ++ [blank]) '/' =
      ([], .word start (chars ++ [blank] ++ ['/'])) := by
    refine stepWord_char rfl (fun _ hlast => ?_) column start
    rw [List.getLast?_concat, Option.some.injEq] at hlast
    subst hlast
    exact absurd hblank (by decide)
  rw [runFrom, step, hslash, List.nil_append, runFrom_slash, closeWord_append_blank hblank]

/-- A comment after a blank closes the open token, as the end of the line does. -/
theorem runFrom_blank_comment {blank : Char} (hblank : isBlank blank = true) (column : Nat)
    (state : State) (cs : List Char) :
    runFrom column state (blank :: '/' :: '/' :: cs) = state.close := by
  have hidle : stepIdle column blank = ([], .idle) := if_pos hblank
  cases state with
  | idle =>
    rw [runFrom, step, hidle, runFrom_comment]
    rfl
  | number start value =>
    have hdigit : ¬blank.isDigit = true := fun h => by
      rw [(plain_of_isDigit h).1] at hblank
      cases hblank
    rw [runFrom, step, if_neg hdigit, hidle]
    exact congrArg (⟨start, .number value⟩ :: ·) (runFrom_comment (column + 1) cs)
  | word start chars =>
    have hslash : blank = '/' → chars.getLast? ≠ some '/' := by
      rintro rfl
      exact absurd hblank (by decide)
    rw [runFrom, step, stepWord_char (not_isReserved_of_isBlank hblank) hslash]
    exact runFrom_word_comment hblank (column + 1) start chars cs
  | escape start chars => exact runFrom_word_comment hblank (column + 1) start chars cs
  | stopped => exact runFrom_stopped _ _

/-- What a scanner emits does not change with more characters if they close whatever token is open
as the end of the line does. -/
theorem runFrom_append_closed {ds : List Char}
    (h : ∀ column state, runFrom column state ds = state.close) (column : Nat) (state : State)
    (cs : List Char) :
    runFrom column state (cs ++ ds) = runFrom column state cs := by
  induction cs generalizing column state with
  | nil => exact h column state
  | cons c cs ih => rw [List.cons_append, runFrom, runFrom, ih]

end Token.Scanner

namespace Sheet

/-- A comment after a space changes neither the tokens of a line nor what the line states or is at
fault for. -/
theorem scan_comment (line : Nat) (cs rest : List Char) :
    Token.scan (cs ++ ' ' :: '/' :: '/' :: rest) = Token.scan cs ∧
      readRuleLine line (cs ++ ' ' :: '/' :: '/' :: rest) = readRuleLine line cs := by
  have hscan : Token.scan (cs ++ ' ' :: '/' :: '/' :: rest) = Token.scan cs := by
    rw [Token.scan, Token.scan, ← Token.Scanner.runFrom_idle, ← Token.Scanner.runFrom_idle]
    exact Token.Scanner.runFrom_append_closed
      (fun column state => Token.Scanner.runFrom_blank_comment rfl column state rest) 0 .idle cs
  refine ⟨hscan, ?_⟩
  rw [readRuleLine, readRuleLine, hscan]

end Sheet

end Reachability
