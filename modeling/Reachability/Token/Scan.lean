import Reachability.Capped
import Reachability.Text.Blank
import Reachability.Token.Basic

/-!
# Token — reading a line

Blanks before a token are skipped and `//` ends the line.  A backslash takes the next character
into a word as it is.  A word keeps the blanks inside it and loses those at its end.
-/

namespace Reachability.Token
open Reachability.Text

/-- Whether `c` ends a word or needs a backslash to be part of one. -/
def isReserved (c : Char) : Bool := (Mark.ofChar? c).isSome || c == '\\'

/-- Whether a comment starts here. -/
def opensComment : List Char → Bool
  | '/' :: '/' :: _ => true
  | _ => false

/-- The characters of a word and what follows them.  An escaped slash in front of a slash swallows
the rest of the line, itself included. -/
def readWord : List Char → List Char × List Char
  | [] => ([], [])
  | c :: rest =>
    if c = '\\' then
      match rest with
      | [] => ([], [])
      | e :: more =>
        if e = '/' ∧ more.head? = some '/' then ([], [])
        else ((readWord more).map (e :: ·) id)
    else if isReserved c || opensComment (c :: rest) then ([], c :: rest)
    else ((readWord rest).map (c :: ·) id)

/-- The word made of `cs`, unless nothing is left of it. -/
def wordAt (column : Nat) (cs : List Char) : List Placed :=
  match dropBlankEnd cs with
  | [] => []
  | text => [⟨column, .word (String.ofList text)⟩]

theorem length_readWord_le (cs : List Char) : (readWord cs).2.length ≤ cs.length := by
  fun_induction readWord cs <;> simp_all <;> omega

theorem length_readWord_lt {c : Char} {rest : List Char} (hm : Mark.ofChar? c = none)
    (hc : opensComment (c :: rest) = false) :
    (readWord (c :: rest)).2.length < (c :: rest).length := by
  unfold readWord
  split
  · split
    · simp
    · next e more =>
      split
      · simp
      · have := length_readWord_le more
        simp; omega
  · next hb =>
    have := length_readWord_le rest
    simp [isReserved, hm, hc, hb]; omega

/-- The tokens of the rest of a line that starts at `column`. -/
def scanFrom (column : Nat) (cs : List Char) : List Placed :=
  match cs with
  | [] => []
  | c :: rest =>
    if isBlank c then scanFrom (column + 1) rest
    else if opensComment (c :: rest) then []
    else
      match hm : Mark.ofChar? c with
      | some m => ⟨column, .mark m⟩ :: scanFrom (column + 1) rest
      | none =>
        if c.isDigit then
          let digits := c :: rest.takeWhile Char.isDigit
          ⟨column, .number (Capped.ofNat (Nat.ofDigitChars 10 digits 0))⟩ ::
            scanFrom (column + digits.length) (rest.dropWhile Char.isDigit)
        else
          wordAt column (readWord (c :: rest)).1 ++
            scanFrom (column + ((c :: rest).length - (readWord (c :: rest)).2.length))
              (readWord (c :: rest)).2
termination_by cs.length
decreasing_by
  · simp
  · simp
  · have := (List.dropWhile_suffix Char.isDigit (l := rest)).length_le
    simp only [List.length_cons]; omega
  · exact length_readWord_lt hm (by simpa using ‹¬opensComment (c :: rest) = true›)

@[simp] theorem scanFrom_nil (column : Nat) : scanFrom column [] = [] := by rw [scanFrom]

/-- A blank between tokens is skipped. -/
theorem scanFrom_blank {c : Char} (h : isBlank c = true) (column : Nat) (rest : List Char) :
    scanFrom column (c :: rest) = scanFrom (column + 1) rest := by
  rw [scanFrom, if_pos h]

/-- A mark is a token of its own. -/
@[simp] theorem scanFrom_mark (column : Nat) (m : Mark) (rest : List Char) :
    scanFrom column (m.char :: rest) = ⟨column, .mark m⟩ :: scanFrom (column + 1) rest := by
  have hblank : isBlank m.char = false := by cases m <;> decide
  have hcomment : opensComment (m.char :: rest) = false := by cases m <;> rfl
  rw [scanFrom, if_neg (by simp [hblank]), if_neg (by simp [hcomment])]
  split
  · next heq =>
    rw [Mark.ofChar?_char] at heq
    rw [Option.some.inj heq]
  · next heq => simp at heq

/-- The tokens of a line. -/
def scan (line : List Char) : List Placed := scanFrom 0 line

end Reachability.Token
