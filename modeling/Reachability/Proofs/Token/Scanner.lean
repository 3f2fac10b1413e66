import Mathlib.Data.List.DropRight
import Reachability.Proofs.Token.Words

/-!
# Token — reading a line in one pass

A scanner goes through a line once, from left to right, and keeps the token that is open
(`Scanner.State`).  It looks at no character ahead: a comment is noticed at its second slash, when
the first one already is part of a word, and is taken out again.

The scanner emits the tokens of the line, and it stops before the end of the line only at the second
slash of a comment (`scan_eq_run`).
-/

namespace Reachability.Token

open Reachability.Text

namespace Scanner

/-- What a scanner has open between two characters. -/
inductive State where
  /-- No token is open. -/
  | idle
  /-- The number at `column` has the value `value` so far. -/
  | number (column : Nat) (value : UInt64)
  /-- The word at `column` is made of `chars` so far. -/
  | word (column : Nat) (chars : List Char)
  /-- The same, and a backslash waits for the next character. -/
  | escape (column : Nat) (chars : List Char)
  /-- A comment has started. -/
  | stopped
  deriving DecidableEq

/-- A word that is closed loses the blanks at its end, and is dropped if nothing is left. -/
def closeWord (column : Nat) (chars : List Char) : List Placed :=
  let kept := chars.rdropWhile isBlank
  if kept = [] then [] else [⟨column, .word (String.ofList kept)⟩]

/-- The token that is open at the end of the line. -/
def State.close : State → List Placed
  | idle | stopped => []
  | number column value => [⟨column, .number value⟩]
  | word column chars | escape column chars => closeWord column chars

/-- Reads the character at `column` into the word that starts at `start`: the tokens that it
completes, and the state after it. -/
def stepWord (column start : Nat) (chars : List Char) (c : Char) : List Placed × State :=
  if c = '\\' then ([], .escape start chars)
  else
    match Mark.ofChar? c with
    | some m => (closeWord start chars ++ [⟨column, .mark m⟩], .idle)
    | none =>
      if c = '/' ∧ chars.getLast? = some '/' then (closeWord start chars.dropLast, .stopped)
      else ([], .word start (chars ++ [c]))

/-- A number with one more digit, capped. -/
def appendDigit (value : UInt64) (c : Char) : UInt64 :=
  Capped.ofNat (10 * value.toNat + (c.toNat - '0'.toNat))

/-- Reads the character at `column` while no token is open. -/
def stepIdle (column : Nat) (c : Char) : List Placed × State :=
  if isBlank c then ([], .idle)
  else
    match Mark.ofChar? c with
    | some m => ([⟨column, .mark m⟩], .idle)
    | none =>
      if c.isDigit then ([], .number column (appendDigit 0 c))
      else stepWord column column [] c

/-- Reads the character at `column`. -/
def step (column : Nat) : State → Char → List Placed × State
  | .idle, c => stepIdle column c
  | .number start value, c =>
    if c.isDigit then ([], .number start (appendDigit value c))
    else ((stepIdle column c).map (⟨start, .number value⟩ :: ·) id)
  | .word start chars, c => stepWord column start chars c
  | .escape start chars, c => ([], .word start (chars ++ [c]))
  | .stopped, _ => ([], .stopped)

/-- The tokens that a scanner emits on the rest of a line, from `column` on. -/
def runFrom (column : Nat) (state : State) : List Char → List Placed
  | [] => state.close
  | c :: rest => (step column state c).1 ++ runFrom (column + 1) (step column state c).2 rest

/-- The state that a scanner is in after some characters, from `column` on. -/
def stateFrom (column : Nat) (state : State) : List Char → State
  | [] => state
  | c :: rest => stateFrom (column + 1) (step column state c).2 rest

/-- The tokens that a scanner emits on a line. -/
def run (line : List Char) : List Placed := runFrom 0 .idle line

/-- The state that a scanner is in after some characters of a line. -/
def stateAfter (cs : List Char) : State := stateFrom 0 .idle cs

/-! ### One token after the other -/

theorem closeWord_eq_wordAt (column : Nat) (chars : List Char) :
    closeWord column chars = wordAt column chars := by
  have hkept : chars.rdropWhile isBlank = dropBlankEnd chars := rfl
  unfold closeWord wordAt
  rw [hkept]
  split
  · next hnil => simp [hnil]
  · next hne => rw [if_neg hne]

/-- A scanner that has stopped emits nothing more. -/
theorem runFrom_stopped (column : Nat) (cs : List Char) : runFrom column .stopped cs = [] := by
  induction cs generalizing column with
  | nil => rfl
  | cons c rest ih =>
    rw [runFrom, step, ih]
    rfl

/-- Numbers that are capped alike still are with more digits. -/
theorem ofNat_ofDigitChars_congr {m n : Nat} (h : min m Capped.cap = min n Capped.cap)
    (ds : List Char) :
    Capped.ofNat (Nat.ofDigitChars 10 ds m) = Capped.ofNat (Nat.ofDigitChars 10 ds n) := by
  induction ds generalizing m n with
  | nil => rw [Nat.ofDigitChars_nil, Nat.ofDigitChars_nil, Capped.ofNat, Capped.ofNat, h]
  | cons d ds ih =>
    rw [Nat.ofDigitChars_cons, Nat.ofDigitChars_cons]
    exact ih (by omega)

/-- Capping a number at each of its digits is capping its value. -/
theorem ofNat_ofDigitChars_appendDigit (value : UInt64) (c : Char) (ds : List Char) :
    Capped.ofNat (Nat.ofDigitChars 10 ds (appendDigit value c).toNat) =
      Capped.ofNat (Nat.ofDigitChars 10 (c :: ds) value.toNat) := by
  rw [Nat.ofDigitChars_cons]
  refine ofNat_ofDigitChars_congr ?_ ds
  rw [appendDigit, Capped.toNat_ofNat, Nat.min_assoc, Nat.min_self]

/-- A number goes on for as long as there are digits. -/
theorem runFrom_number (column start : Nat) (value : UInt64) (cs : List Char) :
    runFrom column (.number start value) cs =
      ⟨start, .number (Capped.ofNat
        (Nat.ofDigitChars 10 (cs.takeWhile Char.isDigit) value.toNat))⟩ ::
          runFrom (column + (cs.takeWhile Char.isDigit).length) .idle
            (cs.dropWhile Char.isDigit) := by
  induction cs generalizing column value with
  | nil =>
    rw [List.takeWhile_nil, Nat.ofDigitChars_nil, Capped.ofNat_toNat]
    rfl
  | cons c rest ih =>
    by_cases hdigit : c.isDigit = true
    · rw [runFrom, step, if_pos hdigit, List.nil_append, ih, ofNat_ofDigitChars_appendDigit,
        List.takeWhile_cons_of_pos hdigit, List.dropWhile_cons_of_pos hdigit, List.length_cons,
        Nat.add_right_comm, Nat.add_assoc]
    · rw [List.takeWhile_cons_of_neg hdigit, List.dropWhile_cons_of_neg hdigit,
        Nat.ofDigitChars_nil, Capped.ofNat_toNat, runFrom, step, if_neg hdigit]
      rfl

/-- A mark between tokens is a token of its own. -/
theorem runFrom_mark (column : Nat) (m : Mark) (cs : List Char) :
    runFrom column .idle (m.char :: cs) = ⟨column, .mark m⟩ :: runFrom (column + 1) .idle cs := by
  have hblank : isBlank m.char = false := by cases m <;> decide
  have hstep : stepIdle column m.char = ([⟨column, .mark m⟩], .idle) := by
    rw [stepIdle, hblank, Mark.ofChar?_char]
    rfl
  rw [runFrom, step, hstep]
  rfl

/-- A mark closes a word. -/
theorem stepWord_mark (column start : Nat) (chars : List Char) (m : Mark) :
    stepWord column start chars m.char = (closeWord start chars ++ [⟨column, .mark m⟩], .idle) := by
  have hne : m.char ≠ '\\' := by cases m <;> decide
  rw [stepWord, if_neg hne, Mark.ofChar?_char]

/-- What is not reserved is part of the word. -/
theorem stepWord_char {chars : List Char} {c : Char} (hreserved : isReserved c = false)
    (hslash : c = '/' → chars.getLast? ≠ some '/') (column start : Nat) :
    stepWord column start chars c = ([], .word start (chars ++ [c])) := by
  obtain ⟨hmark, hne⟩ : Mark.ofChar? c = none ∧ c ≠ '\\' := by simpa [isReserved] using hreserved
  rw [stepWord, if_neg hne, hmark]
  exact if_neg fun h => hslash h.1 h.2

/-- The second slash of a comment takes the first one out of the word and ends the line. -/
theorem runFrom_slash (column start : Nat) (chars cs : List Char) :
    runFrom column (.word start (chars ++ ['/'])) ('/' :: cs) = closeWord start chars := by
  have hstep : stepWord column start (chars ++ ['/']) '/' = (closeWord start chars, .stopped) := by
    simp [stepWord, Mark.ofChar?]
  rw [runFrom, step, hstep, runFrom_stopped, List.append_nil]

/-- A comment between tokens ends the line. -/
theorem runFrom_comment (column : Nat) (cs : List Char) :
    runFrom column .idle ('/' :: '/' :: cs) = [] :=
  runFrom_slash (column + 1) column [] cs

/-- A backslash takes the next character into the word. -/
theorem runFrom_escaped (column start : Nat) (chars : List Char) (e : Char) (more : List Char) :
    runFrom column (.word start chars) ('\\' :: e :: more) =
      runFrom (column + 2) (.word start (chars ++ [e])) more := rfl

/-- A word goes on as it is read in one go, unless a comment opens with the slash at its end. -/
theorem runFrom_word (column start : Nat) (chars cs : List Char)
    (hslash : chars.getLast? = some '/' → cs.head? ≠ some '/') :
    runFrom column (.word start chars) cs =
      closeWord start (chars ++ (readWord cs).1) ++
        runFrom (column + (cs.length - (readWord cs).2.length)) .idle (readWord cs).2 := by
  fun_induction readWord cs generalizing column chars with
  | case1 | case2 => simp [runFrom, step, stepWord, State.close]
  | case3 e more h =>
    -- the escaped slash is appended, and the slash after it takes it out again
    obtain ⟨rfl, hmore⟩ := h
    obtain ⟨rest, rfl⟩ := List.head?_eq_some_iff.mp hmore
    rw [runFrom_escaped, runFrom_slash]
    simp [runFrom, State.close]
  | case4 e more h ih =>
    have hnext : (chars ++ [e]).getLast? = some '/' → more.head? ≠ some '/' := by
      rw [List.getLast?_concat, Option.some.injEq]
      exact fun he hmore => h ⟨he, hmore⟩
    have hlength := length_readWord_le more
    have hcolumn : column + 2 + (more.length - (readWord more).2.length) =
        column + (more.length + 1 + 1 - (readWord more).2.length) := by omega
    rw [runFrom_escaped, ih _ _ hnext, hcolumn, List.append_assoc]
    rfl
  | case5 c rest hescape hend =>
    rw [List.append_nil, Nat.sub_self, Nat.add_zero]
    rcases hmark : Mark.ofChar? c with _ | m
    · -- a comment opens
      have hcomment : opensComment (c :: rest) = true := by
        simpa [isReserved, hmark, hescape] using hend
      obtain ⟨rfl, hrest⟩ := (opensComment_cons _ _).mp hcomment
      obtain ⟨rest, rfl⟩ := List.head?_eq_some_iff.mp hrest
      rw [runFrom, step, stepWord_char rfl fun _ hlast => hslash hlast rfl, runFrom_slash,
        runFrom_comment, List.append_nil]
      rfl
    · -- a mark closes the word, and then is read with no token open
      obtain rfl := Mark.ofChar?_eq_some_iff.mp hmark
      rw [runFrom, step, stepWord_mark, runFrom_mark, List.append_assoc]
      rfl
  | case6 c rest hescape hplain ih =>
    rw [Bool.or_eq_true, not_or, Bool.not_eq_true] at hplain
    obtain ⟨hreserved, hcomment⟩ := hplain
    have hnext : (chars ++ [c]).getLast? = some '/' → rest.head? ≠ some '/' := by
      rw [List.getLast?_concat, Option.some.injEq]
      exact fun hc hrest => hcomment ((opensComment_cons c rest).mpr ⟨hc, hrest⟩)
    have hlength := length_readWord_le rest
    have hcolumn : column + 1 + (rest.length - (readWord rest).2.length) =
        column + (rest.length + 1 - (readWord rest).2.length) := by omega
    rw [runFrom, step, stepWord_char hreserved fun hc hlast => hslash hlast (congrArg some hc),
      List.nil_append, ih _ _ hnext, hcolumn, List.append_assoc]
    rfl

/-- A scanner without an open token emits the tokens of the rest of the line. -/
theorem runFrom_idle (column : Nat) (cs : List Char) :
    runFrom column .idle cs = scanFrom column cs := by
  fun_induction scanFrom column cs with
  | case1 column => rfl
  | case2 column c rest hblank ih =>
    rw [runFrom, step, stepIdle, if_pos hblank, List.nil_append, ih]
  | case3 column c rest hblank hcomment =>
    obtain ⟨rfl, hrest⟩ := (opensComment_cons _ _).mp hcomment
    obtain ⟨rest, rfl⟩ := List.head?_eq_some_iff.mp hrest
    exact runFrom_comment column rest
  | case4 column c rest hblank hcomment m hm ih =>
    obtain rfl := Mark.ofChar?_eq_some_iff.mp hm
    rw [runFrom_mark, ih]
  | case5 column c rest hblank hcomment hm hdigit digits ih =>
    have hstep : stepIdle column c = ([], .number column (appendDigit 0 c)) := by
      rw [stepIdle, if_neg hblank, hm]
      exact if_pos hdigit
    have hcolumn : column + digits.length =
        column + 1 + (rest.takeWhile Char.isDigit).length := by
      rw [List.length_cons, Nat.add_assoc, Nat.add_comm 1]
    rw [runFrom, step, hstep, List.nil_append, runFrom_number, ofNat_ofDigitChars_appendDigit,
      ← hcolumn, ih]
    rfl
  | case6 column c rest hblank hcomment hm hdigit ih =>
    have hstep : stepIdle column c = stepWord column column [] c := by
      rw [stepIdle, if_neg hblank, hm]
      exact if_neg hdigit
    have hword := runFrom_word column column [] (c :: rest) (fun hlast => absurd hlast (by simp))
    rw [runFrom, step] at hword
    rw [runFrom, step, hstep, hword, closeWord_eq_wordAt, ih, List.nil_append]

/-! ### Where a scanner stops -/

theorem stateFrom_append (column : Nat) (state : State) (cs ds : List Char) :
    stateFrom column state (cs ++ ds) =
      stateFrom (column + cs.length) (stateFrom column state cs) ds := by
  induction cs generalizing column state with
  | nil => rfl
  | cons c cs ih =>
    rw [List.cons_append, stateFrom, ih, stateFrom, List.length_cons, Nat.add_right_comm,
      Nat.add_assoc]

theorem stateFrom_stopped (column : Nat) (cs : List Char) :
    stateFrom column .stopped cs = .stopped := by
  induction cs generalizing column with
  | nil => rfl
  | cons c rest ih => rw [stateFrom, step, ih]

/-- A word is stopped exactly by the second slash of a comment. -/
theorem stepWord_eq_stopped_iff {column start : Nat} {chars : List Char} {c : Char} :
    (stepWord column start chars c).2 = .stopped ↔ c = '/' ∧ chars.getLast? = some '/' := by
  unfold stepWord
  split
  · next hescape =>
    subst hescape
    exact ⟨nofun, fun h => absurd h.1 (by decide)⟩
  · split
    · next m hm =>
      refine ⟨nofun, ?_⟩
      rintro ⟨rfl, -⟩
      cases hm
    · split
      · next h => exact ⟨fun _ => h, fun _ => rfl⟩
      · next h => exact ⟨nofun, fun h' => absurd h' h⟩

/-- Nothing stops a scanner that has no token open. -/
theorem stepIdle_ne_stopped (column : Nat) (c : Char) : (stepIdle column c).2 ≠ .stopped := by
  unfold stepIdle
  split
  · nofun
  · split
    · nofun
    · split
      · nofun
      · intro h
        cases (stepWord_eq_stopped_iff.mp h).2

/-- A scanner stops exactly at a slash that follows a slash at the end of the open word. -/
theorem step_eq_stopped_iff {column : Nat} {state : State} {c : Char} (hstate : state ≠ .stopped) :
    (step column state c).2 = .stopped ↔
      c = '/' ∧ ∃ start chars, state = .word start (chars ++ ['/']) := by
  cases state with
  | idle =>
    refine ⟨fun h => absurd h (stepIdle_ne_stopped column c), ?_⟩
    rintro ⟨-, _, _, ⟨⟩⟩
  | number start value =>
    constructor
    · intro h
      rw [step] at h
      split at h
      · cases h
      · exact absurd h (stepIdle_ne_stopped column c)
    · rintro ⟨-, _, _, ⟨⟩⟩
  | word start chars =>
    rw [step, stepWord_eq_stopped_iff, List.getLast?_eq_some_iff]
    simp
  | escape start chars => simp [step]
  | stopped => exact absurd rfl hstate

/-- A scanner has stopped exactly if a comment stands in what it has read. -/
theorem stateFrom_eq_stopped_iff {column : Nat} {state : State} (hstate : state ≠ .stopped)
    {cs : List Char} :
    stateFrom column state cs = .stopped ↔ ∃ before after start chars,
      cs = before ++ '/' :: after ∧
        stateFrom column state before = .word start (chars ++ ['/']) := by
  constructor
  · intro h
    induction cs generalizing column state with
    | nil => exact absurd h hstate
    | cons c rest ih =>
      by_cases hnext : (step column state c).2 = .stopped
      · obtain ⟨rfl, start, chars, hword⟩ := (step_eq_stopped_iff hstate).mp hnext
        exact ⟨[], rest, start, chars, rfl, hword⟩
      · obtain ⟨before, after, start, chars, rfl, hword⟩ := ih hnext h
        exact ⟨c :: before, after, start, chars, rfl, hword⟩
  · rintro ⟨before, after, start, chars, rfl, hword⟩
    have hslash : (step (column + before.length) (.word start (chars ++ ['/'])) '/').2 = .stopped :=
      (step_eq_stopped_iff (nofun : State.word start (chars ++ ['/']) ≠ .stopped)).mpr
        ⟨rfl, start, chars, rfl⟩
    rw [stateFrom_append, hword, stateFrom, hslash, stateFrom_stopped]

end Scanner

/-- The tokens of a line are those that the scanner emits as it reads one character after the other,
at the same columns.  It stops before the end of the line only at an unescaped slash that follows a
slash at the end of the open word, so nothing else of a line is skipped. -/
theorem scan_eq_run (line : List Char) :
    scan line = Scanner.run line ∧
      (Scanner.stateAfter line = .stopped ↔ ∃ before after start chars,
        line = before ++ '/' :: after ∧
          Scanner.stateAfter before = .word start (chars ++ ['/'])) :=
  ⟨(Scanner.runFrom_idle 0 line).symm,
    Scanner.stateFrom_eq_stopped_iff (nofun : Scanner.State.idle ≠ .stopped)⟩

end Reachability.Token
