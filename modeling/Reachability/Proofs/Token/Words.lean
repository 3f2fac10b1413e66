import Mathlib.Data.List.Induction
import Reachability.Token.Escape

/-!
# Token — names read back

The tokens of a line are those of its pieces, wherever they stand in it (`tokens`).  An escaped
name in front of a mark, of blanks and a mark, or of the end of the line is one word, the name
itself (`tokens_escape`), and the digits of a number are this number (`tokens_toDigits`).
-/

namespace Reachability.Token

open Reachability.Text

/-! ### Single characters -/

theorem not_isBlank_slash : isBlank '/' = false := by decide

theorem not_isBlank_backslash : isBlank '\\' = false := by decide

/-- A blank is no mark. -/
theorem ofChar?_of_isBlank {c : Char} (h : isBlank c = true) : Mark.ofChar? c = none := by
  rw [Option.eq_none_iff_forall_ne_some]
  intro m hm
  obtain rfl := Mark.ofChar?_eq_some_iff.mp hm
  cases m <;> exact absurd h (by decide)

/-- A blank needs no backslash in a word. -/
theorem not_isReserved_of_isBlank {c : Char} (h : isBlank c = true) : isReserved c = false := by
  have hne : c ≠ '\\' := by
    rintro rfl
    exact absurd h (by decide)
  simp [isReserved, ofChar?_of_isBlank h, hne]

theorem toNat_of_isDigit {c : Char} (h : c.isDigit = true) : 48 ≤ c.toNat ∧ c.toNat ≤ 57 := by
  simpa [Char.isDigit, UInt32.le_iff_toNat_le] using h

/-- A digit is neither a blank nor a mark, and no comment starts with it. -/
theorem plain_of_isDigit {c : Char} (h : c.isDigit = true) :
    isBlank c = false ∧ Mark.ofChar? c = none ∧ c ≠ '/' := by
  have hrange := toNat_of_isDigit h
  refine ⟨?_, ?_, ?_⟩
  · rw [isBlank, inRanges, List.any_eq_false]
    simp only [blankRanges, List.forall_mem_cons, Bool.and_eq_true, decide_eq_true_eq]
    refine ⟨?_, ?_, ?_, ?_, ?_, ?_, ?_, ?_, ?_, ?_, nofun⟩ <;> omega
  · rw [Option.eq_none_iff_forall_ne_some]
    intro m hm
    obtain rfl := Mark.ofChar?_eq_some_iff.mp hm
    cases m <;> exact absurd h (by decide)
  · rintro rfl
    exact absurd h (by decide)

theorem opensComment_cons (c : Char) (rest : List Char) :
    opensComment (c :: rest) = true ↔ c = '/' ∧ rest.head? = some '/' := by
  constructor
  · intro h
    unfold opensComment at h
    split at h
    · next heq =>
      cases heq
      exact ⟨rfl, rfl⟩
    · cases h
  · rintro ⟨rfl, hrest⟩
    cases rest with
    | nil => cases hrest
    | cons d rest =>
      cases Option.some.inj hrest
      rfl

/-! ### One token after the other -/

/-- Digits are a number. -/
theorem scanFrom_digit {c : Char} (h : c.isDigit = true) (column : Nat) (rest : List Char) :
    scanFrom column (c :: rest) =
      ⟨column, .number (Capped.ofNat (Nat.ofDigitChars 10 (c :: rest.takeWhile Char.isDigit) 0))⟩ ::
        scanFrom (column + (c :: rest.takeWhile Char.isDigit).length)
          (rest.dropWhile Char.isDigit) := by
  obtain ⟨hblank, hmark, hslash⟩ := plain_of_isDigit h
  have hcomment : opensComment (c :: rest) = false := by
    rw [← Bool.not_eq_true, opensComment_cons]
    exact fun hcomment => hslash hcomment.1
  rw [scanFrom, if_neg (by simp [hblank]), if_neg (by simp [hcomment])]
  split
  · next heq =>
    rw [hmark] at heq
    cases heq
  · rw [if_pos h]

/-- What starts like a word is read as one. -/
theorem scanFrom_word {c : Char} {rest : List Char} (hblank : isBlank c = false)
    (hcomment : opensComment (c :: rest) = false) (hmark : Mark.ofChar? c = none)
    (hdigit : c.isDigit = false) (column : Nat) :
    scanFrom column (c :: rest) =
      wordAt column (readWord (c :: rest)).1 ++
        scanFrom (column + ((c :: rest).length - (readWord (c :: rest)).2.length))
          (readWord (c :: rest)).2 := by
  rw [scanFrom, if_neg (by simp [hblank]), if_neg (by simp [hcomment])]
  split
  · next heq =>
    rw [hmark] at heq
    cases heq
  · rw [if_neg (by simp [hdigit])]

/-- The tokens of a line, without their columns. -/
def tokens (cs : List Char) : List Token := (scan cs).map Placed.token

/-- The tokens do not depend on the column that the line starts at. -/
theorem map_token_scanFrom (column : Nat) (cs : List Char) :
    (scanFrom column cs).map Placed.token = tokens cs := by
  suffices h : ∀ column', (scanFrom column cs).map Placed.token =
      (scanFrom column' cs).map Placed.token from h 0
  have hword (column column' : Nat) (cs : List Char) :
      (wordAt column cs).map Placed.token = (wordAt column' cs).map Placed.token := by
    unfold wordAt
    split <;> rfl
  fun_induction scanFrom column cs with
  | case1 column => simp
  | case2 column c rest hblank ih =>
    intro column'
    rw [scanFrom_blank hblank, ih]
  | case3 column c rest hblank hcomment =>
    intro column'
    rw [scanFrom, if_neg hblank, if_pos hcomment]
  | case4 column c rest hblank hcomment m hm ih =>
    intro column'
    obtain rfl := Mark.ofChar?_eq_some_iff.mp hm
    rw [scanFrom_mark, List.map_cons, List.map_cons, ih]
  | case5 column c rest hblank hcomment hm hdigit digits ih =>
    intro column'
    rw [scanFrom_digit hdigit, List.map_cons, List.map_cons, ih]
  | case6 column c rest hblank hcomment hm hdigit ih =>
    intro column'
    rw [scanFrom_word (by simpa using hblank) (by simpa using hcomment) hm (by simpa using hdigit),
      List.map_append, List.map_append, ih, hword]

@[simp] theorem tokens_nil : tokens [] = [] := by simp [tokens, scan]

/-- Blanks between tokens are skipped. -/
theorem tokens_blank {c : Char} (h : isBlank c = true) (rest : List Char) :
    tokens (c :: rest) = tokens rest := by
  rw [tokens, scan, scanFrom_blank h, map_token_scanFrom]

@[simp] theorem tokens_space (rest : List Char) : tokens (' ' :: rest) = tokens rest :=
  tokens_blank (by decide) rest

theorem tokens_mark (m : Mark) (rest : List Char) :
    tokens (m.char :: rest) = .mark m :: tokens rest := by
  rw [tokens, scan, scanFrom_mark, List.map_cons, map_token_scanFrom]

/-- A number in decimal in front of something else is this number, capped. -/
theorem tokens_toDigits (n : Nat) {rest : List Char}
    (hrest : ∀ c ∈ rest.head?, c.isDigit = false) :
    tokens (Nat.toDigits 10 n ++ rest) = .number (Capped.ofNat n) :: tokens rest := by
  have hdigits : ∀ c ∈ Nat.toDigits 10 n, c.isDigit = true := fun c hc =>
    Nat.isDigit_of_mem_toDigits (by decide) (by decide) hc
  have hvalue : Nat.ofDigitChars 10 (Nat.toDigits 10 n) 0 = n :=
    Nat.ofDigitChars_toDigits (by decide) (by decide)
  cases hcs : Nat.toDigits 10 n with
  | nil => exact absurd hcs Nat.toDigits_ne_nil
  | cons d ds =>
    rw [hcs] at hdigits hvalue
    have htail : ∀ c ∈ ds, c.isDigit = true := fun c hc =>
      hdigits c (List.mem_cons_of_mem d hc)
    -- what follows the digits starts with no digit
    have htake : rest.takeWhile Char.isDigit = [] := by
      cases rest with
      | nil => rfl
      | cons c rest => rw [List.takeWhile_cons_of_neg (by simp [hrest c rfl])]
    have hdrop : rest.dropWhile Char.isDigit = rest := by
      cases rest with
      | nil => rfl
      | cons c rest => rw [List.dropWhile_cons_of_neg (by simp [hrest c rfl])]
    rw [List.cons_append, tokens, scan, scanFrom_digit (hdigits d List.mem_cons_self),
      List.map_cons, map_token_scanFrom, List.takeWhile_append_of_pos htail,
      List.dropWhile_append_of_pos htail, htake, hdrop, List.append_nil, hvalue]

/-! ### The characters of a word -/

/-- A backslash takes the next character into the word. -/
theorem readWord_escaped {e : Char} {more : List Char}
    (h : e = '/' → more.head? ≠ some '/') :
    readWord ('\\' :: e :: more) = (e :: (readWord more).1, (readWord more).2) := by
  rw [readWord, if_pos rfl, if_neg fun hslash => h hslash.1 hslash.2]
  rfl

/-- A character that needs no backslash is part of the word. -/
theorem readWord_char {c : Char} {rest : List Char} (hreserved : isReserved c = false)
    (hcomment : opensComment (c :: rest) = false) :
    readWord (c :: rest) = (c :: (readWord rest).1, (readWord rest).2) := by
  have hne : c ≠ '\\' := by
    rintro rfl
    cases hreserved
  rw [readWord.eq_def]
  simp only [if_neg hne, hreserved, hcomment, Bool.or_false, Bool.false_eq_true, if_false]
  rfl

/-- A mark ends a word. -/
theorem readWord_mark (m : Mark) (rest : List Char) :
    readWord (m.char :: rest) = ([], m.char :: rest) := by
  have hne : m.char ≠ '\\' := by cases m <;> decide
  rw [readWord.eq_def]
  simp only [if_neg hne, isReserved, Mark.ofChar?_char, Option.isSome_some, Bool.true_or, if_true]

/-- Whether a word ends here: at a mark, after blanks or not, or at the end of the line. -/
def endsWord : List Char → Bool
  | [] => true
  | c :: rest => (Mark.ofChar? c).isSome || (isBlank c && endsWord rest)

@[simp] theorem endsWord_mark (m : Mark) (rest : List Char) : endsWord (m.char :: rest) = true := by
  rw [endsWord, Mark.ofChar?_char, Option.isSome_some, Bool.true_or]

/-- No slash follows where a word ends. -/
theorem head?_ne_slash_of_endsWord {rest : List Char} (h : endsWord rest = true) :
    rest.head? ≠ some '/' := by
  cases rest with
  | nil => nofun
  | cons c rest =>
    rintro ⟨⟩
    exact absurd h (by simp [endsWord, not_isBlank_slash, Mark.ofChar?])

/-- Where a word ends, only blanks are still read as part of it. -/
theorem readWord_of_endsWord {rest : List Char} (h : endsWord rest = true) :
    (∀ c ∈ (readWord rest).1, isBlank c = true) ∧ tokens (readWord rest).2 = tokens rest := by
  induction rest with
  | nil => exact ⟨nofun, rfl⟩
  | cons c rest ih =>
    rw [endsWord, Bool.or_eq_true, Bool.and_eq_true] at h
    rcases h with hmark | ⟨hblank, hrest⟩
    · obtain ⟨m, hm⟩ := Option.isSome_iff_exists.mp hmark
      obtain rfl := Mark.ofChar?_eq_some_iff.mp hm
      rw [readWord_mark]
      exact ⟨nofun, rfl⟩
    · have hreserved := not_isReserved_of_isBlank hblank
      have hcomment : opensComment (c :: rest) = false := by
        rw [← Bool.not_eq_true, opensComment_cons]
        rintro ⟨rfl, -⟩
        exact absurd hblank (by decide)
      obtain ⟨hblanks, htokens⟩ := ih hrest
      rw [readWord_char hreserved hcomment, tokens_blank hblank]
      exact ⟨List.forall_mem_cons.mpr ⟨hblank, hblanks⟩, htokens⟩

/-! ### Escaped names -/

/-- Escaping adds backslashes only. -/
theorem mem_of_mem_escapeAfter {previous : Option Char} {cs : List Char} {c : Char}
    (h : c ∈ escapeAfter previous cs) : c = '\\' ∨ c ∈ cs := by
  induction cs generalizing previous with
  | nil => cases h
  | cons d cs ih =>
    have hrest (h : c ∈ d :: escapeAfter (some d) cs) : c = '\\' ∨ c ∈ d :: cs := by
      rcases List.mem_cons.mp h with rfl | h
      · exact .inr List.mem_cons_self
      · exact (ih h).imp_right (List.mem_cons_of_mem d)
    rw [escapeAfter] at h
    split at h
    · rcases List.mem_cons.mp h with rfl | h
      · exact .inl rfl
      · exact hrest h
    · exact hrest h

/-- After a slash of a name, what is escaped starts with no slash. -/
theorem head?_escapeAfter_slash {cs rest : List Char} (hrest : rest.head? ≠ some '/') :
    (escapeAfter (some '/') cs ++ rest).head? ≠ some '/' := by
  cases cs with
  | nil => exact hrest
  | cons c cs =>
    rw [escapeAfter]
    split
    · nofun
    · next hplain =>
      rintro ⟨⟩
      exact hplain rfl

/-- No comment starts in an escaped name. -/
theorem not_opensComment_escapeAfter {previous : Option Char} {cs rest : List Char}
    (hrest : rest.head? ≠ some '/') : opensComment (escapeAfter previous cs ++ rest) = false := by
  rw [← Bool.not_eq_true]
  intro hcomment
  cases cs with
  | nil =>
    cases rest with
    | nil => cases hcomment
    | cons c rest =>
      obtain ⟨rfl, -⟩ := (opensComment_cons _ _).mp hcomment
      exact hrest rfl
  | cons c cs =>
    rw [escapeAfter] at hcomment
    split at hcomment
    · obtain ⟨h, -⟩ := (opensComment_cons _ _).mp hcomment
      cases h
    · obtain ⟨rfl, hslash⟩ := (opensComment_cons _ _).mp hcomment
      exact head?_escapeAfter_slash hrest hslash

/-- The characters of an escaped name are read as those of the name. -/
theorem readWord_escapeAfter {previous : Option Char} {cs rest : List Char}
    (hrest : rest.head? ≠ some '/') :
    readWord (escapeAfter previous cs ++ rest) = (cs ++ (readWord rest).1, (readWord rest).2) := by
  induction cs generalizing previous with
  | nil => rfl
  | cons c cs ih =>
    have hcomment := @not_opensComment_escapeAfter previous (c :: cs) rest hrest
    rw [escapeAfter] at hcomment ⊢
    split
    · rw [List.cons_append, List.cons_append, readWord_escaped, ih]
      · rfl
      · rintro rfl
        exact head?_escapeAfter_slash hrest
    · next hplain =>
      rw [if_neg hplain] at hcomment
      have hreserved : isReserved c = false := by
        rw [needsEscape, Bool.or_eq_true, Bool.or_eq_true, not_or, not_or] at hplain
        simpa using hplain.1.1
      rw [List.cons_append] at hcomment ⊢
      rw [readWord_char hreserved hcomment, ih]
      rfl

/-- A name that can be a word: it is not empty and neither starts nor ends with a blank. -/
structure Readable (name : List Char) : Prop where
  ne_nil : name ≠ []
  head : ∀ c ∈ name.head?, isBlank c = false
  last : ∀ c ∈ name.getLast?, isBlank c = false

instance (name : List Char) : Decidable (Readable name) :=
  decidable_of_iff (name ≠ [] ∧ name.head?.all (!isBlank ·) ∧ name.getLast?.all (!isBlank ·)) <| by
    simp only [Option.all_eq_true, Bool.not_eq_eq_eq_not, Bool.not_true]
    exact ⟨fun h => ⟨h.1, h.2.1, h.2.2⟩, fun h => ⟨h.ne_nil, h.head, h.last⟩⟩

/-- Blanks after a readable name are dropped. -/
theorem Readable.dropBlankEnd_append {name blanks : List Char} (h : Readable name)
    (hblanks : ∀ c ∈ blanks, isBlank c = true) : dropBlankEnd (name ++ blanks) = name := by
  induction blanks using List.reverseRec with
  | nil =>
    obtain ⟨cs, c, rfl⟩ := (List.eq_nil_or_concat name).resolve_left h.ne_nil
    rw [List.append_nil, List.concat_eq_append]
    exact dropBlankEnd_append_singleton (h.last c (by simp))
  | append_singleton blanks c ih =>
    rw [← List.append_assoc, dropBlankEnd_append_blank (hblanks c (by simp))]
    exact ih fun d hd => hblanks d (List.mem_append_left _ hd)

/-- An escaped name where a word ends is one word, the name, and starts where the name does. -/
theorem scanFrom_escape {name rest : List Char} (hname : Readable name)
    (hrest : endsWord rest = true) (column : Nat) :
    scanFrom column (escape name ++ rest) =
      ⟨column, .word (String.ofList name)⟩ ::
        scanFrom (column + ((escape name ++ rest).length - (readWord rest).2.length))
          (readWord rest).2 := by
  have hslash := head?_ne_slash_of_endsWord hrest
  have hread : readWord (escape name ++ rest) = (name ++ (readWord rest).1, (readWord rest).2) :=
    readWord_escapeAfter hslash
  have hcomment : opensComment (escape name ++ rest) = false :=
    not_opensComment_escapeAfter hslash
  -- what stands first starts a word: a backslash, or a character that needs none
  obtain ⟨c, cs, hcs, hblank, hmark, hdigit⟩ : ∃ c cs, escape name ++ rest = c :: cs ∧
      isBlank c = false ∧ Mark.ofChar? c = none ∧ c.isDigit = false := by
    cases name with
    | nil => exact absurd rfl hname.ne_nil
    | cons c cs =>
      rw [escape, escapeAfter]
      split
      · exact ⟨_, _, rfl, not_isBlank_backslash, rfl, by decide⟩
      · next hplain =>
        have hneeds : Mark.ofChar? c = none ∧ ¬c = '\\' ∧ c.isDigit = false := by
          simpa [needsEscape, isReserved, and_assoc] using hplain
        exact ⟨_, _, rfl, hname.head c rfl, hneeds.1, hneeds.2.2⟩
  rw [hcs] at hread hcomment ⊢
  rw [scanFrom_word hblank hcomment hmark hdigit, hread, wordAt,
    hname.dropBlankEnd_append (readWord_of_endsWord hrest).1]
  cases name with
  | nil => exact absurd rfl hname.ne_nil
  | cons => rfl

/-- An escaped name where a word ends is one word, the name. -/
theorem tokens_escape {name rest : List Char} (hname : Readable name)
    (hrest : endsWord rest = true) :
    tokens (escape name ++ rest) = .word (String.ofList name) :: tokens rest := by
  rw [tokens, scan, scanFrom_escape hname hrest, List.map_cons, map_token_scanFrom,
    (readWord_of_endsWord hrest).2]

/-! ### The words of a line -/

/-- The characters of a word and what follows it are characters of the line. -/
theorem mem_of_mem_readWord {cs : List Char} {c : Char}
    (h : c ∈ (readWord cs).1 ∨ c ∈ (readWord cs).2) : c ∈ cs := by
  have hcons {d : Char} {rest : List Char} {split : List Char × List Char}
      (ih : c ∈ split.1 ∨ c ∈ split.2 → c ∈ rest) (h : c ∈ d :: split.1 ∨ c ∈ split.2) :
      c ∈ d :: rest := by
    rw [List.mem_cons, or_assoc] at h
    exact List.mem_cons.mpr (h.imp_right ih)
  fun_induction readWord cs with
  | case1 | case2 | case3 => simp at h
  | case4 e more hslash ih => exact List.mem_cons_of_mem _ (hcons ih h)
  | case5 c rest hescape hend => exact h.resolve_left List.not_mem_nil
  | case6 c rest hescape hplain ih => exact hcons ih h

/-- A word is not empty, does not end in a blank, and has only the characters it is made of. -/
theorem word_of_mem_wordAt {column : Nat} {cs : List Char} {w : String}
    (h : .word w ∈ (wordAt column cs).map Placed.token) :
    w.toList ≠ [] ∧ (∀ c ∈ w.toList.getLast?, isBlank c = false) ∧ ∀ c ∈ w.toList, c ∈ cs := by
  unfold wordAt at h
  split at h
  · cases h
  · next hne =>
    obtain rfl : w = String.ofList (dropBlankEnd cs) := by simpa using h
    rw [String.toList_ofList]
    exact ⟨hne, fun c hc => not_isBlank_getLast? hc, fun c hc => mem_of_mem_dropBlankEnd hc⟩

/-- A word of a line is not empty, does not end in a blank, and has only characters of the line. -/
theorem word_of_mem_tokens {cs : List Char} {w : String} (h : .word w ∈ tokens cs) :
    w.toList ≠ [] ∧ (∀ c ∈ w.toList.getLast?, isBlank c = false) ∧ ∀ c ∈ w.toList, c ∈ cs := by
  rw [tokens, scan] at h
  generalize 0 = column at h
  fun_induction scanFrom column cs with
  | case1 | case3 => cases h
  | case2 column c rest hblank ih =>
    obtain ⟨hne, hlast, hmem⟩ := ih h
    exact ⟨hne, hlast, fun d hd => List.mem_cons_of_mem c (hmem d hd)⟩
  | case4 column c rest hblank hcomment m hm ih =>
    rw [List.map_cons, List.mem_cons] at h
    obtain ⟨hne, hlast, hmem⟩ := ih (h.resolve_left nofun)
    exact ⟨hne, hlast, fun d hd => List.mem_cons_of_mem c (hmem d hd)⟩
  | case5 column c rest hblank hcomment hm hdigit digits ih =>
    rw [List.map_cons, List.mem_cons] at h
    obtain ⟨hne, hlast, hmem⟩ := ih (h.resolve_left nofun)
    refine ⟨hne, hlast, fun d hd => List.mem_cons_of_mem c ?_⟩
    exact (List.dropWhile_sublist Char.isDigit).mem (hmem d hd)
  | case6 column c rest hblank hcomment hm hdigit ih =>
    rw [List.map_append, List.mem_append] at h
    rcases h with h | h
    · obtain ⟨hne, hlast, hmem⟩ := word_of_mem_wordAt h
      exact ⟨hne, hlast, fun d hd => mem_of_mem_readWord (.inl (hmem d hd))⟩
    · obtain ⟨hne, hlast, hmem⟩ := ih h
      exact ⟨hne, hlast, fun d hd => mem_of_mem_readWord (.inr (hmem d hd))⟩

end Reachability.Token
