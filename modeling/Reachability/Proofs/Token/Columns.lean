import Mathlib.Algebra.Group.Nat.Defs
import Mathlib.Data.List.TakeWhile
import Reachability.Proofs.Token.Words

/-!
# Token — columns

Every token lies within the line it is read from, and that holds of the token as it reads, too: what
escapes, trailing blanks, leading zeros and overlong numbers take in a line is never less than what
is left of them (`column_le`, `column_add_length_le`).  A name that starts with a blank can
therefore not be written as a word at the start of a line, and with one that ends in a blank and the
empty name it is all that escaping cannot write (`scan_escape_eq_iff`).
-/

namespace Reachability.Token

open Reachability.Text

/-- A word and what follows it are no longer than the line. -/
theorem length_readWord_add_le (cs : List Char) :
    (readWord cs).1.length + (readWord cs).2.length ≤ cs.length := by
  fun_induction readWord cs <;> simp_all <;> omega

/-- A number of some digits is below the power of ten with as many zeros. -/
theorem ofDigitChars_lt {ds : List Char} (h : ∀ c ∈ ds, c.isDigit = true) (n : Nat) :
    Nat.ofDigitChars 10 ds n < (n + 1) * 10 ^ ds.length := by
  induction ds generalizing n with
  | nil => simp
  | cons d ds ih =>
    rw [List.forall_mem_cons] at h
    have hdigit : d.toNat - '0'.toNat ≤ 9 := by
      have hrange : 48 ≤ d.toNat ∧ d.toNat ≤ 57 := toNat_of_isDigit h.1
      have hzero : '0'.toNat = 48 := rfl
      omega
    calc Nat.ofDigitChars 10 (d :: ds) n
        = Nat.ofDigitChars 10 ds (10 * n + (d.toNat - '0'.toNat)) := Nat.ofDigitChars_cons
      _ < (10 * n + (d.toNat - '0'.toNat) + 1) * 10 ^ ds.length := ih h.2 _
      _ ≤ ((n + 1) * 10) * 10 ^ ds.length := Nat.mul_le_mul_right _ (by omega)
      _ = (n + 1) * 10 ^ (ds.length + 1) := by rw [Nat.mul_assoc, Nat.pow_succ']

/-- A number, capped, takes no more digits than it was written with. -/
theorem length_text_number_le {ds : List Char} (h : ∀ c ∈ ds, c.isDigit = true) (hne : ds ≠ []) :
    (number (Capped.ofNat (Nat.ofDigitChars 10 ds 0))).text.length ≤ ds.length := by
  have hlt := ofDigitChars_lt h 0
  rw [text, String.length_ofList,
    Nat.length_toDigits_le_iff (by decide) (List.length_pos_iff.mpr hne), Capped.toNat_ofNat]
  omega

/-- A word, without the blanks at its end, is no longer than its characters. -/
theorem length_text_wordAt_le {column : Nat} {cs : List Char} {t : Placed}
    (h : t ∈ wordAt column cs) : t.column = column ∧ t.token.text.length ≤ cs.length := by
  have hlength : (dropBlankEnd cs).length ≤ cs.length := by
    have := (List.dropWhile_sublist isBlank (l := cs.reverse)).length_le
    rw [dropBlankEnd, List.length_reverse]
    rwa [List.length_reverse] at this
  unfold wordAt at h
  split at h
  · cases h
  · obtain rfl := List.mem_singleton.mp h
    refine ⟨rfl, ?_⟩
    rwa [text, String.length_ofList]

/-- A token, as it reads, ends within the line. -/
theorem column_add_length_le {cs : List Char} {column : Nat} {t : Placed}
    (h : t ∈ scanFrom column cs) : t.column + t.token.text.length ≤ column + cs.length := by
  fun_induction scanFrom column cs with
  | case1 | case3 => cases h
  | case2 column c rest hblank ih =>
    have := ih h
    rw [List.length_cons]
    omega
  | case4 column c rest hblank hcomment m hm ih =>
    rw [List.length_cons]
    rcases List.mem_cons.mp h with rfl | h
    · have hmark : (mark m).text.length = 1 := by cases m <;> rfl
      dsimp only
      omega
    · have := ih h
      omega
  | case5 column c rest hblank hcomment hm hdigit digits ih =>
    have hsplit : rest.takeWhile Char.isDigit ++ rest.dropWhile Char.isDigit = rest :=
      List.takeWhile_append_dropWhile
    replace hsplit := congrArg List.length hsplit
    have hlength : digits.length = (rest.takeWhile Char.isDigit).length + 1 := rfl
    rw [List.length_append] at hsplit
    rw [List.length_cons]
    rcases List.mem_cons.mp h with rfl | h
    · have hdigits : ∀ d ∈ digits, d.isDigit = true :=
        List.forall_mem_cons.mpr ⟨hdigit, fun d hd => List.mem_takeWhile_imp hd⟩
      have := length_text_number_le hdigits (List.cons_ne_nil _ _)
      dsimp only
      omega
    · have := ih h
      omega
  | case6 column c rest hblank hcomment hm hdigit ih =>
    have hword := length_readWord_add_le (c :: rest)
    rcases List.mem_append.mp h with h | h
    · obtain ⟨hcolumn, hlength⟩ := length_text_wordAt_le h
      omega
    · have := ih h
      omega

/-- A token starts no sooner than the line. -/
theorem column_le {cs : List Char} {column : Nat} {t : Placed} (h : t ∈ scanFrom column cs) :
    column ≤ t.column := by
  fun_induction scanFrom column cs with
  | case1 | case3 => cases h
  | case2 column c rest hblank ih => exact (Nat.le_succ column).trans (ih h)
  | case4 column c rest hblank hcomment m hm ih =>
    rcases List.mem_cons.mp h with rfl | h
    · exact Nat.le_refl column
    · exact (Nat.le_succ column).trans (ih h)
  | case5 column c rest hblank hcomment hm hdigit digits ih =>
    rcases List.mem_cons.mp h with rfl | h
    · exact Nat.le_refl column
    · exact (Nat.le_add_right column _).trans (ih h)
  | case6 column c rest hblank hcomment hm hdigit ih =>
    rcases List.mem_append.mp h with h | h
    · exact (length_text_wordAt_le h).1.ge
    · exact (Nat.le_add_right column _).trans (ih h)

/-- What starts with a blank has no token in the first column, escaped or not: a blank is never
written with a backslash. -/
theorem column_ne_zero_of_isBlank {c : Char} {cs : List Char} {t : Placed}
    (hblank : isBlank c = true) (h : t ∈ scan (escape (c :: cs))) : t.column ≠ 0 := by
  have hplain : needsEscape none c = false := by
    have hdigit : c.isDigit = false := by
      rw [← Bool.not_eq_true]
      intro hdigit
      rw [(plain_of_isDigit hdigit).1] at hblank
      cases hblank
    simp [needsEscape, not_isReserved_of_isBlank hblank, hdigit]
  rw [escape, escapeAfter, hplain, if_neg Bool.false_ne_true, scan, scanFrom_blank hblank] at h
  exact Nat.ne_of_gt (column_le h)

/-- An escaped name is read as one word in the first column, the name itself, exactly if the name
is not empty and neither starts nor ends with a blank. -/
theorem scan_escape_eq_iff (name : String) :
    scan (escape name.toList) = [⟨0, .word name⟩] ↔ Readable name.toList := by
  constructor
  · intro h
    have hword : .word name ∈ tokens (escape name.toList) := by simp [tokens, h]
    obtain ⟨hne, hlast, -⟩ := word_of_mem_tokens hword
    refine ⟨hne, fun c hc => ?_, hlast⟩
    obtain ⟨cs, hcs⟩ := List.head?_eq_some_iff.mp hc
    rw [hcs] at h
    rw [← Bool.not_eq_true]
    intro hblank
    exact column_ne_zero_of_isBlank hblank (h ▸ List.mem_singleton_self _) rfl
  · intro hname
    have h := @scanFrom_escape name.toList [] hname rfl 0
    rw [List.append_nil] at h
    rw [scan, h, readWord, scanFrom_nil, String.ofList_toList]

end Reachability.Token
