/-!
# Text — lines

A line feed ends a line, a carriage return right before it belongs to the ending, and the text
after the last line feed is a line only if it is not empty.
-/

namespace Reachability.Text

/-- The lines of a text, without their endings. -/
def lines : List Char → List (List Char)
  | [] => []
  | '\n' :: rest => [] :: lines rest
  | '\r' :: '\n' :: rest => [] :: lines rest
  | c :: rest =>
    match lines rest with
    | [] => [[c]]
    | line :: more => (c :: line) :: more

@[simp] theorem lines_nil : lines [] = [] := by simp [lines]

@[simp] theorem lines_lf (rest : List Char) : lines ('\n' :: rest) = [] :: lines rest := by
  simp [lines]

@[simp] theorem lines_crlf (rest : List Char) :
    lines ('\r' :: '\n' :: rest) = [] :: lines rest := by simp [lines]

/-- A character that ends no line stands at the front of the first line. -/
theorem lines_cons {c : Char} {rest : List Char} (hc : c ≠ '\n')
    (hreturn : c = '\r' → rest.head? ≠ some '\n') :
    lines (c :: rest) =
      (c :: (lines rest).headD []) :: (lines rest).tail := by
  rw [lines.eq_def]
  split
  · next heq => cases heq
  · next heq => cases heq; exact absurd rfl hc
  · next heq => cases heq; exact absurd rfl (hreturn rfl)
  · next heq =>
    cases heq
    split
    · next hnil => simp [hnil]
    · next hcons => simp [hcons]

/-- A text without a line feed is one line. -/
theorem lines_of_not_mem {cs : List Char} (hne : cs ≠ []) (h : '\n' ∉ cs) : lines cs = [cs] := by
  induction cs with
  | nil => exact absurd rfl hne
  | cons c rest ih =>
    rw [List.mem_cons, not_or] at h
    obtain ⟨hc, hrest⟩ := h
    have hhead : rest.head? ≠ some '\n' := fun hhead => hrest (List.mem_of_head? hhead)
    rw [lines_cons (Ne.symm hc) fun _ => hhead]
    cases rest with
    | nil => rw [lines_nil]; rfl
    | cons d rest => rw [ih (List.cons_ne_nil d rest) hrest]; rfl

/-- A text without a line feed that ends in no carriage return is the first line in front of a
line feed. -/
theorem lines_append_lf {cs : List Char} (h : '\n' ∉ cs) (hlast : cs.getLast? ≠ some '\r')
    (rest : List Char) : lines (cs ++ '\n' :: rest) = cs :: lines rest := by
  induction cs with
  | nil => exact lines_lf rest
  | cons c cs ih =>
    rw [List.mem_cons, not_or] at h
    obtain ⟨hc, hcs⟩ := h
    cases cs with
    | nil =>
      rw [List.singleton_append, lines_cons (Ne.symm hc), lines_lf]
      · rfl
      · rintro rfl
        exact absurd rfl hlast
    | cons d cs =>
      have hlast : (d :: cs).getLast? ≠ some '\r' := by rwa [List.getLast?_cons_cons] at hlast
      rw [List.cons_append, lines_cons (Ne.symm hc), ih hcs hlast]
      · rfl
      · rintro _ ⟨⟩
        exact hcs List.mem_cons_self

/-- No line has a line feed in it. -/
theorem not_mem_of_mem_lines {cs line : List Char} (h : line ∈ lines cs) : '\n' ∉ line := by
  fun_induction lines cs generalizing line with
  | case1 => cases h
  | case2 rest ih | case3 rest ih =>
    rcases List.mem_cons.mp h with rfl | h
    · exact List.not_mem_nil
    · exact ih h
  | case4 c rest hlf hcrlf hnil ih =>
    obtain rfl := List.mem_singleton.mp h
    rw [List.mem_singleton]
    exact fun heq => hlf heq.symm
  | case5 c rest hlf hcrlf first more hlines ih =>
    rw [hlines] at ih
    rcases List.mem_cons.mp h with rfl | h
    · rw [List.mem_cons, not_or]
      exact ⟨fun heq => hlf heq.symm, ih List.mem_cons_self⟩
    · exact ih (List.mem_cons_of_mem first h)

end Reachability.Text
