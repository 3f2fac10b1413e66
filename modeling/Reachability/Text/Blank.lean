import Reachability.Text.Ranges

/-!
# Text — blanks

The characters with the Unicode property White_Space, and a text without the blanks at its end.
-/

namespace Reachability.Text

/-- The ranges of White_Space. -/
def blankRanges : List (Nat × Nat) :=
  [(0x9, 0xD), (0x20, 0x20), (0x85, 0x85), (0xA0, 0xA0), (0x1680, 0x1680), (0x2000, 0x200A),
   (0x2028, 0x2029), (0x202F, 0x202F), (0x205F, 0x205F), (0x3000, 0x3000)]

/-- Whether `c` is a blank. -/
def isBlank (c : Char) : Bool := inRanges blankRanges c

/-- `cs` without the blanks at its end. -/
def dropBlankEnd (cs : List Char) : List Char := (cs.reverse.dropWhile isBlank).reverse

/-- A text that ends in no blank is left as it is. -/
theorem dropBlankEnd_append_singleton {cs : List Char} {c : Char} (h : isBlank c = false) :
    dropBlankEnd (cs ++ [c]) = cs ++ [c] := by
  simp [dropBlankEnd, h]

/-- A blank at the end is dropped. -/
theorem dropBlankEnd_append_blank {cs : List Char} {c : Char} (h : isBlank c = true) :
    dropBlankEnd (cs ++ [c]) = dropBlankEnd cs := by
  simp [dropBlankEnd, h]

/-- Dropping blanks adds nothing. -/
theorem mem_of_mem_dropBlankEnd {cs : List Char} {c : Char} (h : c ∈ dropBlankEnd cs) : c ∈ cs := by
  rw [dropBlankEnd, List.mem_reverse] at h
  exact List.mem_reverse.mp ((List.dropWhile_sublist isBlank).mem h)

/-- No blank is left at the end. -/
theorem not_isBlank_getLast? {cs : List Char} {c : Char}
    (h : (dropBlankEnd cs).getLast? = some c) : isBlank c = false := by
  have hhead := List.head?_dropWhile_not isBlank cs.reverse
  rw [dropBlankEnd, List.getLast?_reverse] at h
  rw [h] at hhead
  exact hhead

end Reachability.Text
