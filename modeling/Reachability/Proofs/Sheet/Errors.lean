import Mathlib
import Reachability.Proofs.Sheet.Faults

/-!
# Sheet — where a sheet fails

Both sheets are read line by line, each line on top of the sheet of the lines above it
(`Sheet.readLines`).  So the first line that cannot be read is the line of the error, and what
stands below it is never looked at (`Sheet.FailsAt`).
-/

namespace Reachability

open Sheet

namespace Text

/-! ### The top of a text -/

/-- The characters up to the `n`-th line feed, or all of them if there are fewer. -/
def upToFeed : Nat → List Char → List Char
  | 0, _ => []
  | _ + 1, [] => []
  | n + 1, c :: rest => c :: upToFeed (if c = '\n' then n else n + 1) rest

/-- The first `n` lines of a text, with what ends them. -/
def firstLines (n : Nat) (text : String) : String := String.ofList (upToFeed n text.toList)

@[simp] theorem upToFeed_zero (cs : List Char) : upToFeed 0 cs = [] := by cases cs <;> rfl

@[simp] theorem upToFeed_nil (n : Nat) : upToFeed n [] = [] := by cases n <;> rfl

@[simp] theorem upToFeed_lf (n : Nat) (rest : List Char) :
    upToFeed (n + 1) ('\n' :: rest) = '\n' :: upToFeed n rest := rfl

theorem upToFeed_cons {c : Char} (hc : c ≠ '\n') (n : Nat) (rest : List Char) :
    upToFeed (n + 1) (c :: rest) = c :: upToFeed (n + 1) rest := by
  rw [upToFeed, if_neg hc]

/-- The lines up to a line feed are the first ones. -/
theorem lines_upToFeed (n : Nat) (cs : List Char) : lines (upToFeed n cs) = (lines cs).take n := by
  induction cs using lines.induct generalizing n with
  | case1 => rw [upToFeed_nil, lines_nil, List.take_nil]
  | case2 rest ih =>
    cases n with
    | zero => simp
    | succ n => rw [upToFeed_lf, lines_lf, lines_lf, ih, List.take_succ_cons]
  | case3 rest ih =>
    cases n with
    | zero => simp
    | succ n =>
      rw [upToFeed_cons (by decide), upToFeed_lf, lines_crlf, lines_crlf, ih, List.take_succ_cons]
  | case4 c rest hlf hcrlf _ ih | case5 c rest hlf hcrlf _ _ _ ih =>
    cases n with
    | zero => simp
    | succ n =>
      have hreturn : c = '\r' → rest.head? ≠ some '\n' := fun hc hhead => by
        obtain ⟨tail, rfl⟩ := List.head?_eq_some_iff.mp hhead
        exact hcrlf tail hc rfl
      have hhead : (upToFeed (n + 1) rest).head? = rest.head? := by cases rest <;> rfl
      rw [upToFeed_cons hlf, lines_cons hlf (by rwa [hhead]), lines_cons hlf hreturn, ih]
      cases lines rest <;> simp

theorem lines_firstLines (n : Nat) (text : String) :
    lines (firstLines n text).toList = (lines text.toList).take n := by
  rw [firstLines, String.toList_ofList, lines_upToFeed]

end Text

namespace Sheet

/-! ### Line by line -/

section
variable {σ : Type} {kind : SheetKind} {addLine : σ → Nat → List Char → Except Fault σ}

/-- Adds lines one after the other, the first of which has the number `line`. -/
def readLines (kind : SheetKind) (addLine : σ → Nat → List Char → Except Fault σ) (sheet : σ)
    (line : Nat) : List (List Char) → Except SheetError σ
  | [] => .ok sheet
  | cs :: rest =>
    match addLine sheet line cs with
    | .ok sheet => readLines kind addLine sheet (line + 1) rest
    | .error fault => .error ⟨kind, line, fault⟩

/-- Whatever adds a line and then the others reads line by line. -/
theorem eq_readLines {run : σ → Nat → List (List Char) → Except SheetError σ}
    (hnil : ∀ sheet line, run sheet line [] = .ok sheet)
    (hcons : ∀ sheet line cs rest, run sheet line (cs :: rest) =
      match addLine sheet line cs with
      | .ok sheet => run sheet (line + 1) rest
      | .error fault => .error ⟨kind, line, fault⟩)
    (sheet : σ) (line : Nat) (lines : List (List Char)) :
    run sheet line lines = readLines kind addLine sheet line lines := by
  induction lines generalizing sheet line with
  | nil => exact hnil sheet line
  | cons cs rest ih =>
    rw [hcons, readLines]
    cases addLine sheet line cs with
    | ok next => exact ih next (line + 1)
    | error fault => rfl

theorem readLines_append (sheet : σ) (line : Nat) (before after : List (List Char)) :
    readLines kind addLine sheet line (before ++ after) =
      readLines kind addLine sheet line before >>= fun mid =>
        readLines kind addLine mid (line + before.length) after := by
  induction before generalizing sheet line with
  | nil => rfl
  | cons cs rest ih =>
    rw [List.cons_append, readLines, readLines]
    cases addLine sheet line cs with
    | ok next =>
      dsimp only
      rw [ih, List.length_cons, Nat.add_assoc, Nat.add_comm 1]
    | error fault => rfl

/-- Reading fails at the first line that cannot be added, for the fault of that line. -/
theorem readLines_eq_error_iff {sheet : σ} {line : Nat} {lines : List (List Char)}
    {e : SheetError} :
    readLines kind addLine sheet line lines = .error e ↔
      ∃ before cs after mid fault, lines = before ++ cs :: after ∧
        readLines kind addLine sheet line before = .ok mid ∧
        addLine mid (line + before.length) cs = .error fault ∧
        e = ⟨kind, line + before.length, fault⟩ := by
  constructor
  · intro h
    induction lines generalizing sheet line with
    | nil => cases h
    | cons cs rest ih =>
      rw [readLines] at h
      split at h
      · next next hnext =>
        obtain ⟨before, cs', after, mid, fault, rfl, hbefore, hfault, rfl⟩ := ih h
        have hline : line + 1 + before.length = line + (cs :: before).length := by
          rw [List.length_cons, Nat.add_assoc, Nat.add_comm 1]
        rw [hline] at hfault ⊢
        refine ⟨cs :: before, cs', after, mid, fault, rfl, ?_, hfault, rfl⟩
        rw [readLines, hnext]
        exact hbefore
      · next fault hfault =>
        cases h
        exact ⟨[], cs, rest, sheet, fault, rfl, rfl, hfault, rfl⟩
  · rintro ⟨before, cs, after, mid, fault, rfl, hbefore, hfault, rfl⟩
    rw [readLines_append, hbefore]
    change readLines kind addLine mid (line + before.length) (cs :: after) = _
    rw [readLines, hfault]

end

/-! ### The place of an error -/

/-- How `parse` fails on a text with the error `e`. -/
structure FailsAt {σ : Type} (parse : String → Except SheetError σ) (text : String)
    (e : SheetError) : Prop where
  /-- The line of the error is one of the text. -/
  one_le_line : 1 ≤ e.line
  line_le : e.line ≤ (Text.lines text.toList).length
  /-- The lines above it are a sheet. -/
  above : ∃ sheet, parse (Text.firstLines (e.line - 1) text) = .ok sheet
  /-- With it they are none, whatever stands below. -/
  through : parse (Text.firstLines e.line text) = .error e
  below : ∀ other, Text.firstLines e.line other = Text.firstLines e.line text →
    parse other = .error e
  /-- The column of the error is one of that line, or its end. -/
  column : ∀ cs, (Text.lines text.toList)[e.line - 1]? = some cs → e.fault.InLine cs

/-- A sheet that is read line by line, with faults that lie within the line, fails at a line. -/
theorem failsAt_of_readLines {σ : Type} {kind : SheetKind}
    {addLine : σ → Nat → List Char → Except Fault σ} {start : σ}
    {parse : String → Except SheetError σ}
    (hparse : ∀ text, parse text = readLines kind addLine start 1 (Text.lines text.toList))
    (hadd : ∀ sheet line cs, (addLine sheet line cs).FailsOnly (Fault.InLine cs))
    {text : String} {e : SheetError} (h : parse text = .error e) : FailsAt parse text e := by
  rw [hparse] at h
  obtain ⟨before, cs, after, mid, fault, hlines, hbefore, hfault, rfl⟩ :=
    readLines_eq_error_iff.mp h
  have hfails (more : List (List Char)) :
      readLines kind addLine start 1 (before ++ cs :: more) =
        .error ⟨kind, 1 + before.length, fault⟩ :=
    readLines_eq_error_iff.mpr ⟨before, cs, more, mid, fault, rfl, hbefore, hfault, rfl⟩
  have htop : (Text.lines text.toList).take (1 + before.length) = before ++ [cs] := by
    rw [hlines, Nat.add_comm, List.take_length_add_append]
    rfl
  refine
    { one_le_line := Nat.le_add_right 1 _
      line_le := ?_
      above := ⟨mid, ?_⟩
      through := ?_
      below := fun other hother => ?_
      column := fun cs' hcs' => ?_ }
  · rw [hlines, List.length_append, List.length_cons]
    dsimp only
    omega
  · rw [hparse, Text.lines_firstLines, Nat.add_sub_cancel_left, hlines, List.take_left, hbefore]
  · rw [hparse, Text.lines_firstLines, htop]
    exact hfails []
  · have hsame := congrArg (fun text => Text.lines text.toList) hother
    rw [Text.lines_firstLines, Text.lines_firstLines, htop] at hsame
    rw [hparse, ← List.take_append_drop (1 + before.length) (Text.lines other.toList), hsame,
      List.append_assoc, List.singleton_append]
    exact hfails _
  · rw [hlines, Nat.add_sub_cancel_left, List.getElem?_append_right (Nat.le_refl _),
      Nat.sub_self] at hcs'
    obtain rfl := Option.some.inj hcs'
    exact hadd mid _ cs fault hfault

end Sheet

/-! ### Both sheets -/

theorem RuleSheet.parse_eq_readLines (text : String) :
    parse text = readLines .rules addLine {} 1 (Text.lines text.toList) := by
  rw [parse]
  refine eq_readLines (fun _ _ => rfl) (fun sheet line cs rest => ?_) _ _ _
  rw [addLines]
  cases sheet.addLine line cs <;> rfl

theorem RewardSheet.parse_eq_readLines (text : String) :
    parse text = readLines .rewards addLine {} 1 (Text.lines text.toList) := by
  rw [parse]
  refine eq_readLines (fun _ _ => rfl) (fun sheet line cs rest => ?_) _ _ _
  rw [addLines]
  cases sheet.addLine line cs <;> rfl

namespace Sheet

/-- A text that is no sheet of rules or no sheet of rewards fails at one of its lines: the lines
above it are such a sheet, and what stands below it does not change the error. -/
theorem failsAt_of_parse (text : String) (e : SheetError) :
    (RuleSheet.parse text = .error e → FailsAt RuleSheet.parse text e) ∧
      (RewardSheet.parse text = .error e → FailsAt RewardSheet.parse text e) := by
  constructor
  · exact failsAt_of_readLines RuleSheet.parse_eq_readLines RuleSheet.addLine_failsOnly
  · exact failsAt_of_readLines RewardSheet.parse_eq_readLines RewardSheet.addLine_failsOnly

/-- A quantity of 5 that stands as `0005` has no end, and the second reward ends in an escape. -/
theorem failsAt_of_parse_chest :
    FailsAt RuleSheet.parse "Key;;\nChest;;Key(0005\nDoor;;Key;\n"
        ⟨.rules, 2, .unexpected 13 none .closing⟩ ∧
      FailsAt RewardSheet.parse "#random\nTorch;Normal;\nChest;Nor\\;mal  "
        ⟨.rewards, 3, .unexpected 14 none .semi⟩ :=
  ⟨(failsAt_of_parse _ _).1 (by cbv), (failsAt_of_parse _ _).2 (by cbv)⟩

end Sheet

end Reachability
