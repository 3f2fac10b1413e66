import Mathlib
import Reachability.Proofs.Sheet.Rules
import Reachability.Proofs.Sheet.Written

/-!
# Sheet — a sheet written again

The rules of a sheet, written one per line, are read as the same rules (`RuleSheet.parse_textOf`),
if no name starts with a blank and no function name needs a backslash.  Nothing else can go wrong:
what is read from a line is in shape, and its names are words of the line.  A name that starts with
a blank loses it, since no backslash goes before it, and function names are not escaped at all
(`RuleSheet.parse_textOf_fails`).
-/

namespace Reachability

open Token

/-! ### What a line states -/

/-- A name as a word of a line can spell it, with backslashes where they are needed. -/
structure IsSpelled (name : String) : Prop where
  ne_nil : name.toList ≠ []
  last : ∀ c ∈ name.toList.getLast?, Text.isBlank c = false
  oneLine : '\n' ∉ name.toList

/-- A name that starts with no blank. -/
def Unindented (name : String) : Prop := ∀ c ∈ name.toList.head?, Text.isBlank c = false

instance (name : String) : Decidable (Unindented name) :=
  decidable_of_iff (name.toList.head?.all (!Text.isBlank ·) = true) <| by
    simp [Unindented, Option.all_eq_true]

theorem IsSpelled.isWord {name : String} (h : IsSpelled name) (hstart : Unindented name) :
    IsWord name :=
  ⟨⟨h.ne_nil, hstart, h.last⟩, h.oneLine⟩

/-- Words of a line are spelled in it. -/
theorem isSpelled_of_mem_tokens {cs : List Char} (hone : '\n' ∉ cs) {w : String}
    (h : .word w ∈ tokens cs) : IsSpelled w := by
  obtain ⟨hne, hlast, hmem⟩ := word_of_mem_tokens h
  exact ⟨hne, hlast, fun hfeed => hone (hmem _ hfeed)⟩

namespace Sheet.Grammar

open Condition

variable {word : String → Prop}

/-- The text of an argument is a word of its tokens. -/
theorem textIs_of_tokens {argument : Option Argument}
    (h : ∀ w, .word w ∈ argumentTokens argument → word w) : TextIs word argument := by
  rintro text rfl
  exact h text (by simp [argumentTokens, parenthesized, argumentToken])

mutual
/-- The names of a term are words of its tokens, and a term is in shape. -/
theorem named_term : ∀ {ts : List Token} {c : Statement}, Term ts c →
    (∀ w, .word w ∈ ts → word w) → c.Named word word ∧ c.Shaped
  | _, _, .intro _ hatom, h => named_atom hatom fun w hw => h w (List.mem_append_right _ hw)

/-- The names of an atom are words of its tokens, and an atom is in shape. -/
theorem named_atom : ∀ {sign : Bool} {ts : List Token} {c : Statement}, Atom sign ts c →
    (∀ w, .word w ∈ ts → word w) → c.Named word word ∧ c.Shaped
  | _, _, _, .item sign name numbers hpos, h => by
    refine ⟨named_item.mpr (h name List.mem_cons_self), shaped_item.mpr ?_⟩
    rcases List.eq_nil_or_concat numbers with rfl | ⟨ns, n, rfl⟩
    · decide
    · simpa using hpos n (by simp)
  | _, _, _, .location sign name, h =>
    ⟨named_location.mpr (h name (by simp)), shaped_location⟩
  | _, _, _, .call sign function argument, h =>
    ⟨named_call.mpr ⟨h function (by simp), textIs_of_tokens fun w hw => h w (by simp [hw])⟩,
      shaped_call⟩
  | _, _, _, .group sign hexpr, h => by
    obtain ⟨hshape, hmembers⟩ := named_expr hexpr fun w hw => h w (by simp [hw])
    exact ⟨named_group.mpr fun c hc => (hmembers c hc).1,
      shaped_group.mpr ⟨hshape, fun c hc => (hmembers c hc).2⟩⟩

/-- An expression has terms, and an operator exactly if it has several. -/
theorem named_expr : ∀ {ts : List Token} {operator : Option Operator} {cs : List Statement},
    Expr ts operator cs → (∀ w, .word w ∈ ts → word w) →
    (cs ≠ [] ∧ (operator = none ↔ cs.length = 1)) ∧ ∀ c ∈ cs, c.Named word word ∧ c.Shaped
  | _, _, _, .single hterm, h =>
    ⟨⟨List.cons_ne_nil _ _, by simp⟩, List.forall_mem_singleton.mpr (named_term hterm h)⟩
  | _, _, _, .joined _ hterm hmore, h =>
    ⟨⟨List.cons_ne_nil _ _, by simp⟩, List.forall_mem_cons.mpr
      ⟨named_term hterm fun w hw => h w (List.mem_append_left _ hw),
        named_more hmore fun w hw => h w (List.mem_append_right _ hw)⟩⟩

/-- The names of further terms are words of their tokens, and the terms are in shape. -/
theorem named_more : ∀ {operator : Operator} {ts : List Token} {cs : List Statement},
    More operator ts cs → (∀ w, .word w ∈ ts → word w) →
    ∀ c ∈ cs, c.Named word word ∧ c.Shaped
  | _, _, _, .nil _, _ => nofun
  | _, _, _, .cons _ hterm hmore, h => List.forall_mem_cons.mpr
      ⟨named_term hterm fun w hw => h w (by simp [hw]),
        named_more hmore fun w hw => h w (by simp [hw])⟩
end

/-- The text arguments of flags are words of their tokens. -/
theorem textIs_of_flagsTokens {flags : Flags} (h : ∀ w, .word w ∈ flagsTokens flags → word w) :
    ∀ entry ∈ flags.entries, TextIs word entry.2 := by
  rw [flagsTokens] at h
  generalize flags.entries = entries at h
  induction entries with
  | nil => exact List.forall_mem_nil _
  | cons entry rest ih =>
    cases rest with
    | nil =>
      refine List.forall_mem_singleton.mpr (textIs_of_tokens fun w hw => h w ?_)
      simp [flagTokens, hw]
    | cons next rest =>
      simp only [List.map_cons, List.intercalate_cons_cons] at h ih
      refine List.forall_mem_cons.mpr ⟨textIs_of_tokens fun w hw => h w ?_, ih fun w hw => h w ?_⟩
      · simp [flagTokens, hw]
      · exact List.mem_append_right _ hw

/-- The names of a rule are words of its line, and the rule is in shape. -/
theorem named_line {line : Nat} {ts : List Token} {rule : Rule} (hline : Line line ts (.rule rule))
    (h : ∀ w, .word w ∈ ts → word w) : rule.Named word word ∧ rule.Shaped := by
  cases hline with
  | name name =>
    exact ⟨⟨h name List.mem_cons_self, nofun, nofun⟩, ⟨nofun, by simp⟩⟩
  | flags name flags =>
    exact ⟨⟨h name List.mem_cons_self, textIs_of_flagsTokens fun w hw => h w (by simp [hw]), nofun⟩,
      ⟨nofun, by simp⟩⟩
  | conditions name flags hexpr =>
    have hflags : ∀ entry ∈ flags.entries, TextIs word entry.2 :=
      textIs_of_flagsTokens fun w hw => h w (by simp [hw])
    cases hexpr with
    | none => exact ⟨⟨h name List.mem_cons_self, hflags, nofun⟩, ⟨nofun, by simp⟩⟩
    | some hexpr =>
      obtain ⟨⟨hne, hoperator⟩, hconditions⟩ := named_expr hexpr fun w hw => h w (by simp [hw])
      refine ⟨⟨h name List.mem_cons_self, hflags, fun c hc => (hconditions c hc).1⟩,
        ⟨fun c hc => (hconditions c hc).2, ?_⟩⟩
      exact hoperator.trans
        ⟨fun h => Nat.le_of_eq h, fun h => Nat.le_antisymm h (List.length_pos_iff.mpr hne)⟩

end Sheet.Grammar

open Sheet Sheet.Grammar

namespace RuleSheet

/-- The names of the rules of a sheet are spelled in its text, and the rules are in shape. -/
theorem named_of_parse {text : String} {sheet : RuleSheet} (h : parse text = .ok sheet) :
    ∀ rule ∈ sheet.rules, rule.Named IsSpelled IsSpelled ∧ rule.Shaped := by
  intro rule hrule
  obtain ⟨line, cs, hcs, hread⟩ := exists_line_of_mem h rule hrule
  exact named_line (readRuleTokens_sound hread) fun w hw =>
    isSpelled_of_mem_tokens (Text.not_mem_of_mem_lines hcs) hw

/-! ### Writing and reading again -/

/-- The text of some rules, one per line. -/
def textOf (rules : List Rule) : String :=
  String.ofList (rules.flatMap fun rule => rule.written ++ ['\n'])

/-- The rules on the lines from `line` on. -/
def numbered (line : Nat) : List Rule → List Rule
  | [] => []
  | rule :: rest => { rule with line := UInt64.ofNat line } :: numbered (line + 1) rest

/-- A rule is written as one line. -/
theorem lines_written {rules : List Rule} (h : ∀ rule ∈ rules, '\n' ∉ rule.written) :
    Text.lines (rules.flatMap fun rule => rule.written ++ ['\n']) = rules.map Rule.written := by
  induction rules with
  | nil => rw [List.flatMap_nil, Text.lines_nil, List.map_nil]
  | cons rule rest ih =>
    obtain ⟨hone, hrest⟩ := List.forall_mem_cons.mp h
    have hlast : rule.written.getLast? ≠ some '\r' := by
      rw [Rule.written, List.getLast?_append]
      simp
    rw [List.flatMap_cons, List.append_assoc, List.singleton_append,
      Text.lines_append_lf hone hlast, ih hrest, List.map_cons]

/-- Lines that state rules of new names are read as these rules, numbered. -/
theorem addLines_written {sheet : RuleSheet} {line : Nat} {rules : List Rule}
    (hnodup : ((sheet.rules ++ rules).map Rule.name).Nodup)
    (h : ∀ rule ∈ rules, ∀ line, readRuleLine line rule.written =
      .ok (.rule { rule with line := UInt64.ofNat line })) :
    sheet.addLines line (rules.map Rule.written) =
      .ok { sheet with rules := sheet.rules ++ numbered line rules } := by
  induction rules generalizing sheet line with
  | nil => rw [List.map_nil, addLines, numbered, List.append_nil]
  | cons rule rest ih =>
    obtain ⟨hread, hrest⟩ := List.forall_mem_cons.mp h
    have hnew : sheet.rules.any (·.name == rule.name) = false := by
      rw [List.map_append, List.nodup_append] at hnodup
      rw [List.any_eq_false]
      intro other hother heq
      exact hnodup.2.2 _ (List.mem_map_of_mem hother) _ List.mem_cons_self (by simpa using heq)
    have hadd : sheet.addLine line rule.written =
        .ok { sheet with rules := sheet.rules ++ [{ rule with line := UInt64.ofNat line }] } := by
      rw [addLine, hread]
      simp only [bind, Except.bind, extend, hnew, Bool.false_eq_true, if_false]
    have hnodup' : ((sheet.rules ++ [{ rule with line := UInt64.ofNat line }] ++ rest).map
        Rule.name).Nodup := by
      simpa using hnodup
    rw [List.map_cons, addLines, hadd]
    dsimp only
    rw [ih hnodup' hrest, numbered, List.append_assoc, List.singleton_append]

/-- The rules of a sheet, written one per line, are read as the same rules in the same order, apart
from the numbers of their lines, if no name starts with a blank and function names need no
escaping. -/
theorem parse_textOf {text : String} {sheet : RuleSheet} (h : parse text = .ok sheet)
    (hnames : ∀ rule ∈ sheet.rules, rule.Named Unindented fun name =>
      Unindented name ∧ escape name.toList = name.toList) :
    parse (textOf sheet.rules) = .ok { rules := numbered 1 sheet.rules, goals := [] } := by
  have hline : ∀ rule ∈ sheet.rules, ∀ line,
      readRuleLine line rule.written = .ok (.rule { rule with line := UInt64.ofNat line }) ∧
        '\n' ∉ rule.written := by
    intro rule hrule line
    obtain ⟨hspelled, hshaped⟩ := named_of_parse h rule hrule
    refine Rule.readRuleLine_written (hspelled.and (hnames rule hrule) ?_ ?_) hshaped line
    · exact fun name hname hstart => hname.isWord hstart
    · exact fun name hname hplain => ⟨hname.isWord hplain.1, hplain.2⟩
  rw [parse, textOf, String.toList_ofList,
    lines_written fun rule hrule => (hline rule hrule 1).2,
    addLines_written (by simpa using nodup_names_of_parse h)
      fun rule hrule line => (hline rule hrule line).1]
  rfl

/-- A text in which rules are spelled in many ways. -/
def mineText : String :=
  "Ore;;;\n#Start // a goal\n" ++
    "\\7\\; a;Item(\\42 \\#1); ~~Ore(3)(2) | ~(#Ore & @npc(2)); // end\n"

/-- The sheet of this text. -/
def mineSheet : RuleSheet where
  rules := [{ name := "Ore", line := 1 },
    { name := "7; a", flags := .ofList [(.item, some (.text "42 #1"))], operator := some .or
      conditions := [.item true "Ore" 2,
        .group false (some .and) [.location true "Ore", .call true "npc" (some (.number 2))]]
      line := 3 }]
  goals := [⟨"Start", 1, 2⟩]

theorem parse_mineText : parse mineText = .ok mineSheet := by cbv

/-- The rules of this text, written again, are read as they were. -/
theorem parse_textOf_mineSheet :
    parse mineText = .ok mineSheet ∧
      (∀ rule ∈ mineSheet.rules, rule.Named Unindented fun name =>
        Unindented name ∧ escape name.toList = name.toList) ∧
      parse (textOf mineSheet.rules) =
        .ok { rules := numbered 1 mineSheet.rules, goals := [] } := by
  have hnames : ∀ rule ∈ mineSheet.rules, rule.Named Unindented fun name =>
      Unindented name ∧ escape name.toList = name.toList := by
    refine List.forall_mem_cons.mpr ⟨⟨by decide, nofun, nofun⟩, List.forall_mem_singleton.mpr ?_⟩
    constructor
    case name => decide
    case flags => decide
    case conditions =>
      simp only [List.forall_mem_cons, List.not_mem_nil, false_implies, implies_true, and_true,
        Condition.named_item, Condition.named_group, Condition.named_location,
        Condition.named_call]
      decide
  exact ⟨parse_mineText, hnames, parse_textOf parse_mineText hnames⟩

/-- A name that starts with a blank is read back without it, and a function name that has to be
escaped is not read back at all. -/
theorem parse_textOf_fails :
    (∃ sheet sheet', parse "\\ A;" = .ok sheet ∧ parse (textOf sheet.rules) = .ok sheet' ∧
      sheet'.rules.map Rule.name ≠ sheet.rules.map Rule.name) ∧
    ∃ sheet error, parse "A;;@\\;x;" = .ok sheet ∧
      parse (textOf sheet.rules) = .error error := by
  constructor
  · refine ⟨{ rules := [{ name := " A", line := 1 }] }, { rules := [{ name := "A", line := 1 }] },
      by cbv, by cbv, by decide⟩
  · refine ⟨{ rules := [{ name := "A", conditions := [.call true ";x" none], line := 1 }] },
      ⟨.rules, 1, .unexpected 5 (some (.mark .semi)) .name⟩, by cbv, by cbv⟩

end RuleSheet

end Reachability
