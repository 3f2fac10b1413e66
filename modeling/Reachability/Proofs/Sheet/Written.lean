import Reachability.Proofs.Rule
import Reachability.Proofs.Sheet.RuleLine
import Reachability.Proofs.Token.Words
import Reachability.Sheet.Rules

/-!
# Sheet — what is written is read

A rule whose names can be words is written as a line that the grammar derives it from, so reading
its text gives the rule back (`RuleSheet.parse_text`).  The text of each part is one the tokens of
the part are read from, whatever follows it (`Reads`), and texts are put together as their tokens
are.
-/

namespace Reachability

open Token

/-! ### Texts and their tokens -/

/-- A text within a line that reads as the tokens `ts`, in front of whatever ends a word. -/
structure Reads (text : List Char) (ts : List Token) : Prop where
  tokens_append : ∀ rest, endsWord rest = true → tokens (text ++ rest) = ts ++ tokens rest
  oneLine : '\n' ∉ text

/-- A text that ends the word before it. -/
def EndsWord (text : List Char) : Prop :=
  ∀ rest, endsWord rest = true → endsWord (text ++ rest) = true

theorem endsWord_nil : EndsWord [] := fun _ h => h

theorem endsWord_mark_cons (m : Mark) (text : List Char) : EndsWord (m.char :: text) :=
  fun rest _ => endsWord_mark m (text ++ rest)

namespace Reads

variable {text text' : List Char} {ts us : List Token}

theorem nil : Reads [] [] := ⟨fun _ _ => rfl, List.not_mem_nil⟩

/-- Where a text ends the word before it, it reads on its own. -/
theorem append (h : Reads text ts) (h' : Reads text' us) (hend : EndsWord text') :
    Reads (text ++ text') (ts ++ us) := by
  constructor
  · intro rest hrest
    rw [List.append_assoc, h.tokens_append _ (hend rest hrest), h'.tokens_append rest hrest,
      List.append_assoc]
  · rw [List.mem_append, not_or]
    exact ⟨h.oneLine, h'.oneLine⟩

theorem mark_cons (m : Mark) (h : Reads text ts) : Reads (m.char :: text) (.mark m :: ts) := by
  constructor
  · intro rest hrest
    rw [List.cons_append, tokens_mark, h.tokens_append rest hrest]
    rfl
  · rw [List.mem_cons, not_or]
    exact ⟨by cases m <;> decide, h.oneLine⟩

theorem space_cons (h : Reads text ts) : Reads (' ' :: text) ts := by
  constructor
  · intro rest hrest
    rw [List.cons_append, tokens_space, h.tokens_append rest hrest]
  · rw [List.mem_cons, not_or]
    exact ⟨by decide, h.oneLine⟩

/-- A text in parentheses. -/
theorem parenthesized (h : Reads text ts) :
    Reads ('(' :: text ++ [')']) (.mark .opening :: ts ++ [.mark .closing]) :=
  (h.append (mark_cons .closing nil) (endsWord_mark_cons .closing [])).mark_cons .opening

/-- All tokens of a text that stands alone. -/
theorem tokens_eq (h : Reads text ts) : tokens text = ts := by
  simpa using h.tokens_append [] rfl

end Reads

/-! ### Names, numbers and arguments -/

/-- A name that one word of a line can be. -/
structure IsWord (name : String) : Prop where
  readable : Readable name.toList
  oneLine : '\n' ∉ name.toList

instance (name : String) : Decidable (IsWord name) :=
  decidable_of_iff (Readable name.toList ∧ '\n' ∉ name.toList)
    ⟨fun h => ⟨h.1, h.2⟩, fun h => ⟨h.readable, h.oneLine⟩⟩

/-- A name is read from its escaped characters. -/
theorem IsWord.reads {name : String} (h : IsWord name) :
    Reads (escape name.toList) [.word name] := by
  constructor
  · intro rest hrest
    rw [tokens_escape h.readable hrest, String.ofList_toList]
    rfl
  · exact fun hmem => (mem_of_mem_escapeAfter hmem).elim (by decide) h.oneLine

/-- A name that is written without being escaped. -/
structure IsPlainWord (name : String) : Prop where
  isWord : IsWord name
  escape_eq : escape name.toList = name.toList

instance (name : String) : Decidable (IsPlainWord name) :=
  decidable_of_iff (IsWord name ∧ escape name.toList = name.toList)
    ⟨fun h => ⟨h.1, h.2⟩, fun h => ⟨h.isWord, h.escape_eq⟩⟩

theorem IsPlainWord.reads {name : String} (h : IsPlainWord name) :
    Reads name.toList [.word name] := by
  have hreads := h.isWord.reads
  rwa [h.escape_eq] at hreads

/-- A number in parentheses is read from its digits. -/
theorem reads_number (n : UInt64) :
    Reads ('(' :: Nat.toDigits 10 n.toNat ++ [')'])
      (Sheet.Grammar.parenthesized (.number n)) := by
  constructor
  · intro rest hrest
    have htokens : tokens (Nat.toDigits 10 n.toNat ++ Mark.closing.char :: rest) =
        .number n :: .mark .closing :: tokens rest := by
      rw [tokens_toDigits, Capped.ofNat_toNat, tokens_mark]
      rintro c ⟨⟩
      decide
    rw [List.append_assoc]
    exact (tokens_mark .opening _).trans (congrArg _ htokens)
  · rw [List.cons_append, List.mem_cons, List.mem_append, List.mem_singleton]
    rintro (h | h | h)
    · cases h
    · exact absurd (Nat.isDigit_of_mem_toDigits (by decide) (by decide) h) (by decide)
    · cases h

theorem reads_writtenArgument {argument : Option Argument} (h : TextIs IsWord argument) :
    Reads (writtenArgument argument) (Sheet.Grammar.argumentTokens argument) := by
  cases argument with
  | none => exact .nil
  | some argument =>
    cases argument with
    | text text => exact (h text rfl).reads.parenthesized
    | number n => exact reads_number n

theorem endsWord_writtenArgument (argument : Option Argument) :
    EndsWord (writtenArgument argument) := by
  cases argument with
  | none => exact endsWord_nil
  | some argument => exact endsWord_mark_cons .opening _

/-! ### Flags -/

/-- The spellings of flags need no escaping. -/
theorem Flag.isPlainWord_name (flag : Flag) : IsPlainWord flag.name := by
  cases flag <;> decide +kernel

/-- Flags are read from how they are written. -/
theorem Flags.reads_written {flags : Flags}
    (h : ∀ entry ∈ flags.entries, TextIs IsWord entry.2) :
    Reads flags.written (Sheet.Grammar.flagsTokens flags) := by
  have hentry {entry : Flag × Option Argument} (h : TextIs IsWord entry.2) :
      Reads (writtenEntry entry) (Sheet.Grammar.flagTokens entry) :=
    entry.1.isPlainWord_name.reads.append (reads_writtenArgument h)
      (endsWord_writtenArgument entry.2)
  rw [written, Sheet.Grammar.flagsTokens]
  generalize flags.entries = entries at h
  induction entries with
  | nil => exact .nil
  | cons entry rest ih =>
    obtain ⟨hfirst, hrest⟩ := List.forall_mem_cons.mp h
    cases rest with
    | nil => simpa using hentry hfirst
    | cons next rest =>
      simp only [List.map_cons, List.intercalate_cons_cons, List.append_assoc]
      exact (hentry hfirst).append ((ih hrest).mark_cons .bar) (endsWord_mark_cons .bar _)

/-! ### Conditions -/

namespace Condition

open Sheet.Grammar

/-- The condition is read from how it is written. -/
def ReadsBack (c : Statement) : Prop := ∃ ts, Term ts c ∧ Reads (written c) ts

/-- A condition is read with its sign if it is read without. -/
theorem readsBack_of_atom {sign : Bool} {c : Statement} {text : List Char} {ts : List Token}
    (hwritten : written c = writtenSign sign ++ text) (hatom : Atom sign ts c)
    (hreads : Reads text ts) : ReadsBack c := by
  rw [ReadsBack, hwritten]
  cases sign with
  | true => exact ⟨ts, .intro 0 hatom, hreads⟩
  | false => exact ⟨.mark .tilde :: ts, .intro 1 hatom, hreads.mark_cons .tilde⟩

variable {operator : Operator} {members : List Statement}

theorem endsWord_writtenMore (members : List Statement) :
    EndsWord (writtenMore (some operator) members) := by
  cases members with
  | nil => exact endsWord_nil
  | cons c rest =>
    intro after _
    have hblank : Text.isBlank ' ' = true := by decide
    have hmark : (Mark.ofChar? operator.char).isSome = true := by cases operator <;> rfl
    simp [writtenMore, separator, endsWord, hblank, hmark]

/-- The later conditions of a level are read if each of them is. -/
theorem exists_more (h : ∀ c ∈ members, ReadsBack c) :
    ∃ ts, More operator ts members ∧ Reads (writtenMore (some operator) members) ts := by
  induction members with
  | nil => exact ⟨[], .nil operator, .nil⟩
  | cons c rest ih =>
    obtain ⟨hc, hrest⟩ := List.forall_mem_cons.mp h
    obtain ⟨ts, hterm, hreads⟩ := hc
    obtain ⟨us, hmore, hreadsMore⟩ := ih hrest
    have hwritten : writtenMore (some operator) (c :: rest) =
        ' ' :: (operatorMark operator).char :: ' ' ::
          (written c ++ writtenMore (some operator) rest) := by
      cases operator <;> simp [writtenMore, separator, Operator.char, operatorMark, Mark.char]
    refine ⟨_, .cons operator hterm hmore, ?_⟩
    rw [hwritten]
    exact ((hreads.append hreadsMore (endsWord_writtenMore rest)).space_cons.mark_cons
      (operatorMark operator)).space_cons

/-- The conditions of a level are read if each of them is and several of them have an operator. -/
theorem exists_expr {operator : Option Operator} (hne : members ≠ [])
    (hoperator : operator = none ↔ members.length = 1) (h : ∀ c ∈ members, ReadsBack c) :
    ∃ ts, Expr ts operator members ∧ Reads (writtenAll operator members) ts := by
  match members with
  | [] => exact absurd rfl hne
  | [c] =>
    obtain rfl := hoperator.mpr rfl
    obtain ⟨ts, hterm, hreads⟩ := h c List.mem_cons_self
    refine ⟨ts, .single hterm, ?_⟩
    rwa [writtenAll, writtenMore, List.append_nil]
  | c :: d :: cs =>
    cases operator with
    | none => cases hoperator.mp rfl
    | some operator =>
      obtain ⟨hc, hrest⟩ := List.forall_mem_cons.mp h
      obtain ⟨ts, hterm, hreads⟩ := hc
      obtain ⟨us, hmore, hreadsMore⟩ := exists_more hrest
      exact ⟨ts ++ us, .joined operator hterm hmore,
        hreads.append hreadsMore (endsWord_writtenMore _)⟩

/-- A condition whose names are words is read from how it is written. -/
theorem Named.readsBack {c : Statement} (hnamed : Named IsWord IsPlainWord c) (hshaped : Shaped c) :
    ReadsBack c := by
  induction c using Condition.induct with
  | item sign name quantity =>
    have hname := named_item.mp hnamed
    have hquantity := shaped_item.mp hshaped
    by_cases hone : quantity = 1
    · subst hone
      exact readsBack_of_atom (by simp [written, writtenQuantity])
        (.item sign name [] nofun) hname.reads
    · have hatom : Atom sign _ (.item sign name quantity) :=
        .item sign name [quantity] (List.forall_mem_singleton.mpr hquantity)
      refine readsBack_of_atom (by rw [written, List.append_assoc]) hatom ?_
      rw [writtenQuantity, if_neg hone]
      exact hname.reads.append (by simpa using reads_number quantity)
        (endsWord_mark_cons .opening _)
  | location sign name =>
    exact readsBack_of_atom (by rw [written]; rfl) (.location sign name)
      ((named_location.mp hnamed).reads.mark_cons .hash)
  | call sign name argument =>
    obtain ⟨hname, hargument⟩ := named_call.mp hnamed
    refine readsBack_of_atom (by rw [written, List.append_assoc]) (.call sign name argument) ?_
    exact (hname.reads.append (reads_writtenArgument hargument)
      (endsWord_writtenArgument argument)).mark_cons .atSign
  | group sign operator members ih =>
    obtain ⟨⟨hne, hoperator⟩, hmembers⟩ := shaped_group.mp hshaped
    obtain ⟨ts, hexpr, hreads⟩ := exists_expr hne hoperator fun c hc =>
      ih c hc (named_group.mp hnamed c hc) (hmembers c hc)
    exact readsBack_of_atom (by rw [written, List.append_assoc]) (.group sign hexpr)
      hreads.parenthesized

end Condition

/-! ### Rules -/

open Sheet Sheet.Grammar

namespace Rule

variable {rule : Rule}

/-- The conditions of a rule are read from how they are written. -/
theorem exists_optionalExpr (hnamed : rule.Named IsWord IsPlainWord) (hshaped : rule.Shaped) :
    ∃ ts, OptionalExpr ts rule.operator rule.conditions ∧
      Reads (Condition.writtenAll rule.operator rule.conditions) ts := by
  by_cases hempty : rule.conditions = []
  · have hnone : rule.operator = none := hshaped.operator.mpr (by simp [hempty])
    rw [hempty, hnone]
    exact ⟨[], .none, .nil⟩
  · have hpos := List.length_pos_iff.mpr hempty
    have hoperator : rule.operator = none ↔ rule.conditions.length = 1 := by
      rw [hshaped.operator]
      omega
    obtain ⟨ts, hexpr, hreads⟩ := Condition.exists_expr hempty hoperator fun c hc =>
      (hnamed.conditions c hc).readsBack (hshaped.conditions c hc)
    exact ⟨ts, .some hexpr, hreads⟩

/-- A rule is written in one line, which states the rule. -/
theorem readRuleLine_written (hnamed : rule.Named IsWord IsPlainWord) (hshaped : rule.Shaped)
    (line : Nat) :
    readRuleLine line rule.written = .ok (.rule { rule with line := UInt64.ofNat line }) ∧
      '\n' ∉ rule.written := by
  obtain ⟨ts, hexpr, hreads⟩ := exists_optionalExpr hnamed hshaped
  have hline : Reads rule.written (.word rule.name :: .mark .semi :: flagsTokens rule.flags ++
      .mark .semi :: ts ++ [.mark .semi]) := by
    have hconditions := hreads.append (Reads.nil.mark_cons .semi) (endsWord_mark_cons .semi [])
    have hflags := (Flags.reads_written hnamed.flags).append (hconditions.mark_cons .semi)
      (endsWord_mark_cons .semi _)
    have hname := hnamed.name.reads.append (hflags.mark_cons .semi) (endsWord_mark_cons .semi _)
    simpa [Rule.written, Mark.char] using hname
  refine ⟨readRuleTokens_complete ?_, hline.oneLine⟩
  have htokens : (scan rule.written).map Placed.token = _ := hline.tokens_eq
  rw [htokens]
  exact .conditions rule.name rule.flags hexpr

end Rule

namespace RuleSheet

/-- A rule whose names are words is read from its text, as the only rule of its sheet. -/
theorem parse_text {rule : Rule} (hnamed : rule.Named IsWord IsPlainWord)
    (hshaped : rule.Shaped) :
    parse rule.text = .ok { rules := [{ rule with line := 1 }], goals := [] } := by
  obtain ⟨hread, hone⟩ := Rule.readRuleLine_written hnamed hshaped 1
  have hne : rule.written ≠ [] := by simp [Rule.written]
  rw [parse, Rule.text, String.toList_ofList, Text.lines_of_not_mem hne hone, addLines, addLine,
    hread]
  rfl

/-- A rule whose names are full of what has a meaning in a line. -/
def caveRule : Rule where
  name := "7; /a\\//b (x)"
  flags := .ofList [(.item, some (.text "Lamp | #1")), (.pickaxe, some (.number 35)),
    (.location, none)]
  operator := some .and
  conditions := [.item true "9 Lives" 3,
    .group false (some .or) [.location false "A~B", .call true "npc" (some (.number 1)),
      .group true none [.item false "x//" 1]]]
  line := 12

/-- The text of such a rule reads back as the rule. -/
theorem parse_text_caveRule :
    caveRule.Named IsWord IsPlainWord ∧ caveRule.Shaped ∧
      parse caveRule.text = .ok { rules := [{ caveRule with line := 1 }], goals := [] } := by
  have hnamed : caveRule.Named IsWord IsPlainWord := by
    constructor
    case name => decide +kernel
    case flags => decide +kernel
    case conditions =>
      simp only [caveRule, List.forall_mem_cons, List.not_mem_nil, false_implies, implies_true,
        and_true, Condition.named_item, Condition.named_group, Condition.named_location,
        Condition.named_call]
      decide +kernel
  have hshaped : caveRule.Shaped := by
    constructor
    case conditions =>
      simp only [caveRule, List.forall_mem_cons, List.not_mem_nil, false_implies, implies_true,
        and_true, ne_eq, List.cons_ne_nil, not_false_eq_true, List.length_cons,
        Condition.shaped_item, Condition.shaped_group, Condition.shaped_location,
        Condition.shaped_call]
      decide
    case operator => decide
  exact ⟨hnamed, hshaped, parse_text hnamed hshaped⟩

end RuleSheet

end Reachability
