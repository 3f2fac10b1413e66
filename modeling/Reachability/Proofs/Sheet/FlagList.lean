import Reachability.Proofs.Flags
import Reachability.Proofs.Sheet.Automaton

/-!
# Sheet — the flags of a line

The reader of flags accepts the flags of the grammar: names of the vocabulary, each once, in the
order in which the line has them.
-/

namespace Reachability.Sheet

/-- Recognizing more flags, whose names differ from each other and from those before, adds them
in order. -/
theorem foldlM_recognize_eq_ok_iff {rule : String} {before flags : Flags} {named : NamedFlags}
    (h : ((before.named ++ named).map Prod.fst).Nodup) :
    named.foldlM
        (fun flags entry =>
          match Flag.ofName? entry.1 with
          | some flag => .ok (flags.insert flag entry.2)
          | none => .error (.unrecognizedFlag rule entry.1)) before =
        (.ok flags : Except Fault Flags) ↔
      flags.named = before.named ++ named := by
  induction named generalizing before with
  | nil =>
    rw [List.append_nil]
    constructor
    · intro h
      cases h
      rfl
    · intro h
      rw [Flags.named_injective h]
      rfl
  | cons entry rest ih =>
    obtain ⟨name, argument⟩ := entry
    rw [List.foldlM_cons]
    cases hflag : Flag.ofName? name with
    | none =>
      refine ⟨nofun, fun hflags => ?_⟩
      -- the flags would hold one of this name
      have hmem : (name, argument) ∈ flags.named := by simp [hflags]
      obtain ⟨⟨flag, _⟩, -, hname⟩ := List.mem_map.mp hmem
      rw [← (Prod.mk.inj hname).1, Flag.ofName?_name] at hflag
      cases hflag
    | some flag =>
      obtain rfl := Flag.name_of_ofName? hflag
      have hnew : flag.name ∉ before.named.map Prod.fst := by
        rw [List.map_append, List.nodup_append] at h
        exact fun hmem => h.2.2 _ hmem _ List.mem_cons_self rfl
      have hinsert := Flags.named_insert hnew argument
      have happend : before.named ++ (flag.name, argument) :: rest =
          (before.insert flag argument).named ++ rest := by simp [hinsert]
      rw [happend] at h ⊢
      exact ih h

/-- The flags that different names spell are the ones of these names. -/
theorem recognizeFlags_eq_ok_iff {rule : String} {named : NamedFlags} {flags : Flags}
    (h : (named.map Prod.fst).Nodup) :
    recognizeFlags rule named = .ok flags ↔ flags.named = named :=
  foldlM_recognize_eq_ok_iff h

/-! ### Reading the names -/

/-- A flag by its name, as tokens. -/
def namedTokens (entry : String × Option Argument) : List Token :=
  .word entry.1 :: Grammar.argumentTokens entry.2

/-- Flags by their names, as tokens. -/
def namedListTokens (named : NamedFlags) : List Token :=
  List.intercalate [.mark .bar] (named.map namedTokens)

theorem flagsTokens_eq (flags : Flags) :
    Grammar.flagsTokens flags = namedListTokens flags.named := by
  simp only [Grammar.flagsTokens, namedListTokens, Flags.named, List.map_map]
  rfl

theorem namedListTokens_cons (entry : String × Option Argument) (rest : NamedFlags) :
    namedListTokens (entry :: rest) =
      namedTokens entry ++ if rest = [] then [] else .mark .bar :: namedListTokens rest := by
  cases rest with
  | nil => simp [namedListTokens]
  | cons => simp [namedListTokens, List.intercalate_cons_cons]

variable {stop : Nat}

/-- An argument is read from its token only. -/
theorem eq_argumentToken {token : Token} {argument : Argument}
    (h : Argument.ofToken? token = some argument) : token = Grammar.argumentToken argument := by
  cases token with
  | word text | number value =>
    cases h
    rfl
  | mark mark => cases h

/-- A flag whose name is new keeps the names different. -/
theorem nodup_append_flag {seen : NamedFlags} {flag : String} (argument : Option Argument)
    (hnew : ¬seen.any (·.1 == flag) = true) (h : (seen.map Prod.fst).Nodup) :
    ((seen ++ [(flag, argument)]).map Prod.fst).Nodup := by
  rw [List.map_append, List.nodup_append]
  refine ⟨h, by simp, ?_⟩
  rintro _ hmem _ hflag rfl
  obtain ⟨entry, hentry, rfl⟩ := List.mem_map.mp hmem
  exact hnew (List.any_eq_true.mpr ⟨entry, hentry, by simpa using hflag⟩)

/-- Where flags are read, there is a new flag, and either the `;` or a `|` and further flags. -/
theorem readFlags_eq_ok {seen named : NamedFlags} {tokens rest : List Placed}
    (h : readFlags stop seen tokens = .ok (named, rest)) :
    ∃ flag argument mark tail, ¬seen.any (·.1 == flag) = true ∧
      tokens.map Placed.token =
        namedTokens (flag, argument) ++ .mark mark :: tail.map Placed.token ∧
      (mark = .semi ∧ named = seen ++ [(flag, argument)] ∧ rest = tail ∨
        mark = .bar ∧ readFlags stop (seen ++ [(flag, argument)]) tail = .ok (named, rest)) := by
  rw [readFlags.eq_def] at h
  split at h
  · next column flag tokens =>
    split at h
    · cases h
    · next hnew =>
      split at h
      · cases h
        exact ⟨flag, none, .semi, _, hnew, rfl, .inl ⟨rfl, rfl, rfl⟩⟩
      · exact ⟨flag, none, .bar, _, hnew, rfl, .inr ⟨rfl, h⟩⟩
      · split at h
        · split at h
          · next argument hargument =>
            obtain rfl := eq_argumentToken hargument
            split at h
            · split at h
              · cases h
                exact ⟨flag, some argument, .semi, _, hnew, rfl, .inl ⟨rfl, rfl, rfl⟩⟩
              · exact ⟨flag, some argument, .bar, _, hnew, rfl, .inr ⟨rfl, h⟩⟩
              · cases h
            · cases h
          · cases h
        · cases h
      · cases h
  · cases h

/-- What is read as flags is the tokens of flags. -/
theorem readFlags_sound {seen named : NamedFlags} {tokens rest : List Placed}
    (h : readFlags stop seen tokens = .ok (named, rest)) :
    ∃ more, more ≠ [] ∧ named = seen ++ more ∧
      tokens.map Placed.token =
        namedListTokens more ++ .mark .semi :: rest.map Placed.token ∧
      ((seen.map Prod.fst).Nodup → (named.map Prod.fst).Nodup) := by
  induction hlength : tokens.length using Nat.strongRecOn generalizing seen tokens with
  | ind n ih =>
    subst hlength
    obtain ⟨flag, argument, mark, tail, hnew, htokens, hend⟩ := readFlags_eq_ok h
    have hlt : tail.length < tokens.length := by
      have := congrArg List.length htokens
      simp only [List.length_map, List.length_append, List.length_cons] at this
      omega
    rcases hend with ⟨rfl, rfl, rfl⟩ | ⟨rfl, h⟩
    · refine ⟨[(flag, argument)], List.cons_ne_nil _ _, rfl, ?_, nodup_append_flag argument hnew⟩
      rw [htokens, namedListTokens_cons, if_pos rfl, List.append_nil]
    · obtain ⟨more, hne, rfl, hmore, hnodup⟩ := ih _ hlt h rfl
      refine ⟨(flag, argument) :: more, List.cons_ne_nil _ _, List.append_assoc _ _ _, ?_,
        fun h => hnodup (nodup_append_flag argument hnew h)⟩
      rw [htokens, hmore, namedListTokens_cons, if_neg hne, List.append_assoc, List.cons_append]

open Grammar in
/-- A new flag is read with its argument, whether it is the last one or another follows. -/
theorem readFlags_flag {seen : NamedFlags} {flag : String} {argument : Option Argument}
    (hnew : seen.any (·.1 == flag) = false) {ps rest : List Placed} {column next : Nat}
    (h : ps.map Placed.token = argumentTokens argument) :
    readFlags stop seen (⟨column, .word flag⟩ :: ps ++ ⟨next, .mark .semi⟩ :: rest) =
        .ok (seen ++ [(flag, argument)], rest) ∧
      readFlags stop seen (⟨column, .word flag⟩ :: ps ++ ⟨next, .mark .bar⟩ :: rest) =
        readFlags stop (seen ++ [(flag, argument)]) rest := by
  cases argument with
  | none =>
    obtain rfl := List.map_eq_nil_iff.mp h
    constructor <;> simp [readFlags, hnew]
  | some argument =>
    obtain ⟨_, _, rfl, h₁⟩ := exists_placed h
    obtain ⟨_, _, rfl, h₂⟩ := exists_placed h₁
    obtain ⟨_, _, rfl, h₃⟩ := exists_placed h₂
    obtain rfl := List.map_eq_nil_iff.mp h₃
    cases argument <;> constructor <;> simp [readFlags, hnew, argumentToken, Argument.ofToken?]

open Grammar in
/-- The tokens of flags that differ from those before are read as these flags. -/
theorem readFlags_complete {seen more : NamedFlags} (hne : more ≠ [])
    (hnodup : ((seen ++ more).map Prod.fst).Nodup) {ps rest : List Placed} {column : Nat}
    (h : ps.map Placed.token = namedListTokens more) :
    readFlags stop seen (ps ++ ⟨column, .mark .semi⟩ :: rest) = .ok (seen ++ more, rest) := by
  induction more generalizing seen ps with
  | nil => exact absurd rfl hne
  | cons entry more ih =>
    obtain ⟨flag, argument⟩ := entry
    -- the first of the flags is none of those seen
    have hnew : seen.any (·.1 == flag) = false := by
      rw [List.map_append, List.nodup_append] at hnodup
      rw [List.any_eq_false]
      intro entry hentry heq
      exact hnodup.2.2 _ (List.mem_map_of_mem hentry) _ List.mem_cons_self (by simpa using heq)
    rw [namedListTokens_cons] at h
    obtain ⟨_, tail, rfl, htokens⟩ := exists_placed h
    by_cases hmore : more = []
    · subst hmore
      exact (readFlags_flag hnew (by simpa using htokens)).1
    · rw [if_neg hmore] at htokens
      obtain ⟨ps, _, rfl, hps, htail⟩ := List.map_eq_append_iff.mp htokens
      obtain ⟨_, qs, rfl, hqs⟩ := exists_placed htail
      have hnodup : ((seen ++ [(flag, argument)] ++ more).map Prod.fst).Nodup := by
        simpa using hnodup
      have hread := ih hmore hnodup hqs
      rw [← (readFlags_flag hnew hps).2] at hread
      simpa using hread

/-- The tokens of flags with different names are read as these flags, and no tokens as none. -/
theorem readOptionalFlags_complete {named : NamedFlags} (hnodup : (named.map Prod.fst).Nodup)
    {ps rest : List Placed} {column : Nat} (h : ps.map Placed.token = namedListTokens named) :
    readOptionalFlags stop (ps ++ ⟨column, .mark .semi⟩ :: rest) = .ok (named, rest) := by
  cases named with
  | nil =>
    obtain rfl := List.map_eq_nil_iff.mp h
    rfl
  | cons entry named =>
    have hread : readFlags stop [] (ps ++ ⟨column, .mark .semi⟩ :: rest) =
        .ok (entry :: named, rest) := readFlags_complete (List.cons_ne_nil entry named) hnodup h
    rw [namedListTokens_cons] at h
    obtain ⟨_, ps, rfl, -⟩ := Grammar.exists_placed h
    exact hread

/-- The flags of a line are read from their tokens, and nothing is read from a line that has
ended. -/
theorem readOptionalFlags_sound {named : NamedFlags} {tokens rest : List Placed}
    (h : readOptionalFlags stop tokens = .ok (named, rest)) :
    (tokens = [] ∧ named = [] ∧ rest = []) ∨
      (named.map Prod.fst).Nodup ∧
        tokens.map Placed.token =
          namedListTokens named ++ .mark .semi :: rest.map Placed.token := by
  unfold readOptionalFlags at h
  split at h
  · cases h
    exact .inl ⟨rfl, rfl, rfl⟩
  · cases h
    exact .inr ⟨List.nodup_nil, rfl⟩
  · obtain ⟨more, -, rfl, htokens, hnodup⟩ := readFlags_sound h
    exact .inr ⟨hnodup List.nodup_nil, htokens⟩
  · cases h

end Reachability.Sheet
