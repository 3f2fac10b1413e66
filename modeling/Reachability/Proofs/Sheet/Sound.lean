import Reachability.Proofs.Sheet.Complete

/-!
# Sheet — what is read has a derivation

`Closes outer level ts final` says that the tokens `ts` finish a line whose innermost level is
`level` and whose open groups are `outer`, and that `final` is then the outermost level.  The
readers produce it step by step, and each group it closes is a derivation.
-/

namespace Reachability.Sheet

/-! ### Shorter lists of tokens -/

/-- `P` holds of every list of tokens that is shorter than `tokens`. -/
def Below (P : List Placed → Prop) (tokens : List Placed) : Prop :=
  ∀ rest : List Placed, rest.length < tokens.length → P rest

namespace Below

variable {P : List Placed → Prop} {token : Placed} {tokens : List Placed}

theorem rest (h : Below P (token :: tokens)) : P tokens := h tokens (Nat.lt_succ_self _)

theorem tail (h : Below P (token :: tokens)) : Below P tokens :=
  fun rest hlt => h rest (Nat.lt_succ_of_lt hlt)

/-- Readers only go on to shorter lists of tokens. -/
theorem induct (h : ∀ tokens, Below P tokens → P tokens) (tokens : List Placed) : P tokens := by
  induction hlength : tokens.length using Nat.strongRecOn generalizing tokens with
  | ind n ih =>
    subst hlength
    exact h tokens fun rest hlt => ih rest.length hlt rest rfl

end Below

namespace Grammar

/-! ### What is left of a line -/

/-- What the open groups still ask of a line, right after a complete condition. -/
inductive Closes : List OpenGroup → Level → List Token → Level → Prop
  | line (level : Level) : Closes [] level [.mark .semi] level
  | joined {outer : List OpenGroup} {level final : Level} {operator : Operator}
      {ts us : List Token} {c : Statement} :
      level.operator = none ∨ level.operator = some operator → Term ts c →
      Closes outer ⟨some operator, c :: level.newest⟩ us final →
      Closes outer level (.mark (operatorMark operator) :: ts ++ us) final
  | group {opened : OpenGroup} {outer : List OpenGroup} {level final : Level} {ts : List Token} :
      Closes outer (opened.close level) ts final →
      Closes (opened :: outer) level (.mark .closing :: ts) final

/-- Reading `ts` after the conditions of `level` gives the level `inner`. -/
def Extends (level : Level) (ts : List Token) (inner : Level) : Prop :=
  ts = [] ∧ inner = level ∨
  ∃ operator c cs, (level.operator = none ∨ level.operator = some operator) ∧
    More operator ts (c :: cs) ∧ inner = ⟨some operator, (c :: cs).reverse ++ level.newest⟩

theorem Extends.joined {level inner : Level} {operator : Operator} {ts us : List Token}
    {c : Statement} (h : level.operator = none ∨ level.operator = some operator) (hterm : Term ts c)
    (hext : Extends ⟨some operator, c :: level.newest⟩ us inner) :
    Extends level (.mark (operatorMark operator) :: ts ++ us) inner := by
  refine .inr ⟨operator, c, ?_⟩
  rcases hext with ⟨rfl, rfl⟩ | ⟨operator', d, cs, hop, hmore, rfl⟩
  · exact ⟨[], h, .cons operator hterm (.nil operator), rfl⟩
  · obtain rfl : operator = operator' := by simpa using hop
    exact ⟨d :: cs, h, .cons operator hterm hmore, by simp⟩

/-- A first term and what extends its level are an expression. -/
theorem Extends.expr {ts us : List Token} {c : Statement} {inner : Level} (hterm : Term ts c)
    (hext : Extends ⟨none, [c]⟩ us inner) : Expr (ts ++ us) inner.operator inner.conditions := by
  rcases hext with ⟨rfl, rfl⟩ | ⟨operator, d, cs, -, hmore, rfl⟩
  · rw [List.append_nil]
    exact .single hterm
  · have : (⟨some operator, (d :: cs).reverse ++ [c]⟩ : Level).conditions = c :: d :: cs := by
      simp [Level.conditions]
    rw [this]
    exact .joined operator hterm hmore

/-- The tokens `ts` end the level `inner`: the line ends, or its group is closed and the level
around it goes on. -/
def Ends (inner : Level) (ts : List Token) (final : Level) : List OpenGroup → Prop
  | [] => ts = [.mark .semi] ∧ final = inner
  | opened :: outer => ∃ us, ts = .mark .closing :: us ∧ Closes outer (opened.close inner) us final

/-- Before it ends, the innermost level is extended. -/
theorem Closes.split {outer : List OpenGroup} {level final : Level} {ts : List Token}
    (h : Closes outer level ts final) :
    ∃ us inner vs, ts = us ++ vs ∧ Extends level us inner ∧ Ends inner vs final outer := by
  induction h with
  | line level => exact ⟨[], level, _, rfl, .inl ⟨rfl, rfl⟩, rfl, rfl⟩
  | joined hop hterm _ ih =>
    obtain ⟨us, inner, vs, rfl, hext, hend⟩ := ih
    exact ⟨_, inner, vs, (List.append_assoc ..).symm, hext.joined hop hterm, hend⟩
  | @group opened outer level final ts h _ =>
    exact ⟨[], level, _, rfl, .inl ⟨rfl, rfl⟩, ts, rfl, h⟩

theorem join_eq_ok {level level' : Level} {column : Nat} {operator : Operator}
    (h : level.join column operator = .ok level') :
    (level.operator = none ∨ level.operator = some operator) ∧
      level' = ⟨some operator, level.newest⟩ := by
  obtain ⟨current, newest⟩ := level
  unfold Level.join at h
  split at h
  · next heq =>
    cases h
    exact ⟨.inl heq, rfl⟩
  · next existing heq =>
    split at h
    · next hsame =>
      cases h
      subst hsame
      exact ⟨.inr heq, by rw [← heq]⟩
    · cases h

variable {stop : Nat}

/-- Whatever the readers make of `tokens`, it has a derivation. -/
structure Sound (stop : Nat) (tokens : List Placed) : Prop where
  /-- Where a condition has to start. -/
  condition : ∀ {outer level sign final}, atCondition stop outer level sign tokens = .ok final →
    ∃ n ts us c, tokens.map Placed.token = List.replicate n (.mark .tilde) ++ ts ++ us ∧
      Atom ((n % 2 == 0) == sign) ts c ∧ Closes outer (level.add c) us final
  /-- After an item, which may get a quantity. -/
  item : ∀ {outer operator sign name q older final},
    afterCondition stop outer ⟨operator, .item sign name q :: older⟩ tokens = .ok final →
    ∃ (numbers : List UInt64) (us : List Token),
      tokens.map Placed.token = (numbers.flatMap fun n => parenthesized (.number n)) ++ us ∧
      (∀ n ∈ numbers, 1 ≤ n) ∧
      Closes outer ⟨operator, .item sign name (numbers.getLastD q) :: older⟩ us final
  /-- After any other condition. -/
  other : ∀ {outer level final}, (∀ sign name q, level.newest.head? ≠ some (.item sign name q)) →
    afterCondition stop outer level tokens = .ok final →
    Closes outer level (tokens.map Placed.token) final

/-- A term that has to start, up to the end of the line. -/
theorem Sound.term {tokens : List Placed} (hsound : Sound stop tokens) {outer : List OpenGroup}
    {level final : Level} (h : atCondition stop outer level true tokens = .ok final) :
    ∃ ts us c, tokens.map Placed.token = ts ++ us ∧ Term ts c ∧
      Closes outer (level.add c) us final := by
  obtain ⟨n, ts, us, c, htokens, hatom, hcloses⟩ := hsound.condition h
  rw [beq_true] at hatom
  exact ⟨_, us, c, htokens, .intro n hatom, hcloses⟩

theorem closes_of_operator {outer : List OpenGroup} {level final : Level} {column : Nat}
    {rest : List Placed} (operator : Operator) (hsound : Sound stop rest)
    (h : (do
      let level ← level.join column operator
      atCondition stop outer level true rest) = .ok final) :
    Closes outer level (.mark (operatorMark operator) :: rest.map Placed.token) final := by
  cases hjoin : level.join column operator with
  | error fault => rw [hjoin] at h; cases h
  | ok level' =>
    rw [hjoin] at h
    obtain ⟨hop, rfl⟩ := join_eq_ok hjoin
    obtain ⟨ts, us, c, htokens, hterm, hcloses⟩ := hsound.term h
    rw [htokens]
    exact .joined hop hterm hcloses

/-- After a complete condition, unless a quantity follows. -/
theorem closes_of_afterCondition {outer : List OpenGroup} {level final : Level}
    {tokens : List Placed} (ih : Below (Sound stop) tokens)
    (hopening : ∀ column rest, tokens ≠ ⟨column, .mark .opening⟩ :: rest)
    (h : afterCondition stop outer level tokens = .ok final) :
    Closes outer level (tokens.map Placed.token) final := by
  match tokens, ih, hopening, h with
  | [], _, _, h => cases h
  | ⟨_, .word _⟩ :: _, _, _, h => cases h
  | ⟨_, .number _⟩ :: _, _, _, h => cases h
  | ⟨column, .mark m⟩ :: rest, ih, hopening, h =>
    have hrest : Sound stop rest := ih.rest
    cases m with
    | semi =>
      match outer, rest, h with
      | [], [], h => cases h; exact .line level
      | [], _ :: _, h => cases h
      | _ :: _, _, h => cases h
    | amp => exact closes_of_operator .and hrest h
    | bar => exact closes_of_operator .or hrest h
    | closing =>
      match outer, h with
      | [], h => cases h
      | opened :: outer, h =>
        exact .group (hrest.other (by simp [OpenGroup.close, Level.add]) h)
    | opening => exact absurd rfl (hopening column rest)
    | hash | atSign | tilde => cases h

/-- After an item. -/
theorem item_sound {tokens : List Placed} (ih : Below (Sound stop) tokens)
    {outer : List OpenGroup} {operator : Option Operator} {sign : Bool} {name : String}
    {q : UInt64} {older : List Statement} {final : Level}
    (h : afterCondition stop outer ⟨operator, .item sign name q :: older⟩ tokens = .ok final) :
    ∃ (numbers : List UInt64) (us : List Token),
      tokens.map Placed.token = (numbers.flatMap fun n => parenthesized (.number n)) ++ us ∧
      (∀ n ∈ numbers, 1 ≤ n) ∧
      Closes outer ⟨operator, .item sign name (numbers.getLastD q) :: older⟩ us final := by
  by_cases hopening : ∃ column rest, tokens = ⟨column, .mark .opening⟩ :: rest
  · obtain ⟨column, rest, rfl⟩ := hopening
    rw [afterCondition] at h
    match rest, ih, h with
    | [], _, h => cases h
    | ⟨_, .word _⟩ :: _, _, h => cases h
    | ⟨_, .mark _⟩ :: _, _, h => cases h
    | ⟨_, .number n⟩ :: rest, ih, h =>
      dsimp only at h
      split at h
      · cases h
      · next hn =>
        match rest, ih, h with
        | [], _, h => cases h
        | ⟨_, .word _⟩ :: _, _, h => cases h
        | ⟨_, .number _⟩ :: _, _, h => cases h
        | ⟨_, .mark m⟩ :: rest, ih, h =>
          cases m with
          | closing =>
            obtain ⟨numbers, us, htokens, hpos, hcloses⟩ := ih.tail.tail.rest.item h
            refine ⟨n :: numbers, us, ?_, ?_, ?_⟩
            · simpa [parenthesized] using htokens
            · have hone : 1 ≤ n := UInt64.le_iff_toNat_le.mpr
                (Nat.one_le_iff_ne_zero.mpr fun h => hn (UInt64.toNat.inj h))
              simpa using ⟨hone, hpos⟩
            · rwa [List.getLastD_cons]
          | _ => cases h
  · simp only [not_exists] at hopening
    exact ⟨[], _, rfl, by simp, closes_of_afterCondition ih hopening h⟩

/-- A condition without `~`, read from its first token on. -/
theorem atom_sound {tokens : List Placed} {outer : List OpenGroup} {level final : Level}
    {sign : Bool} {ts us : List Token} {c : Statement}
    (htokens : tokens.map Placed.token = ts ++ us) (hatom : Atom sign ts c)
    (hcloses : Closes outer (level.add c) us final) :
    ∃ n ts us c, tokens.map Placed.token = List.replicate n (.mark .tilde) ++ ts ++ us ∧
      Atom ((n % 2 == 0) == sign) ts c ∧ Closes outer (level.add c) us final :=
  ⟨0, ts, us, c, htokens, by simpa using hatom, hcloses⟩

/-- After `@`. -/
theorem call_sound {tokens : List Placed} (ih : Below (Sound stop) tokens)
    {outer : List OpenGroup} {level final : Level} {sign : Bool} {column : Nat}
    (h : atCondition stop outer level sign (⟨column, .mark .atSign⟩ :: tokens) = .ok final) :
    ∃ function argument us,
      tokens.map Placed.token = .word function :: argumentTokens argument ++ us ∧
      Closes outer (level.add (.call sign function argument)) us final := by
  match tokens, ih, h with
  | [], _, h => cases h
  | ⟨_, .number _⟩ :: _, _, h => cases h
  | ⟨_, .mark _⟩ :: _, _, h => cases h
  | [⟨_, .word _⟩], _, h => cases h
  | ⟨_, .word _⟩ :: ⟨_, .word _⟩ :: _, _, h => cases h
  | ⟨_, .word _⟩ :: ⟨_, .number _⟩ :: _, _, h => cases h
  | ⟨_, .word function⟩ :: ⟨c, .mark m⟩ :: rest, ih, h =>
    cases m with
    | hash | atSign | tilde => cases h
    | semi | amp | bar | closing =>
      exact ⟨function, none, _, rfl, ih.rest.other (by simp [Level.add]) h⟩
    | opening =>
      match rest, ih, h with
      | [], _, h => cases h
      | ⟨_, .mark _⟩ :: _, _, h => cases h
      | [⟨_, .word _⟩], _, h => cases h
      | [⟨_, .number _⟩], _, h => cases h
      | ⟨_, .word _⟩ :: ⟨_, .word _⟩ :: _, _, h => cases h
      | ⟨_, .word _⟩ :: ⟨_, .number _⟩ :: _, _, h => cases h
      | ⟨_, .number _⟩ :: ⟨_, .word _⟩ :: _, _, h => cases h
      | ⟨_, .number _⟩ :: ⟨_, .number _⟩ :: _, _, h => cases h
      | ⟨_, .word text⟩ :: ⟨_, .mark m⟩ :: rest, ih, h =>
        cases m with
        | closing =>
          exact ⟨function, some (.text text), _, rfl,
            ih.tail.tail.tail.rest.other (by simp [Level.add]) h⟩
        | _ => cases h
      | ⟨_, .number n⟩ :: ⟨_, .mark m⟩ :: rest, ih, h =>
        cases m with
        | closing =>
          exact ⟨function, some (.number n), _, rfl,
            ih.tail.tail.tail.rest.other (by simp [Level.add]) h⟩
        | _ => cases h

/-- Where a condition has to start. -/
theorem condition_sound {tokens : List Placed} (ih : Below (Sound stop) tokens)
    {outer : List OpenGroup} {level final : Level} {sign : Bool}
    (h : atCondition stop outer level sign tokens = .ok final) :
    ∃ n ts us c, tokens.map Placed.token = List.replicate n (.mark .tilde) ++ ts ++ us ∧
      Atom ((n % 2 == 0) == sign) ts c ∧ Closes outer (level.add c) us final := by
  match tokens, ih, h with
  | [], _, h => cases h
  | ⟨_, .number _⟩ :: _, _, h => cases h
  | ⟨_, .word name⟩ :: rest, ih, h =>
    obtain ⟨numbers, us, htokens, hpos, hcloses⟩ := ih.rest.item h
    exact atom_sound (by simpa using htokens) (.item sign name numbers hpos) hcloses
  | ⟨_, .mark m⟩ :: rest, ih, h =>
    have hrest : Sound stop rest := ih.rest
    cases m with
    | tilde =>
      obtain ⟨n, ts, us, c, htokens, hatom, hcloses⟩ := hrest.condition h
      rw [← sign_succ] at hatom
      exact ⟨n + 1, ts, us, c, by simpa [List.replicate_succ] using htokens, hatom, hcloses⟩
    | opening =>
      obtain ⟨ts, us, c, htokens, hterm, hcloses⟩ := hrest.term h
      -- the group ends where the level that it opened does
      obtain ⟨vs, inner, _, rfl, hext, xs, rfl, houter⟩ := hcloses.split
      exact atom_sound (by simp [htokens]) (.group sign (hext.expr hterm)) houter
    | hash =>
      match rest, ih, h with
      | [], _, h => cases h
      | ⟨_, .number _⟩ :: _, _, h => cases h
      | ⟨_, .mark _⟩ :: _, _, h => cases h
      | ⟨_, .word name⟩ :: rest, ih, h =>
        exact atom_sound rfl (.location sign name)
          (ih.tail.rest.other (by simp [Level.add]) h)
    | atSign =>
      obtain ⟨function, argument, us, htokens, hcloses⟩ :=
        call_sound ih.tail h
      exact atom_sound (by simp [htokens]) (.call sign function argument) hcloses
    | semi | amp | bar | closing => cases h

/-- After a condition that is no item. -/
theorem other_sound {tokens : List Placed} (ih : Below (Sound stop) tokens)
    {outer : List OpenGroup} {level final : Level}
    (hitem : ∀ sign name q, level.newest.head? ≠ some (.item sign name q))
    (h : afterCondition stop outer level tokens = .ok final) :
    Closes outer level (tokens.map Placed.token) final := by
  refine closes_of_afterCondition ih ?_ h
  rintro column rest rfl
  rw [afterCondition] at h
  split at h
  · next sign name q older heq => exact hitem sign name q (by rw [heq]; rfl)
  · cases h

/-- Whatever is read has a derivation. -/
theorem sound (tokens : List Placed) : Sound stop tokens :=
  Below.induct (fun _ ih => ⟨condition_sound ih, item_sound ih, other_sound ih⟩) tokens

/-- The conditions of a line are an expression up to its end. -/
theorem expr_of_atCondition {tokens : List Placed} {level : Level}
    (h : atCondition stop [] {} true tokens = .ok level) :
    ∃ ts, tokens.map Placed.token = ts ++ [.mark .semi] ∧
      OptionalExpr ts level.operator level.conditions := by
  obtain ⟨ts, us, c, htokens, hterm, hcloses⟩ := (sound tokens).term h
  obtain ⟨vs, inner, ws, rfl, hext, rfl, rfl⟩ := hcloses.split
  exact ⟨ts ++ vs, by simp [htokens], .some (hext.expr hterm)⟩

/-- Nothing follows where only the end of the line may. -/
theorem eq_nil_of_endOfLine {tokens : List Placed} (h : endOfLine stop tokens = .ok ()) :
    tokens = [] := by
  cases tokens with
  | nil => rfl
  | cons => cases h

/-- The conditions of a line, if it has any, are an expression up to its end. -/
theorem optionalExpr_of_readConditions {tokens : List Placed} {level : Level}
    (h : readConditions stop tokens = .ok level) :
    tokens = [] ∧ level = {} ∨
      ∃ ts, tokens.map Placed.token = ts ++ [.mark .semi] ∧
        OptionalExpr ts level.operator level.conditions := by
  match tokens, h with
  | [], h => cases h; exact .inl ⟨rfl, rfl⟩
  | ⟨_, .number _⟩ :: _, h => cases h
  | ⟨_, .word _⟩ :: _, h => exact .inr (expr_of_atCondition h)
  | ⟨_, .mark m⟩ :: rest, h =>
    cases m with
    | semi =>
      cases rest with
      | nil => cases h; exact .inr ⟨[], rfl, .none⟩
      | cons => cases h
    | amp | bar | closing => cases h
    | hash | atSign | tilde | opening => exact .inr (expr_of_atCondition h)

end Grammar

end Reachability.Sheet
