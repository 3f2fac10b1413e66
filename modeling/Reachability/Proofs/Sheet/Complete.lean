import Reachability.Proofs.Sheet.Grammar

/-!
# Sheet — what the grammar derives is read

Every derivation is followed by the readers of a line, whatever the columns of the tokens are and
whatever follows.  Only a call without an argument needs to know what follows: a separator.
-/

namespace Reachability.Sheet.Grammar

variable {stop : Nat} {outer : List OpenGroup} {level : Level}

/-- Tokens in a line that start with `t` start with `t` at some column. -/
theorem exists_placed {ps : List Placed} {t : Token} {ts : List Token}
    (h : ps.map Placed.token = t :: ts) :
    ∃ column qs, ps = ⟨column, t⟩ :: qs ∧ qs.map Placed.token = ts := by
  obtain ⟨⟨column, _⟩, qs, rfl, rfl, hqs⟩ := List.map_eq_cons_iff.mp h
  exact ⟨column, qs, rfl, hqs⟩

/-- Each `~` turns the sign around. -/
theorem atCondition_tildes {n : Nat} {sign : Bool} {ps rest : List Placed}
    (h : ps.map Placed.token = List.replicate n (.mark .tilde)) :
    atCondition stop outer level sign (ps ++ rest) =
      atCondition stop outer level ((n % 2 == 0) == sign) rest := by
  induction n generalizing ps sign with
  | zero =>
    obtain rfl := List.map_eq_nil_iff.mp h
    cases sign <;> rfl
  | succ n ih =>
    obtain ⟨_, ps, rfl, hps⟩ := exists_placed h
    rw [List.cons_append, atCondition, ih hps, sign_succ]

/-- A number after an item becomes its quantity, whatever it was before. -/
theorem afterCondition_number {operator : Option Operator} {sign : Bool} {name : String}
    {q n : UInt64} {older : List Statement} (h : 1 ≤ n) {a b c : Nat} {rest : List Placed} :
    afterCondition stop outer ⟨operator, .item sign name q :: older⟩
        (⟨a, .mark .opening⟩ :: ⟨b, .number n⟩ :: ⟨c, .mark .closing⟩ :: rest) =
      afterCondition stop outer ⟨operator, .item sign name n :: older⟩ rest := by
  have hn : n ≠ 0 := by
    rintro rfl
    exact absurd h (by decide)
  rw [afterCondition]
  dsimp only
  rw [if_neg hn]

/-- Of several numbers after an item the last one counts. -/
theorem afterCondition_numbers {operator : Option Operator} {sign : Bool} {name : String}
    {q : UInt64} {older : List Statement} {numbers : List UInt64} (hpos : ∀ n ∈ numbers, 1 ≤ n)
    {ps rest : List Placed}
    (h : ps.map Placed.token = numbers.flatMap fun n => parenthesized (.number n)) :
    afterCondition stop outer ⟨operator, .item sign name q :: older⟩ (ps ++ rest) =
      afterCondition stop outer ⟨operator, .item sign name (numbers.getLastD q) :: older⟩ rest := by
  induction numbers generalizing ps q with
  | nil =>
    obtain rfl := List.map_eq_nil_iff.mp h
    rfl
  | cons n numbers ih =>
    obtain ⟨_, _, rfl, h₁⟩ := exists_placed h
    obtain ⟨_, _, rfl, h₂⟩ := exists_placed h₁
    obtain ⟨_, ps, rfl, h₃⟩ := exists_placed h₂
    rw [List.getLastD_cons]
    exact (afterCondition_number (hpos n List.mem_cons_self)).trans
      (ih (fun m hm => hpos m (List.mem_cons_of_mem n hm)) h₃)

/-- A call is read, with its argument if it has one. -/
theorem atCondition_call {sign : Bool} {function : String} {argument : Option Argument}
    {ps rest : List Placed}
    (h : ps.map Placed.token = .mark .atSign :: .word function :: argumentTokens argument)
    (hrest : endsCall rest = true) :
    atCondition stop outer level sign (ps ++ rest) =
      afterCondition stop outer (level.add (.call sign function argument)) rest := by
  obtain ⟨_, _, rfl, h₁⟩ := exists_placed h
  obtain ⟨_, ps, rfl, h₂⟩ := exists_placed h₁
  cases argument with
  | none =>
    obtain rfl := List.map_eq_nil_iff.mp h₂
    simp only [List.cons_append, List.nil_append]
    -- an opening parenthesis would start an argument
    unfold endsCall at hrest
    split at hrest
    · rfl
    · rfl
    · rfl
    · rfl
    · cases hrest
  | some argument =>
    obtain ⟨_, _, rfl, h₃⟩ := exists_placed h₂
    obtain ⟨_, _, rfl, h₄⟩ := exists_placed h₃
    obtain ⟨_, _, rfl, h₅⟩ := exists_placed h₄
    obtain rfl := List.map_eq_nil_iff.mp h₅
    cases argument <;> rfl

/-- A level takes the first operator it meets and keeps it. -/
theorem afterCondition_operator {newest : List Statement} {column : Nat} {operator : Operator}
    {current : Option Operator} (h : current = none ∨ current = some operator)
    {rest : List Placed} :
    afterCondition stop outer ⟨current, newest⟩
        (⟨column, .mark (operatorMark operator)⟩ :: rest) =
      atCondition stop outer ⟨some operator, newest⟩ true rest := by
  rcases h with rfl | rfl <;> cases operator <;> rfl

/-- A call ends at an operator. -/
theorem endsCall_operator {column : Nat} {operator : Operator} {rest : List Placed} :
    endsCall (⟨column, .mark (operatorMark operator)⟩ :: rest) = true := by
  cases operator <;> rfl

/-- What follows a term of a level ends a call. -/
theorem endsCall_more {operator : Operator} {ts : List Token} {cs : List Statement}
    (h : More operator ts cs) {ps rest : List Placed} (hps : ps.map Placed.token = ts)
    (hrest : endsCall rest = true) : endsCall (ps ++ rest) = true := by
  cases h with
  | nil =>
    obtain rfl := List.map_eq_nil_iff.mp hps
    exact hrest
  | cons =>
    obtain ⟨_, ps, rfl, -⟩ := exists_placed hps
    exact endsCall_operator

mutual
/-- A term is read with the sign that its `~` make. -/
theorem atCondition_term : ∀ {ts : List Token} {c : Statement}, Term ts c →
    ∀ {outer : List OpenGroup} {level : Level} {ps rest : List Placed},
      ps.map Placed.token = ts → endsCall rest = true →
      atCondition stop outer level true (ps ++ rest) =
        afterCondition stop outer (level.add c) rest
  | _, _, .intro n hatom, outer, level, _, rest, h, hrest => by
    obtain ⟨ps, qs, rfl, hps, hqs⟩ := List.map_eq_append_iff.mp h
    rw [List.append_assoc, atCondition_tildes hps, beq_true]
    exact atCondition_atom hatom hqs hrest

/-- An atom is read with its sign. -/
theorem atCondition_atom : ∀ {sign : Bool} {ts : List Token} {c : Statement}, Atom sign ts c →
    ∀ {outer : List OpenGroup} {level : Level} {ps rest : List Placed},
      ps.map Placed.token = ts → endsCall rest = true →
      atCondition stop outer level sign (ps ++ rest) =
        afterCondition stop outer (level.add c) rest
  | _, _, _, .item _ _ _ hpos, outer, level, _, rest, h, _ => by
    obtain ⟨_, ps, rfl, h₁⟩ := exists_placed h
    exact afterCondition_numbers hpos h₁
  | _, _, _, .location _ _, outer, level, _, rest, h, _ => by
    obtain ⟨_, _, rfl, h₁⟩ := exists_placed h
    obtain ⟨_, _, rfl, h₂⟩ := exists_placed h₁
    obtain rfl := List.map_eq_nil_iff.mp h₂
    rfl
  | _, _, _, .call _ _ _, _, _, _, _, h, hrest => atCondition_call h hrest
  | _, _, _, .group sign hexpr, outer, level, _, rest, h, _ => by
    obtain ⟨_, _, rfl, h₁⟩ := exists_placed h
    obtain ⟨ps, _, rfl, hps, h₂⟩ := List.map_eq_append_iff.mp h₁
    obtain ⟨_, _, rfl, h₃⟩ := exists_placed h₂
    obtain rfl := List.map_eq_nil_iff.mp h₃
    simp only [List.cons_append, List.append_assoc, List.nil_append]
    rw [atCondition, atCondition_expr hexpr hps rfl, afterCondition]
    simp [OpenGroup.close, Level.conditions]

/-- The terms of a level are read, the newest first. -/
theorem atCondition_expr : ∀ {ts : List Token} {operator : Option Operator}
    {cs : List Statement}, Expr ts operator cs →
    ∀ {outer : List OpenGroup} {ps rest : List Placed},
      ps.map Placed.token = ts → endsCall rest = true →
      atCondition stop outer {} true (ps ++ rest) =
        afterCondition stop outer ⟨operator, cs.reverse⟩ rest
  | _, _, _, .single hterm, _, _, _, h, hrest => atCondition_term hterm h hrest
  | _, _, _, .joined operator hterm hmore, outer, _, rest, h, hrest => by
    obtain ⟨ps, qs, rfl, hps, hqs⟩ := List.map_eq_append_iff.mp h
    rw [List.append_assoc, atCondition_term hterm hps (endsCall_more hmore hqs hrest),
      List.reverse_cons, ← afterCondition_more hmore hqs hrest]
    -- the second term brings the operator into a level that has none yet
    obtain ⟨_⟩ | _ := hmore
    obtain ⟨_, qs, rfl, -⟩ := exists_placed hqs
    simp only [List.cons_append]
    rw [afterCondition_operator (.inr rfl)]
    exact afterCondition_operator (.inl rfl)

/-- The terms after the first two are read onto a level that has its operator. -/
theorem afterCondition_more : ∀ {operator : Operator} {ts : List Token} {cs : List Statement},
    More operator ts cs →
    ∀ {outer : List OpenGroup} {newest : List Statement} {ps rest : List Placed},
      ps.map Placed.token = ts → endsCall rest = true →
      afterCondition stop outer ⟨some operator, newest⟩ (ps ++ rest) =
        afterCondition stop outer ⟨some operator, cs.reverse ++ newest⟩ rest
  | _, _, _, .nil _, outer, newest, _, rest, h, _ => by
    obtain rfl := List.map_eq_nil_iff.mp h
    rfl
  | _, _, _, .cons operator hterm hmore, outer, newest, _, rest, h, hrest => by
    obtain ⟨_, _, rfl, h₁⟩ := exists_placed h
    obtain ⟨ps, qs, rfl, hps, hqs⟩ := List.map_eq_append_iff.mp h₁
    rw [List.cons_append, afterCondition_operator (.inr rfl), List.append_assoc,
      atCondition_term hterm hps (endsCall_more hmore hqs hrest), Level.add,
      afterCondition_more hmore hqs hrest]
    simp
end

end Reachability.Sheet.Grammar
