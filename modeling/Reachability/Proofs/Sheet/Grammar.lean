import Reachability.Sheet.RuleLine

/-!
# Sheet — the grammar of a rule line

What the tokens of a line derive, without a reader.  A `Term` is a condition with the `~` before
it, an `Atom` a condition whose sign those have fixed, and an `Expr` the terms of one level with
one operator between all of them; groups nest without bound.
-/

namespace Reachability.Sheet.Grammar

/-- The mark of an operator. -/
def operatorMark : Operator → Mark
  | .and => .amp
  | .or => .bar

/-- An argument as one token. -/
def argumentToken : Argument → Token
  | .text text => .word text
  | .number n => .number n

/-- A token in parentheses. -/
def parenthesized (token : Token) : List Token := [.mark .opening, token, .mark .closing]

/-- `[( IDENT | NUMBER )]` -/
def argumentTokens (argument : Option Argument) : List Token :=
  argument.toList.flatMap fun argument => parenthesized (argumentToken argument)

/-- `flag = IDENT [( IDENT | NUMBER )]` -/
def flagTokens (flag : Flag × Option Argument) : List Token :=
  .word flag.1.name :: argumentTokens flag.2

/-- `flags = flag (| flag)*`, or nothing for no flags.  The flags are of the vocabulary and differ
pairwise: that is what `Flags` says. -/
def flagsTokens (flags : Flags) : List Token :=
  List.intercalate [.mark .bar] (flags.entries.map flagTokens)

mutual
/-- `term = ~* atom`, positive exactly if the number of `~` is even. -/
inductive Term : List Token → Statement → Prop
  | intro (negations : Nat) {ts : List Token} {c : Statement} :
      Atom (negations % 2 == 0) ts c →
      Term (List.replicate negations (.mark .tilde) ++ ts) c

/-- `atom = IDENT (( NUMBER ))* | # IDENT | @ IDENT [( IDENT | NUMBER )] | ( expr )`.  The numbers
after an item are positive, and the last one is its quantity, one if there is none. -/
inductive Atom : Bool → List Token → Statement → Prop
  | item (sign : Bool) (name : String) (numbers : List UInt64) :
      (∀ n ∈ numbers, 1 ≤ n) →
      Atom sign (.word name :: numbers.flatMap fun n => parenthesized (.number n))
        (.item sign name (numbers.getLastD 1))
  | location (sign : Bool) (name : String) :
      Atom sign [.mark .hash, .word name] (.location sign name)
  | call (sign : Bool) (function : String) (argument : Option Argument) :
      Atom sign (.mark .atSign :: .word function :: argumentTokens argument)
        (.call sign function argument)
  | group (sign : Bool) {ts : List Token} {operator : Option Operator} {cs : List Statement} :
      Expr ts operator cs →
      Atom sign (.mark .opening :: ts ++ [.mark .closing]) (.group sign operator cs)

/-- `expr = term (op term)*`, where one operator stands between all terms; a level of one term
has none. -/
inductive Expr : List Token → Option Operator → List Statement → Prop
  | single {ts : List Token} {c : Statement} : Term ts c → Expr ts none [c]
  | joined (operator : Operator) {ts us : List Token} {c d : Statement} {cs : List Statement} :
      Term ts c → More operator us (d :: cs) → Expr (ts ++ us) (some operator) (c :: d :: cs)

/-- `(op term)*` with one operator. -/
inductive More : Operator → List Token → List Statement → Prop
  | nil (operator : Operator) : More operator [] []
  | cons (operator : Operator) {ts us : List Token} {c : Statement} {cs : List Statement} :
      Term ts c → More operator us cs →
      More operator (.mark (operatorMark operator) :: ts ++ us) (c :: cs)
end

/-- One more `~` turns the sign around. -/
theorem sign_succ (n : Nat) (sign : Bool) :
    (((n + 1) % 2 == 0) == sign) = ((n % 2 == 0) == !sign) := by
  cases sign <;> grind

/-- `expr?` -/
inductive OptionalExpr : List Token → Option Operator → List Statement → Prop
  | none : OptionalExpr [] none []
  | some {ts : List Token} {operator : Option Operator} {cs : List Statement} :
      Expr ts operator cs → OptionalExpr ts operator cs

/-- A line and what it states.
* nothing: a blank line;
* `# IDENT`: a goal;
* `IDENT ;`, `IDENT ; flags? ;` or `IDENT ; flags? ; expr? ;`: a rule. -/
inductive Line (line : Nat) : List Token → RuleLine → Prop
  | blank : Line line [] .blank
  | goal (name : String) : Line line [.mark .hash, .word name] (.goal name)
  | name (name : String) :
      Line line [.word name, .mark .semi] (.rule { name, line := UInt64.ofNat line })
  | flags (name : String) (flags : Flags) :
      Line line (.word name :: .mark .semi :: flagsTokens flags ++ [.mark .semi])
        (.rule { name, flags, line := UInt64.ofNat line })
  | conditions (name : String) (flags : Flags) {ts : List Token} {operator : Option Operator}
      {cs : List Statement} :
      OptionalExpr ts operator cs →
      Line line
        (.word name :: .mark .semi :: flagsTokens flags ++ .mark .semi :: ts ++ [.mark .semi])
        (.rule { name, flags, operator, conditions := cs, line := UInt64.ofNat line })

end Reachability.Sheet.Grammar
