import Reachability.Sheet.RuleLine

/-!
# Sheet — a line of the rule sheet as an automaton

The automaton takes the tokens of a line one at a time.  Its state says what may come next; beside
it stand the parts of the line read so far, the level that is being read and the open groups
around it.  Nothing is decided about the line as a whole before its last token.
-/

namespace Reachability.Sheet

/-- What the automaton has to read next. -/
inductive LineState where
  | name
  | nameSemi
  | flagOrSemi
  | afterFlag
  | flag
  | flagArgument
  | flagArgumentEnd
  | afterFlagArgument
  | conditionOrSemi
  | afterCondition
  | condition
  | location
  | function
  | afterFunction
  | functionArgument
  | functionArgumentEnd
  | endOfLine
  | goal
  | quantity
  | quantityEnd
  deriving DecidableEq, Repr

namespace LineState

/-- What may stand where the automaton is. -/
def expected : LineState → Expected
  | name => .nameOrHash
  | nameSemi => .semi
  | flagOrSemi => .flagOrSemi
  | afterFlag => .afterFlag
  | flag => .flag
  | flagArgument | functionArgument => .argument
  | flagArgumentEnd | functionArgumentEnd | quantityEnd => .closing
  | afterFlagArgument => .afterFlagArgument
  | conditionOrSemi => .conditionOrSemi
  | afterCondition => .afterCondition
  | condition => .condition
  | location | function => .name
  | afterFunction => .afterFunction
  | endOfLine => .endOfLine
  | goal => .goal
  | quantity => .number

/-- Whether a line may end here. -/
def acceptsEnd : LineState → Bool
  | name | flagOrSemi | conditionOrSemi | endOfLine => true
  | _ => false

end LineState

/-- The automaton in the middle of a line. -/
structure LineReader where
  state : LineState := .name
  name : Option String := none
  goal : Option String := none
  flags : NamedFlags := []
  /-- The function that is being called, until its call is complete. -/
  function : Option String := none
  /-- The sign of the next condition. -/
  sign : Bool := true
  /-- What has been read of the innermost open group. -/
  level : Level := {}
  /-- The groups that are open, the innermost first. -/
  outer : List OpenGroup := []

namespace LineReader

/-- The fault of a token that may not stand where the automaton is. -/
def unexpected (reader : LineReader) (placed : Placed) : Fault :=
  .unexpected (placed.column + 1) (some placed.token) reader.state.expected

/-- One more flag, without an argument so far; no flag is given twice. -/
def addFlag (reader : LineReader) (column : Nat) (flag : String) : Except Fault LineReader :=
  if reader.flags.any (·.1 == flag) then .error (.duplicateFlag column flag)
  else .ok { reader with state := .afterFlag, flags := reader.flags ++ [(flag, none)] }

/-- The last flag gets its argument. -/
def setFlagArgument (reader : LineReader) (argument : Argument) : LineReader :=
  { reader with
    state := .flagArgumentEnd
    flags := reader.flags.dropLast ++
      reader.flags.getLast?.toList.map fun (flag, _) => (flag, some argument) }

/-- One more condition, after which the next one is positive until it is negated. -/
def push (reader : LineReader) (state : LineState) (condition : Statement) : LineReader :=
  { reader with state, sign := true, level := reader.level.add condition }

/-- The function that was named is called. -/
def pushCall (reader : LineReader) (state : LineState) (argument : Option Argument) :
    LineReader :=
  { reader with function := none }.push state
    (.call reader.sign (reader.function.getD "") argument)

/-- A group opens, and with it a new level. -/
def openGroup (reader : LineReader) : LineReader :=
  { reader with
    state := .condition, sign := true, level := {},
    outer := ⟨reader.sign, reader.level⟩ :: reader.outer }

/-- The newest condition, an item, gets its quantity. -/
def setQuantity (reader : LineReader) (quantity : UInt64) : LineReader :=
  { reader with
    state := .quantityEnd
    level := { reader.level with
      newest := match reader.level.newest with
        | [] => []
        | newest :: older => newest.times quantity :: older } }

/-- The conditions of the level are joined by an operator. -/
def join (reader : LineReader) (column : Nat) (operator : Operator) :
    Except Fault LineReader := do
  let level ← reader.level.join column operator
  return { reader with state := .condition, level }

/-- What separates conditions or closes a group, after a complete condition. -/
def separate (reader : LineReader) (placed : Placed) : Except Fault LineReader :=
  let column := placed.column + 1
  match placed.token with
  | .mark .semi =>
    if reader.outer.isEmpty then .ok { reader with state := .endOfLine }
    else .error (.unclosedGroup column)
  | .mark .amp => reader.join column .and
  | .mark .bar => reader.join column .or
  | .mark .closing =>
    match reader.outer with
    | [] => .error (.unmatchedClosing column)
    | opened :: outer =>
      .ok { reader with
        state := .afterCondition, sign := true, level := opened.close reader.level, outer }
  | _ => .error (reader.unexpected placed)

/-- Where a condition may start. -/
def startCondition (reader : LineReader) (placed : Placed) : Except Fault LineReader :=
  match placed.token with
  | .word name => .ok (reader.push .afterCondition (.item reader.sign name 1))
  | .mark .hash => .ok { reader with state := .location }
  | .mark .atSign => .ok { reader with state := .function }
  | .mark .tilde => .ok { reader with state := .condition, sign := !reader.sign }
  | .mark .opening => .ok reader.openGroup
  | _ => .error (reader.unexpected placed)

/-- Takes one token. -/
def step (reader : LineReader) (placed : Placed) : Except Fault LineReader :=
  let column := placed.column + 1
  match reader.state, placed.token with
  | .name, .word name => .ok { reader with state := .nameSemi, name := some name }
  | .name, .mark .hash => .ok { reader with state := .goal }
  | .goal, .word goal => .ok { reader with state := .endOfLine, goal := some goal }
  | .nameSemi, .mark .semi => .ok { reader with state := .flagOrSemi }
  | .flagOrSemi, .word flag => reader.addFlag column flag
  | .flag, .word flag => reader.addFlag column flag
  | .flagOrSemi, .mark .semi => .ok { reader with state := .conditionOrSemi }
  | .afterFlag, .mark .semi => .ok { reader with state := .conditionOrSemi }
  | .afterFlagArgument, .mark .semi => .ok { reader with state := .conditionOrSemi }
  | .afterFlag, .mark .bar => .ok { reader with state := .flag }
  | .afterFlagArgument, .mark .bar => .ok { reader with state := .flag }
  | .afterFlag, .mark .opening => .ok { reader with state := .flagArgument }
  | .flagArgument, .word text => .ok (reader.setFlagArgument (.text text))
  | .flagArgument, .number n => .ok (reader.setFlagArgument (.number n))
  | .flagArgumentEnd, .mark .closing => .ok { reader with state := .afterFlagArgument }
  | .conditionOrSemi, .mark .semi => .ok { reader with state := .endOfLine }
  | .conditionOrSemi, _ => reader.startCondition placed
  | .condition, _ => reader.startCondition placed
  | .location, .word name => .ok (reader.push .afterCondition (.location reader.sign name))
  | .function, .word name => .ok { reader with state := .afterFunction, function := some name }
  | .afterFunction, .mark .opening => .ok { reader with state := .functionArgument }
  | .afterFunction, .mark .semi => (reader.pushCall .afterFunction none).separate placed
  | .afterFunction, .mark .amp => (reader.pushCall .afterFunction none).separate placed
  | .afterFunction, .mark .bar => (reader.pushCall .afterFunction none).separate placed
  | .afterFunction, .mark .closing => (reader.pushCall .afterFunction none).separate placed
  | .functionArgument, .word text =>
    .ok (reader.pushCall .functionArgumentEnd (some (.text text)))
  | .functionArgument, .number n =>
    .ok (reader.pushCall .functionArgumentEnd (some (.number n)))
  | .functionArgumentEnd, .mark .closing => .ok { reader with state := .afterCondition }
  | .afterCondition, .mark .opening =>
    match reader.level.newest with
    | .item .. :: _ => .ok { reader with state := .quantity }
    | _ => .error (.quantityTarget column)
  | .afterCondition, _ => reader.separate placed
  | .quantity, .number n =>
    if n = 0 then .error (.nonNaturalQuantity column n) else .ok (reader.setQuantity n)
  | .quantityEnd, .mark .closing => .ok { reader with state := .afterCondition }
  | _, _ => .error (reader.unexpected placed)

/-- What the line states, once it ends at the column `stop`. -/
def finish (stop line : Nat) (reader : LineReader) : Except Fault RuleLine :=
  if reader.state.acceptsEnd then
    match reader.goal, reader.name with
    | some goal, _ => .ok (.goal goal)
    | none, none => .ok .blank
    | none, some name => do
      let flags ← recognizeFlags name reader.flags
      return .rule { name, flags, operator := reader.level.operator,
                     conditions := reader.level.conditions, line := UInt64.ofNat line }
  else .error (.unexpected stop none reader.state.expected)

/-- Takes the tokens up to the end of the line. -/
def finishFrom (stop line : Nat) (reader : LineReader) : List Placed → Except Fault RuleLine
  | [] => reader.finish stop line
  | placed :: rest => do
    let reader ← reader.step placed
    finishFrom stop line reader rest

/-- What a line with these tokens states. -/
def run (stop line : Nat) (tokens : List Placed) : Except Fault RuleLine :=
  finishFrom stop line {} tokens

end LineReader

end Reachability.Sheet
