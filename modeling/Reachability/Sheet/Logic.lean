import Reachability.Sheet.Place

/-!
# Sheet — reading conditions

The conditions of a line are read from left to right.  `Level` is what has been read of the
innermost open group, and `OpenGroup` what is kept of each group around it.
-/

namespace Reachability.Sheet

/-- The conditions read on one level, the newest first, and the operator that joins them. -/
structure Level where
  operator : Option Operator := none
  newest : List Statement := []

/-- A group that was opened: its sign, and the level it stands on. -/
structure OpenGroup where
  sign : Bool
  level : Level

namespace Level

/-- The level with one more condition. -/
def add (level : Level) (condition : Statement) : Level :=
  { level with newest := condition :: level.newest }

/-- The conditions of the level, in order. -/
def conditions (level : Level) : List Statement := level.newest.reverse

/-- The level with its conditions joined by `operator`, unless another one joins them already. -/
def join (level : Level) (column : Nat) (operator : Operator) : Except Fault Level :=
  match level.operator with
  | none => .ok { level with operator := some operator }
  | some existing =>
    if existing = operator then .ok level
    else .error (.operatorConflict column operator existing)

end Level

/-- The level around a group, with the group closed. -/
def OpenGroup.close (opened : OpenGroup) (inner : Level) : Level :=
  opened.level.add (.group opened.sign inner.operator inner.conditions)

/-- Whether a condition can start with this token. -/
def startsCondition : Token → Bool
  | .word _ | .mark .hash | .mark .atSign | .mark .tilde | .mark .opening => true
  | _ => false

/-- Whether a function without an argument can end here. -/
def endsCall : List Placed → Bool
  | ⟨_, .mark .semi⟩ :: _ | ⟨_, .mark .amp⟩ :: _ | ⟨_, .mark .bar⟩ :: _
  | ⟨_, .mark .closing⟩ :: _ => true
  | _ => false

section
variable (stop : Nat)

mutual
/-- Reads on where a condition has to start, with the sign that the `~` before it make. -/
def atCondition (outer : List OpenGroup) (level : Level) (sign : Bool) :
    List Placed → Except Fault Level
  | ⟨_, .word name⟩ :: rest => afterCondition outer (level.add (.item sign name 1)) rest
  | ⟨_, .mark .tilde⟩ :: rest => atCondition outer level (!sign) rest
  | ⟨_, .mark .opening⟩ :: rest => atCondition (⟨sign, level⟩ :: outer) {} true rest
  | ⟨_, .mark .hash⟩ :: rest =>
    match rest with
    | ⟨_, .word name⟩ :: rest => afterCondition outer (level.add (.location sign name)) rest
    | _ => .error (misplaced stop rest .name)
  | ⟨_, .mark .atSign⟩ :: rest =>
    match rest with
    | ⟨_, .word name⟩ :: rest =>
      if endsCall rest then afterCondition outer (level.add (.call sign name none)) rest
      else
        match rest with
        | ⟨_, .mark .opening⟩ :: rest =>
          match rest with
          | ⟨column, token⟩ :: rest =>
            match Argument.ofToken? token with
            | some argument =>
              match rest with
              | ⟨_, .mark .closing⟩ :: rest =>
                afterCondition outer (level.add (.call sign name (some argument))) rest
              | _ => .error (misplaced stop rest .closing)
            | none => .error (.unexpected (column + 1) (some token) .argument)
          | [] => .error (misplaced stop [] .argument)
        | _ => .error (misplaced stop rest .afterFunction)
    | _ => .error (misplaced stop rest .name)
  | tokens => .error (misplaced stop tokens .condition)

/-- Reads on after a complete condition, up to the end of the line. -/
def afterCondition (outer : List OpenGroup) (level : Level) : List Placed → Except Fault Level
  | ⟨column, .mark .semi⟩ :: rest =>
    if outer.isEmpty then do
      endOfLine stop rest
      return level
    else .error (.unclosedGroup (column + 1))
  | ⟨column, .mark .amp⟩ :: rest => do
    let level ← level.join (column + 1) .and
    atCondition outer level true rest
  | ⟨column, .mark .bar⟩ :: rest => do
    let level ← level.join (column + 1) .or
    atCondition outer level true rest
  | ⟨column, .mark .closing⟩ :: rest =>
    match outer with
    | [] => .error (.unmatchedClosing (column + 1))
    | opened :: outer => afterCondition outer (opened.close level) rest
  | ⟨column, .mark .opening⟩ :: rest =>
    match level.newest with
    | .item sign name _ :: older =>
      match rest with
      | ⟨column, .number quantity⟩ :: rest =>
        if quantity = 0 then .error (.nonNaturalQuantity (column + 1) quantity)
        else
          match rest with
          | ⟨_, .mark .closing⟩ :: rest =>
            afterCondition outer { level with newest := .item sign name quantity :: older } rest
          | _ => .error (misplaced stop rest .closing)
      | _ => .error (misplaced stop rest .number)
    | _ => .error (.quantityTarget (column + 1))
  | tokens => .error (misplaced stop tokens .afterCondition)
end

/-- Reads the conditions of a line, which may be left out. -/
def readConditions (tokens : List Placed) : Except Fault Level :=
  match tokens with
  | [] => .ok {}
  | ⟨_, .mark .semi⟩ :: rest => do
    endOfLine stop rest
    return {}
  | t :: _ =>
    if startsCondition t.token then atCondition stop [] {} true tokens
    else .error (misplaced stop tokens .conditionOrSemi)

end

end Reachability.Sheet
