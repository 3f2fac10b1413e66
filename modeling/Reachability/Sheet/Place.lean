import Reachability.Sheet.Fault

/-!
# Sheet — reading tokens in order

Small steps shared by the readers of lines.  `stop` is the column of the end of the line, where a
line that ends too early is reported.
-/

namespace Reachability.Sheet

/-- The fault of `tokens` where only `expected` may stand. -/
def misplaced (stop : Nat) (tokens : List Placed) (expected : Expected) : Fault :=
  match tokens with
  | [] => .unexpected stop none expected
  | t :: _ => .unexpected (t.column + 1) (some t.token) expected

/-- Nothing may follow. -/
def endOfLine (stop : Nat) (tokens : List Placed) : Except Fault Unit :=
  if tokens.isEmpty then .ok () else .error (misplaced stop tokens .endOfLine)

end Reachability.Sheet
