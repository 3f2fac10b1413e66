import Reachability.Cache.Error
import Reachability.Session.Error
import Reachability.Sheet.Fault
import Reachability.Table.Error

/-!
# Error — all that can go wrong

One type for the errors of sheets, tables, sessions and stored tables.
-/

namespace Reachability

/-- An error of any part of the library. -/
inductive Error where
  | sheet (error : SheetError)
  | table (error : TableError)
  | query (error : QueryError)
  | cache (error : Cache.CacheError)
  deriving DecidableEq, Repr

/-- The message of an error. -/
def Error.message : Error → String
  | sheet error => error.message
  | table error => error.message
  | query error => error.message
  | cache error => error.message

end Reachability
