import Reachability.Flag.Effect
import Reachability.Table.Basic

/-!
# Session — the role of an entry

Under given options an entry is a location, an item, both, or neither, which makes it an event.
It may also be disposed: then it does not exist.
-/

namespace Reachability

/-- What an entry is under given options. -/
structure Role where
  location : Bool
  item : Bool
  disposed : Bool
  deriving DecidableEq, Repr

/-- Whether the entry is an event: no location and no item. -/
def Role.isEvent (role : Role) : Bool := !role.location && !role.item

namespace Flags

/-- Whether some flag has `effect` under `options`. -/
def hasEffect (options : Options) (flags : Flags) (effect : Effect) : Bool :=
  flags.any fun flag => (flag.effects options).contains effect

/-- Whether the flags say which kind of achievement a rule is.  Such a rule exists if its kind
does, even when plain achievements do not. -/
def isSpecialAchievement (flags : Flags) : Bool :=
  flags.contains .early || flags.contains .grindy || flags.contains .fishing

/-- Whether some flag removes its rule. -/
def disposes (options : Options) (flags : Flags) : Bool :=
  flags.any fun flag =>
    (flag.effects options).contains .dispose &&
      !(flag == .achievement && flags.isSpecialAchievement)

/-- Whether the copy numbered `copy` of a bank is beyond the limit of some flag. -/
def exceedsLimit (options : Options) (flags : Flags) (copy : Option UInt32) : Bool :=
  flags.any fun flag =>
    match flag.copyLimit options, copy with
    | some limit, some copy => limit < copy
    | _, _ => false

end Flags

/-- The role of an entry under `options`. -/
def Entry.role (options : Options) (entry : Entry) : Role where
  location :=
    entry.flags.hasEffect options .location || entry.flags.hasEffect options .multiLocation
  item := entry.flags.hasEffect options .item && options.classPreference.accepts entry.flags
  disposed := entry.flags.disposes options || entry.flags.exceedsLimit options entry.copy

end Reachability
