import Reachability.Argument
import Reachability.Flag.Vocabulary

/-!
# Flag — the flags of a rule

The flags of a rule in the order they were given, each with its argument, none of them twice.
-/

namespace Reachability

/-- The flags of a rule, in order, without repetition. -/
structure Flags where
  entries : List (Flag × Option Argument)
  nodup : (entries.map Prod.fst).Nodup
  deriving DecidableEq

namespace Flags

/-- No flags. -/
def empty : Flags := ⟨[], List.nodup_nil⟩

instance : EmptyCollection Flags := ⟨empty⟩
instance : Inhabited Flags := ⟨empty⟩

/-- Whether `flag` is among the flags. -/
def contains (flags : Flags) (flag : Flag) : Bool := flags.entries.any (·.1 == flag)

/-- The argument of `flag`, where the outer option says whether the flag is there. -/
def get? (flags : Flags) (flag : Flag) : Option (Option Argument) :=
  (flags.entries.find? (·.1 == flag)).map Prod.snd

/-- Whether some flag has the property `p`. -/
def any (flags : Flags) (p : Flag → Bool) : Bool := flags.entries.any (p ·.1)

theorem contains_iff {flags : Flags} {flag : Flag} :
    flags.contains flag = true ↔ flag ∈ flags.entries.map Prod.fst := by
  simp [contains]

/-- The flags with `flag` added at the end, unless it is there already. -/
def insert (flags : Flags) (flag : Flag) (argument : Option Argument) : Flags :=
  if h : flags.contains flag = true then flags
  else
    { entries := flags.entries ++ [(flag, argument)]
      nodup := by
        rw [List.map_append, List.nodup_append]
        refine ⟨flags.nodup, by simp, fun a ha b hb => ?_⟩
        rw [show b = flag by simpa using hb]
        rintro rfl
        exact h (contains_iff.mpr ha) }

@[ext] theorem ext {f g : Flags} (h : f.entries = g.entries) : f = g := by
  cases f; cases g; cases h; rfl

theorem entries_insert {flags : Flags} {flag : Flag} (h : flags.contains flag = false)
    (argument : Option Argument) :
    (flags.insert flag argument).entries = flags.entries ++ [(flag, argument)] := by
  rw [insert, dif_neg (by simp [h])]

/-- A flag is found exactly with the argument it stands with. -/
theorem get?_eq_some_iff {flags : Flags} {flag : Flag} {argument : Option Argument} :
    flags.get? flag = some argument ↔ (flag, argument) ∈ flags.entries := by
  have h := flags.nodup
  unfold get?
  generalize flags.entries = entries at h
  induction entries with
  | nil => simp
  | cons entry rest ih =>
    obtain ⟨hnot, hrest⟩ := List.nodup_cons.mp h
    by_cases he : entry.1 = flag
    · subst he
      have : (entry.1, argument) ∉ rest := fun hm => hnot (List.mem_map.mpr ⟨_, hm, rfl⟩)
      simp [this, Prod.ext_iff, eq_comm]
    · simp [he, ih hrest, Prod.ext_iff, Ne.symm he]

/-- The flags made of `entries`, where the first of two equal flags counts. -/
def ofList (entries : List (Flag × Option Argument)) : Flags :=
  entries.foldl (fun flags entry => flags.insert entry.1 entry.2) empty

/-- One flag as it is written in a line. -/
def writtenEntry (entry : Flag × Option Argument) : List Char :=
  entry.1.name.toList ++ writtenArgument entry.2

/-- The flags as they are written in a line, with `|` between them. -/
def written (flags : Flags) : List Char :=
  List.intercalate ['|'] (flags.entries.map writtenEntry)

end Flags

end Reachability
