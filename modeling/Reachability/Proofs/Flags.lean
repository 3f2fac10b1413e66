import Reachability.Flag.Flags

/-!
# Flag — flags by their names

Sheets and stored tables spell flags by name.  The names say which flags they are.
-/

namespace Reachability

/-- The flags by their names. -/
def Flags.named (flags : Flags) : List (String × Option Argument) :=
  flags.entries.map fun (flag, argument) => (flag.name, argument)

theorem Flags.named_injective {f g : Flags} (h : f.named = g.named) : f = g := by
  refine Flags.ext ((List.map_inj_right fun x y hxy => ?_).mp h)
  obtain ⟨hname, hargument⟩ := Prod.mk.inj hxy
  exact Prod.ext (Flag.name_injective hname) hargument

theorem Flags.map_fst_named (flags : Flags) :
    flags.named.map Prod.fst = (flags.entries.map Prod.fst).map Flag.name := by
  simp [named]

/-- Different flags have different names. -/
theorem Flags.nodup_named (flags : Flags) : (flags.named.map Prod.fst).Nodup := by
  rw [map_fst_named]
  exact List.Pairwise.map Flag.name (fun _ _ hne h => hne (Flag.name_injective h)) flags.nodup

/-- A flag is there exactly if its name is. -/
theorem Flags.contains_iff_named {flags : Flags} {flag : Flag} :
    flags.contains flag = true ↔ flag.name ∈ flags.named.map Prod.fst := by
  rw [contains_iff, map_fst_named]
  constructor
  · exact fun h => List.mem_map_of_mem h
  · intro h
    obtain ⟨g, hg, hname⟩ := List.mem_map.mp h
    rwa [← Flag.name_injective hname]

theorem Flags.named_insert {flags : Flags} {flag : Flag}
    (h : flag.name ∉ flags.named.map Prod.fst) (argument : Option Argument) :
    (flags.insert flag argument).named = flags.named ++ [(flag.name, argument)] := by
  rw [← contains_iff_named, Bool.not_eq_true] at h
  simp [named, entries_insert h]

end Reachability
