import Reachability.Proofs.Session.Marking
import Reachability.Proofs.Table.Descents
import Reachability.Table.Draft

/-!
# Session — rules made by hand

The compiler checks names, arguments and descents, but not that several conditions of one group
have an operator.  Rules that are made by hand can lack one.  A query of a compiled table succeeds
unless such a bare group stands in a rule that the query may enter, and then the number of its
conditions is all that it reports (`Session.canReach_of_compile`).
-/

namespace Reachability

/-- An entry that may be entered is one that the names of the rules lead to. -/
theorem Table.descends_of_mayEnter {sheet : RuleSheet} {rewards : RewardSheet} {table : Table}
    (hcompile : compile sheet rewards = .ok table) {start i : Nat} (hmay : table.MayEnter start i)
    {first last : Entry} (hfirst : table.entries[start]? = some first)
    (hlast : table.entries[i]? = some last) :
    Relation.ReflTransGen (Descends sheet.rules) first.name last.name := by
  obtain ⟨blocks, hblocks, rfl, -⟩ := compile_spec hcompile
  have hname : ∀ {k : Nat} {entry : Entry}, blocks.flatten[k]? = some entry →
      (entryNames sheet.rules)[k]? = some entry.name := by
    intro k entry hentry
    rw [← map_name_flatten_entries hblocks, List.getElem?_map, hentry]
    rfl
  induction hmay generalizing last with
  | start =>
    obtain rfl := Option.some.inj (hfirst.symm.trans hlast)
    exact .refl
  | @descend j k _ hk ih =>
    obtain ⟨a, b, ha, hb, hab⟩ := descends_of_mem_descentsOf hblocks hk
    obtain rfl := Option.some.inj (hb.symm.trans (hname hlast))
    -- the walk ends at an entry that leads on, so there is one
    obtain ⟨middle, hmiddle, -⟩ : ∃ entry, blocks.flatten[j]? = some entry ∧ entry.name = a := by
      rw [← map_name_flatten_entries hblocks, List.getElem?_map] at ha
      exact Option.map_eq_some_iff.mp ha
    obtain rfl := Option.some.inj (ha.symm.trans (hname hmiddle))
    exact (ih hmiddle).tail hab

namespace Session

/-- Asking a compiled table for any of its rules succeeds if the conditions of all rules are
joined.  If it fails, a rule that the name of the asked one leads to has a bare group, and the
query reports how many conditions this has. -/
theorem canReach_of_compile {sheet : RuleSheet} {rewards : RewardSheet} {table : Table}
    (hcompile : Table.compile sheet rewards = .ok table) {options : Options} {session : Session}
    (hsession : table.session options = .ok session) (has : Holdings) {name : String}
    (hname : name ∈ table.names) :
    ((∀ rule ∈ sheet.rules, rule.Joined) → ∃ reached, session.canReach has name = .ok reached) ∧
      ∀ error, session.canReach has name = .error error →
        ∃ rule ∈ sheet.rules, ∃ slot ∈ rule.slots, ∃ count,
          Relation.ReflTransGen (Descends sheet.rules) name slot.name ∧
          (Condition.group true rule.operator rule.conditions : Statement).BareGroup count ∧
          error = .ambiguousOperator count := by
  obtain rfl := table_of_session hsession
  have hsound := Table.sound_of_compile hcompile
  obtain ⟨start, hindex, -⟩ := Table.exists_indexOf? hname
  have hstart := Table.lt_of_indexOf? hindex
  obtain ⟨first, hfirst, rfl⟩ := Table.exists_entry_of_indexOf? hindex
  have hfails : (session.canReach has first.name).FailsOnly fun error =>
      ∃ rule ∈ sheet.rules, ∃ slot ∈ rule.slots, ∃ count,
        Relation.ReflTransGen (Descends sheet.rules) first.name slot.name ∧
        (Condition.group true rule.operator rule.conditions : Statement).BareGroup count ∧
        error = .ambiguousOperator count := by
    rw [canReach_eq_enter hsound hindex]
    refine failsOnly_enter hsound (fun i hi hmay count hbare => ?_) hstart
    have hwalk := Table.descends_of_mayEnter hcompile hmay hfirst (List.getElem?_eq_getElem hi)
    obtain ⟨rule, hrule, slot, hmakes⟩ := Table.exists_makes hcompile (List.getElem_mem hi)
    rw [hmakes.name] at hwalk
    have hresolves := Condition.resolves_of_resolve hmakes.tree
    exact ⟨rule, hrule, slot, hmakes.mem, count, hwalk, hresolves.bareGroups count hbare, rfl⟩
  refine ⟨fun hjoined => ?_, hfails⟩
  refine Except.FailsOnly.exists_ok fun error herror => ?_
  obtain ⟨rule, hrule, slot, -, count, -, hbare, -⟩ := hfails error herror
  exact Condition.joined_iff.mp (hjoined rule hrule) count hbare

/-- The torch needs the condition of the cave, and every group has its operator. -/
theorem canReach_of_compile_torchSheet : ∃ session,
    Table.compile Table.torchSheet {} = .ok Table.torchTable ∧
      Table.torchTable.session {} = .ok session ∧
      ∀ has, ∃ reached, session.canReach has "Torch" = .ok reached := by
  let session : Session := ⟨Table.torchTable, {}, some ⟨"night", 4, ∅⟩⟩
  have hcompile : Table.compile Table.torchSheet {} = .ok Table.torchTable := rfl
  have hsession : Table.torchTable.session {} = .ok session := rfl
  have hjoined : ∀ rule ∈ Table.torchSheet.rules, rule.Joined := by
    simp [Table.torchSheet, Rule.Joined]
  exact ⟨session, hcompile, hsession, fun has =>
    (canReach_of_compile hcompile hsession has List.mem_cons_self).1 hjoined⟩

/-- The compiler accepts a rule with two conditions and no operator, and asking for it fails. -/
theorem canReach_of_compile_fails : ∃ table session,
    (Draft.ofSteps [.rule
        { name := "A", conditions := [.item true "A" 1, .item true "A" 1] }]).compile = .ok table ∧
      table.session {} = .ok session ∧
      session.canReach (fun _ _ => false) "A" = .error (.ambiguousOperator 2) :=
  ⟨_, _, rfl, rfl, rfl⟩

end Session

end Reachability
