import Reachability.Cache.Store
import Reachability.Proofs.Cache.Accept
import Reachability.Proofs.Cache.Payload
import Reachability.Proofs.Cache.Seal
import Reachability.Proofs.Table.Compiled

/-!
# Cache — a stored table is read back

Unsealing undoes sealing, reading a payload undoes writing it, and accepting it gives the table
again (`Table.ofBytes_toBytes`).  A table that no sheet and no stored table gives is left out: its
payload may be refused.  Of any table, bytes that were cut off are missed, and bytes that are not
read can be changed (`Table.ofBytes_altered`).
-/

namespace Reachability

namespace Cache

/-- What is read of a sealed payload is the payload. -/
theorem readPayload_sealed {payload : Payload} (hsmall : Wire.Small payload)
    (h : (Wire.payload.write payload).length < 2 ^ 32) :
    readPayload (sealed (Wire.payload.write payload)) = .ok payload := by
  have hread := Wire.faithful_payload.read_write hsmall (by omega) []
  rw [List.append_nil] at hread
  simp only [readPayload, unsealed_sealed h, bind, Except.bind, hread]
  rfl

/-- The payload of a sound table is small if it takes up few bytes: every index is below the
number of rules, each of which takes up bytes. -/
theorem small_payload {table : Table} (hsound : table.Sound) {source : Option Blake3.Digest}
    (h : (Wire.payload.write (table.payload source)).length < 2 ^ 32) :
    Wire.Small (table.payload source) := by
  have hchecked := checked_payload hsound source
  obtain ⟨hrules, hgoals, hrewards⟩ := Wire.length_le_length_payload (table.payload source)
  constructor
  case metadata =>
    rw [hchecked.rules, hchecked.goals, hchecked.rewards]
    omega
  case references =>
    intro rule hrule index hindex
    have := hchecked.references index (List.mem_flatMap.mpr ⟨rule, hrule, hindex⟩)
    omega
  case stops =>
    intro goal hgoal
    have := hchecked.goalsFit.le (List.mem_map_of_mem hgoal)
    dsimp only at this
    omega
  case capabilities =>
    intro index hindex
    have := hchecked.capabilities index hindex
    omega

end Cache

/-! ### Tables -/

namespace Table

open Cache

/-- A table that sheets are compiled to or that bytes store. -/
def Made (table : Table) : Prop :=
  (∃ sheet rewards, compile sheet rewards = .ok table) ∨ ∃ blob, ofBytes blob = .ok table

/-- A table is read from bytes by accepting the payload in them. -/
theorem ofBytes_eq_ok_iff {blob : List UInt8} {table : Table} :
    ofBytes blob = .ok table ↔ ∃ payload, readPayload blob = .ok payload ∧
      payload.accept = .ok table := by
  rw [ofBytes, Except.bind_eq_ok_iff]
  refine exists_congr fun payload => and_congr_right fun _ => ?_
  cases payload.accept with
  | ok accepted => simp [pure, Except.pure]
  | error flaw => exact ⟨nofun, nofun⟩

/-- A table read from bytes is sound, and its groups are joined. -/
theorem sound_of_ofBytes {blob : List UInt8} {table : Table} (h : ofBytes blob = .ok table) :
    table.Sound ∧ table.Joined := by
  obtain ⟨payload, -, haccept⟩ := ofBytes_eq_ok_iff.mp h
  exact sound_of_accept haccept

theorem Made.sound {table : Table} (h : table.Made) : table.Sound := by
  rcases h with ⟨sheet, rewards, h⟩ | ⟨blob, h⟩
  · exact sound_of_compile h
  · exact (sound_of_ofBytes h).1

/-- The digest that is stored of a source text. -/
def storedDigest (source : Option String) : Option Blake3.Digest :=
  source.map fun text => Blake3.digest text.toUTF8.data.toList

/-- Reading the bytes of a table, unless they are too many for the header, gives back the same
table if every group of several conditions has an operator.  Otherwise the bytes are refused as
invalid.  Either way the digest in them is that of the source text. -/
theorem ofBytes_toBytes {table : Table} (htable : table.Made) (source : Option String)
    (hsize : (Wire.payload.write (table.payload (storedDigest source))).length < 2 ^ 32) :
    (table.Joined → ofBytes (table.toBytes source) = .ok table) ∧
      (¬table.Joined → ∃ count,
        ofBytes (table.toBytes source) = .error (.invalid (.joinlessGroup count))) ∧
      sourceDigest (table.toBytes source) = .ok (storedDigest source) := by
  have hread := readPayload_sealed (small_payload htable.sound hsize) hsize
  have hbytes : table.toBytes source =
      sealed (Wire.payload.write (table.payload (storedDigest source))) := rfl
  obtain ⟨hjoined, hjoinless⟩ := accept_payload htable.sound (storedDigest source)
  rw [hbytes]
  refine ⟨fun h => ofBytes_eq_ok_iff.mpr ⟨_, hread, hjoined h⟩, fun h => ?_, ?_⟩
  · obtain ⟨_, ⟨count, rfl⟩, herror⟩ := hjoinless h
    refine ⟨count, ?_⟩
    simp only [ofBytes, hread, bind, Except.bind, herror]
    rfl
  · rw [sourceDigest, hread]
    rfl

/-- Four rules: a torch needs gel and the condition of the cave, which asks for adequate gear. -/
def torchSheet : RuleSheet where
  rules := [
    { name := "Torch", flags := .ofList [(.location, none)], operator := some .and,
      conditions := [.item true "Gel" 2, .location true "Cave"], line := 1 },
    { name := "Cave", flags := .ofList [(.location, none)],
      conditions := [.call true "gear_power" (some (.number 10))], line := 2 },
    { name := "Gel", flags := .ofList [(.item, none)], line := 3 },
    { name := "Sword", flags := .ofList [(.item, none), (.weaponPower, some (.number 20))],
      line := 4 }]
  goals := [⟨"night", 4, 5⟩]

/-- The table of `torchSheet`. -/
def torchTable : Table where
  entries := [
    { name := "Torch", flags := .ofList [(.location, none)],
      tree := .group true (some .and) [.item true 2 2, .location true 1],
      itemName := none, line := 1, copy := none },
    { name := "Cave", flags := .ofList [(.location, none)],
      tree := .group true none [.call true .gearPower (some (.number 10))],
      itemName := none, line := 2, copy := none },
    { name := "Gel", flags := .ofList [(.item, none)], tree := .group true none [],
      itemName := some "Gel", line := 3, copy := none },
    { name := "Sword", flags := .ofList [(.item, none), (.weaponPower, some (.number 20))],
      tree := .group true none [], itemName := some "Sword", line := 4, copy := none }]
  goals := [⟨"night", 4, ∅⟩]
  labels := []
  rewards := []
  capabilities := { weapons := [(3, 20)] }

theorem made_torchTable : torchTable.Made :=
  .inl ⟨torchSheet, {}, rfl⟩

theorem ofBytes_toBytes_torchTable :
    ofBytes (torchTable.toBytes (some "Torch;Location;")) = .ok torchTable :=
  (ofBytes_toBytes made_torchTable (some "Torch;Location;") (by decide +kernel)).1
    (by simp [Joined, torchTable])

/-! ### Altered bytes -/

theorem length_toBytes (table : Table) (source : Option String) :
    (table.toBytes source).length =
      headerSize + (Wire.payload.write (table.payload (storedDigest source))).length :=
  length_sealed _

/-- Both readers of stored bytes look at them only through the seal. -/
theorem ofBytes_congr {blob other : List UInt8} (h : unsealed blob = unsealed other) :
    ofBytes blob = ofBytes other ∧ sourceDigest blob = sourceDigest other := by
  have hpayload : readPayload blob = readPayload other := by rw [readPayload, readPayload, h]
  constructor
  · rw [ofBytes, ofBytes, hpayload]
  · rw [sourceDigest, sourceDigest, hpayload]

/-- Both readers refuse what cannot be unsealed. -/
theorem ofBytes_of_unsealed_eq_error {blob : List UInt8} {error : CacheError}
    (h : unsealed blob = .error error) :
    ofBytes blob = .error error ∧ sourceDigest blob = .error error := by
  have hpayload : readPayload blob = .error error := by
    rw [readPayload, h]
    rfl
  constructor
  · rw [ofBytes, hpayload]
    rfl
  · rw [sourceDigest, hpayload]
    rfl

/-- Of the bytes of a table, unless they are too many for the header, any that are cut off at the
end are missed: both readers refuse what is left for its length.  Neither bytes that follow nor
other bytes in the places 6 to 11 of the header make a difference to what is read. -/
theorem ofBytes_altered (table : Table) (source : Option String)
    (hsize : (Wire.payload.write (table.payload (storedDigest source))).length < 2 ^ 32) :
    (∀ n < (table.toBytes source).length,
        ofBytes ((table.toBytes source).take n) =
            .error (cutShort (table.toBytes source).length n) ∧
          sourceDigest ((table.toBytes source).take n) =
            .error (cutShort (table.toBytes source).length n)) ∧
      (∀ rest, ofBytes (table.toBytes source ++ rest) = ofBytes (table.toBytes source) ∧
        sourceDigest (table.toBytes source ++ rest) = sourceDigest (table.toBytes source)) ∧
      ∀ unread : List UInt8, unread.length = 6 →
        ofBytes ((table.toBytes source).take 6 ++ unread ++ (table.toBytes source).drop 12) =
            ofBytes (table.toBytes source) ∧
          sourceDigest ((table.toBytes source).take 6 ++ unread ++ (table.toBytes source).drop 12) =
            sourceDigest (table.toBytes source) := by
  have hbytes : table.toBytes source =
      sealed (Wire.payload.write (table.payload (storedDigest source))) := rfl
  rw [hbytes]
  generalize Wire.payload.write (table.payload (storedDigest source)) = payload at hsize
  refine ⟨fun n hn => ofBytes_of_unsealed_eq_error (unsealed_take hsize hn),
    fun rest => ofBytes_congr ?_, fun unread hunread => ofBytes_congr ?_⟩
  · rw [unsealed_sealed hsize, sealed, header_eq_headerWith, List.append_assoc,
      unsealed_payload_append length_unreadBytes hsize]
  · have hpayload := unsealed_payload_append hunread hsize []
    rw [List.append_nil] at hpayload
    rw [unsealed_sealed hsize, take_append_drop_sealed, hpayload]

theorem ofBytes_altered_torchTable :
    (Wire.payload.write (torchTable.payload (storedDigest none))).length < 2 ^ 32 ∧
      sourceDigest ((torchTable.toBytes none).take 11) = .error (.lengthMismatch 32 11) ∧
      ofBytes ((torchTable.toBytes none).take 40) = .error (.lengthMismatch 162 8) ∧
      ofBytes (torchTable.toBytes none ++ [7]) = ofBytes (torchTable.toBytes none) ∧
      ofBytes ((torchTable.toBytes none).take 6 ++ [9, 9, 9, 9, 9, 9] ++
        (torchTable.toBytes none).drop 12) = ofBytes (torchTable.toBytes none) := by
  have hpayload : (Wire.payload.write (torchTable.payload (storedDigest none))).length = 162 := by
    decide +kernel
  have hlength : (torchTable.toBytes none).length = 194 := by rw [length_toBytes, hpayload]; rfl
  have hsize : (Wire.payload.write (torchTable.payload (storedDigest none))).length < 2 ^ 32 := by
    rw [hpayload]
    decide
  obtain ⟨hcut, hmore, hunread⟩ := ofBytes_altered torchTable none hsize
  rw [hlength] at hcut
  exact ⟨hsize, (hcut 11 (by decide)).2, (hcut 40 (by decide)).1, (hmore [7]).1,
    (hunread [9, 9, 9, 9, 9, 9] rfl).1⟩

end Table

end Reachability
