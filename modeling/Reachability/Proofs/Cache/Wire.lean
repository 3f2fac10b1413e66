import Mathlib
import Reachability.Cache.Wire

/-!
# Cache — what is written is read back

A wire is faithful where the value it reads is the one it wrote, whatever follows.  Combined wires
are faithful if their parts are, so that the format of a table needs one line for each field.
-/

namespace Reachability.Cache

/-! ### Numbers -/

theorem takeBytes_append (taken rest : List UInt8) :
    takeBytes taken.length (taken ++ rest) = some (taken, rest) := by
  induction taken with
  | nil => rfl
  | cons b taken ih => simp [takeBytes, ih]

theorem length_littleEndian (width n : Nat) : (littleEndian width n).length = width := by
  induction width generalizing n with
  | zero => rfl
  | succ width ih => simp [littleEndian, ih]

theorem valueOf_littleEndian {width n : Nat} (h : n < 256 ^ width) :
    valueOf (littleEndian width n) = n := by
  induction width generalizing n with
  | zero => simp only [Nat.pow_zero] at h; simp [littleEndian, valueOf]; omega
  | succ width ih =>
    have hd : n / 256 < 256 ^ width := by
      rw [Nat.div_lt_iff_lt_mul (by decide)]
      rwa [Nat.pow_succ] at h
    simp only [littleEndian, valueOf, ih hd, UInt8.toNat_ofNat']
    omega

theorem readFixed_append (width : Nat) {n : Nat} (h : n < 256 ^ width) (rest : List UInt8) :
    readFixed width (littleEndian width n ++ rest) = some (n, rest) := by
  have := takeBytes_append (littleEndian width n) rest
  rw [length_littleEndian] at this
  simp [readFixed, this, valueOf_littleEndian h]

/-- A number that is written is read back, whatever follows it. -/
theorem readVarint_writeVarint {n : Nat} (h : n < 2 ^ 64) (rest : List UInt8) :
    readVarint true (writeVarint n ++ rest) = some (n, rest) := by
  unfold writeVarint
  split
  · next hn =>
    have hb : (UInt8.ofNat n).toNat = n := by rw [UInt8.toNat_ofNat']; omega
    have hle : UInt8.ofNat n ≤ 250 := by rw [UInt8.le_iff_toNat_le, hb]; exact hn
    simp [readVarint, hle, hb]
  · split
    · next hn => exact readFixed_append 2 hn rest
    · split
      · next hn => exact readFixed_append 4 hn rest
      · exact readFixed_append 8 h rest

/-- A number of at most four bytes that is written is read back even where eight are refused. -/
theorem readVarint_writeVarint_narrow {n : Nat} (h : n < 2 ^ 32) (rest : List UInt8) :
    readVarint false (writeVarint n ++ rest) = some (n, rest) := by
  unfold writeVarint
  split
  · next hn =>
    have hb : (UInt8.ofNat n).toNat = n := by rw [UInt8.toNat_ofNat']; omega
    have hle : UInt8.ofNat n ≤ 250 := by rw [UInt8.le_iff_toNat_le, hb]; exact hn
    simp [readVarint, hle, hb]
  · split
    · next hn => exact readFixed_append 2 hn rest
    · rw [if_pos (show n < 0x100000000 from h)]
      exact readFixed_append 4 h rest

namespace Wire

variable {α β : Type} {P : α → Prop} {Q : β → Prop}

/-- The wire reads back the values in `P` that it writes, as long as they take up fewer than 2^64
bytes, and it writes at least one byte of each value. -/
structure Faithful (wire : Wire α) (P : α → Prop) : Prop where
  nonempty : ∀ a, 0 < (wire.write a).length
  read_write : ∀ {a : α}, P a → (wire.write a).length < 2 ^ 64 →
    ∀ rest, wire.read (wire.write a ++ rest) = some (a, rest)

theorem Faithful.mono {wire : Wire α} (h : wire.Faithful P) {P' : α → Prop}
    (hP : ∀ a, P' a → P a) : wire.Faithful P' :=
  ⟨h.nonempty, fun ha => h.read_write (hP _ ha)⟩

/-- A value that follows one byte, its alternative, is read back into that alternative. -/
theorem Faithful.read_alternative {wire : Wire α} (h : wire.Faithful P) (f : α → β) {a : α}
    (ha : P a) {b : UInt8} (hlength : (b :: wire.write a).length < 2 ^ 64) (rest : List UInt8) :
    ((wire.read (wire.write a ++ rest)).map fun (a, rest) => (f a, rest)) = some (f a, rest) := by
  rw [h.read_write ha (Nat.lt_of_succ_lt hlength), Option.map_some]

theorem length_writeVarint_pos (n : Nat) : 0 < (writeVarint n).length := by
  unfold writeVarint
  split
  · exact Nat.one_pos
  · split
    · exact Nat.succ_pos _
    · split <;> exact Nat.succ_pos _

/-! ### Single values -/

theorem faithful_count : count.Faithful (· < 2 ^ 64) :=
  ⟨length_writeVarint_pos, fun h _ => readVarint_writeVarint h⟩

theorem faithful_word : word.Faithful fun _ => True := by
  refine ⟨fun w => length_writeVarint_pos w.toNat, fun {w} _ _ rest => ?_⟩
  simp only [word, readVarint_writeVarint w.toNat_lt, Option.map_some, UInt64.ofNat_toNat]

theorem faithful_shortWord : shortWord.Faithful fun _ => True := by
  refine ⟨fun w => length_writeVarint_pos w.toNat, fun {w} _ _ rest => ?_⟩
  simp only [shortWord, readVarint_writeVarint_narrow w.toNat_lt, Option.map_some,
    UInt32.ofNat_toNat]

theorem faithful_tag : tag.Faithful (· < 2 ^ 32) :=
  ⟨length_writeVarint_pos, fun h _ => readVarint_writeVarint_narrow h⟩

theorem faithful_truth : truth.Faithful fun _ => True := by
  refine ⟨fun b => ?_, fun {b} _ _ rest => ?_⟩
  · cases b <;> decide
  · cases b <;> rfl

theorem faithful_text : text.Faithful fun _ => True := by
  refine ⟨fun s => ?_, fun {s} _ hlength rest => ?_⟩
  · rw [text, List.length_append]
    exact Nat.add_pos_left (length_writeVarint_pos _) _
  · have hsize : s.toUTF8.size = s.toUTF8.data.toList.length := rfl
    have hbound : s.toUTF8.size < 2 ^ 64 := by
      rw [text, List.length_append, ← hsize] at hlength
      omega
    have hutf : String.fromUTF8? ⟨s.toUTF8.data.toList.toArray⟩ = some s := by
      rw [Array.toArray_toList]
      exact dif_pos s.isValidUTF8
    simp only [text, List.append_assoc, readVarint_writeVarint hbound, bind, Option.bind]
    rw [hsize, takeBytes_append]
    dsimp only
    rw [hutf]
    rfl

theorem faithful_raw {size : Nat} (h : 0 < size) : (raw size).Faithful fun _ => True := by
  refine ⟨fun v => by simpa [raw] using h, fun {v} _ _ rest => ?_⟩
  have hlength : v.toList.length = size := Vector.length_toList
  have htake := takeBytes_append v.toList rest
  rw [hlength] at htake
  simp only [raw, htake, bind, Option.bind]
  rw [dif_pos hlength]
  obtain ⟨as, has⟩ := v
  simp only [Vector.toList, Array.toArray_toList, pure]

/-! ### Combined values -/

theorem Faithful.option {wire : Wire α} (h : wire.Faithful P) :
    wire.option.Faithful fun o => ∀ a ∈ o, P a := by
  refine ⟨fun o => ?_, fun {o} hP hlength rest => ?_⟩
  · cases o <;> exact Nat.succ_pos _
  · cases o with
    | none => rfl
    | some a =>
      have hlength : (wire.write a).length < 2 ^ 64 := Nat.lt_of_succ_lt hlength
      simp only [Wire.option, List.cons_append, h.read_write (hP a rfl) hlength rest,
        Option.map_some]

theorem Faithful.pair {first : Wire α} {second : Wire β} (h : first.Faithful P)
    (h' : second.Faithful Q) : (first.pair second).Faithful fun ab => P ab.1 ∧ Q ab.2 := by
  refine ⟨fun ab => ?_, fun {ab} hPQ hlength rest => ?_⟩
  · rw [Wire.pair, List.length_append]
    exact Nat.add_pos_left (h.nonempty ab.1) _
  · rw [Wire.pair, List.length_append] at hlength
    simp only [Wire.pair, List.append_assoc, h.read_write hPQ.1 (by omega), bind, Option.bind,
      h'.read_write hPQ.2 (by omega)]
    rfl

theorem Faithful.via {wire : Wire β} (h : wire.Faithful Q) {parts : α → β} {whole : β → α}
    (hwhole : ∀ a, whole (parts a) = a) :
    (wire.via parts whole).Faithful fun a => Q (parts a) := by
  refine ⟨fun a => h.nonempty (parts a), fun {a} hQ hlength rest => ?_⟩
  simp only [Wire.via, h.read_write hQ hlength, Option.map_some, hwhole]

/-- Values that are each read back whatever follows are read back one after another. -/
theorem readMany_flatMap {read : List UInt8 → Option (α × List UInt8)} {write : α → List UInt8}
    {as : List α} (h : ∀ a ∈ as, ∀ rest, read (write a ++ rest) = some (a, rest))
    (rest : List UInt8) : readMany read as.length (as.flatMap write ++ rest) = some (as, rest) := by
  induction as with
  | nil => rfl
  | cons a as ih =>
    have hread := ih fun b hb => h b (List.mem_cons_of_mem a hb)
    simp only [List.length_cons, readMany, List.flatMap_cons, List.append_assoc,
      h a List.mem_cons_self, bind, Option.bind, hread]
    rfl

/-- Values that take up bytes take up at least as many bytes as they are. -/
theorem length_le_length_flatMap {write : α → List UInt8} (h : ∀ a, 0 < (write a).length)
    (as : List α) : as.length ≤ (as.flatMap write).length := by
  induction as with
  | nil => exact Nat.le_refl 0
  | cons a as ih =>
    have := h a
    rw [List.flatMap_cons, List.length_append, List.length_cons]
    omega

/-- What is written of one of some values is not longer than what is written of all. -/
theorem length_write_le {write : α → List UInt8} {as : List α} {a : α} (h : a ∈ as) :
    (write a).length ≤ (as.flatMap write).length := by
  obtain ⟨before, after, rfl⟩ := List.append_of_mem h
  simp only [List.flatMap_append, List.flatMap_cons, List.length_append]
  omega

theorem Faithful.list {wire : Wire α} (h : wire.Faithful P) :
    wire.list.Faithful fun as => ∀ a ∈ as, P a := by
  refine ⟨fun as => ?_, fun {as} hP hlength rest => ?_⟩
  · rw [Wire.list, List.length_append]
    exact Nat.add_pos_left (length_writeVarint_pos _) _
  · rw [Wire.list, List.length_append] at hlength
    -- there are no more values than bytes, so their number is below 2^64 too
    have hcount := length_le_length_flatMap h.nonempty as
    simp only [Wire.list, List.append_assoc]
    rw [readVarint_writeVarint (by omega)]
    refine readMany_flatMap (fun a ha rest => h.read_write (hP a ha) ?_ rest) rest
    have : (wire.write a).length ≤ (as.flatMap wire.write).length := length_write_le ha
    omega

end Wire

end Reachability.Cache
