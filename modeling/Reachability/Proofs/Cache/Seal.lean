import Reachability.Cache.Seal
import Reachability.Proofs.Cache.Wire

/-!
# Cache — what a seal notices

Behind the header of a payload, unsealing asks two things only: whether as many bytes follow as the
payload has, and whether these have the digest of the payload (`unsealed_headerWith`).  So bytes cut
off the end are missed wherever the cut is (`unsealed_take`), and bytes added at the end are not
seen, nor is what the six unread bytes of the header say (`unsealed_payload_append`).
-/

namespace Reachability.Cache

variable {payload unread : List UInt8}

theorem length_checksum (payload : List UInt8) : (checksum payload).length = checksumSize := by
  rw [checksum, List.length_take, Vector.length_toList]
  rfl

/-! ### The header -/

/-- The header of a payload with other bytes where it is not read. -/
def headerWith (unread payload : List UInt8) : List UInt8 :=
  magic ++ (littleEndian 2 formatVersion ++
    (unread ++ (littleEndian 4 payload.length ++ checksum payload)))

/-- What a header is written with where it is not read. -/
def unreadBytes : List UInt8 := littleEndian 2 engineVersion ++ littleEndian 4 0

theorem length_unreadBytes : unreadBytes.length = 6 := rfl

theorem header_eq_headerWith (payload : List UInt8) :
    header payload = headerWith unreadBytes payload := by
  simp only [header, headerWith, unreadBytes, List.append_assoc]

theorem length_headerWith (hunread : unread.length = 6) (payload : List UInt8) :
    (headerWith unread payload).length = headerSize := by
  simp only [headerWith, List.length_append, length_littleEndian, length_checksum, hunread]
  rfl

theorem length_sealed (payload : List UInt8) :
    (sealed payload).length = headerSize + payload.length := by
  rw [sealed, List.length_append, header_eq_headerWith, length_headerWith length_unreadBytes]

/-- Other bytes where the header of a sealed payload is not read. -/
theorem take_append_drop_sealed (unread payload : List UInt8) :
    (sealed payload).take 6 ++ unread ++ (sealed payload).drop 12 =
      headerWith unread payload ++ payload := by
  have hfront : (sealed payload).take 6 = magic ++ littleEndian 2 formatVersion := by
    simp only [sealed, header, List.append_assoc]
    rfl
  have hback : (sealed payload).drop 12 =
      littleEndian 4 payload.length ++ (checksum payload ++ payload) := by
    simp only [sealed, header, List.append_assoc]
    rfl
  rw [hfront, hback]
  simp only [headerWith, List.append_assoc]

/-! ### Unsealing -/

/-- Behind the header of a payload, whatever its unread bytes say, there have to be as many bytes as
the payload has, with the digest of the payload. -/
theorem unsealed_headerWith (hunread : unread.length = 6) (hsmall : payload.length < 2 ^ 32)
    (body : List UInt8) :
    unsealed (headerWith unread payload ++ body) =
      if body.length < payload.length then
        .error (.lengthMismatch payload.length body.length)
      else if checksum (body.take payload.length) ≠ checksum payload then .error .checksumMismatch
      else .ok (body.take payload.length) := by
  have hfour := length_littleEndian 4 payload.length
  have hsum : (checksum payload).length = 16 := length_checksum payload
  have hheader := length_headerWith hunread payload
  have hlength : (headerWith unread payload ++ body).length = headerSize + body.length := by
    rw [List.length_append, hheader]
  -- the fields of the header, front to back
  have hmagic : (headerWith unread payload ++ body).take 4 = magic := by
    simp only [headerWith, List.append_assoc]
    rfl
  have hversion : valueOf (((headerWith unread payload ++ body).drop 4).take 2) =
      formatVersion := by
    simp only [headerWith, List.append_assoc]
    rfl
  have hread : (headerWith unread payload ++ body).drop 6 =
      unread ++ (littleEndian 4 payload.length ++ (checksum payload ++ body)) := by
    simp only [headerWith, List.append_assoc]
    rfl
  have hdrop : (headerWith unread payload ++ body).drop 12 =
      littleEndian 4 payload.length ++ (checksum payload ++ body) := by
    rw [← List.drop_drop (i := 6) (j := 6), hread, List.drop_left' hunread]
  have hstated : valueOf (((headerWith unread payload ++ body).drop 12).take 4) =
      payload.length := by
    rw [hdrop, List.take_left' hfour]
    exact valueOf_littleEndian hsmall
  have hstored : ((headerWith unread payload ++ body).drop 16).take checksumSize =
      checksum payload := by
    rw [← List.drop_drop (i := 4) (j := 12), hdrop, List.drop_left' hfour, checksumSize,
      List.take_left' hsum]
  have hbody : (headerWith unread payload ++ body).drop headerSize = body :=
    List.drop_left' hheader
  unfold unsealed
  simp only [hstated, hstored, hbody, hversion, hmagic, hlength, ne_eq, not_true_eq_false,
    if_false, Nat.add_sub_cancel_left, Nat.add_lt_add_iff_left]
  rw [if_neg (Nat.not_lt.mpr (Nat.le_add_right _ _))]

/-- A payload whose length fits the header is found behind it, whatever follows and whatever the
unread bytes say. -/
theorem unsealed_payload_append (hunread : unread.length = 6) (hsmall : payload.length < 2 ^ 32)
    (rest : List UInt8) :
    unsealed (headerWith unread payload ++ (payload ++ rest)) = .ok payload := by
  rw [unsealed_headerWith hunread hsmall, List.take_left, if_neg (by simp), if_neg (by simp)]

/-- Unsealing gives back a payload whose length fits the header. -/
theorem unsealed_sealed (h : payload.length < 2 ^ 32) :
    unsealed (sealed payload) = .ok payload := by
  have hpayload := unsealed_payload_append length_unreadBytes h []
  rwa [List.append_nil, ← header_eq_headerWith] at hpayload

/-- Why the first `n` of `whole` sealed bytes are refused: as many as the header has are missing, or
as many as it states. -/
def cutShort (whole n : Nat) : CacheError :=
  if n < headerSize then .lengthMismatch headerSize n
  else .lengthMismatch (whole - headerSize) (n - headerSize)

/-- A sealed payload that is cut, in its header or behind it, is refused for its length. -/
theorem unsealed_take (hsmall : payload.length < 2 ^ 32) {n : Nat}
    (h : n < (sealed payload).length) :
    unsealed ((sealed payload).take n) = .error (cutShort (sealed payload).length n) := by
  have hlength : ((sealed payload).take n).length = n := List.length_take_of_le h.le
  rw [length_sealed] at h ⊢
  unfold cutShort
  split
  · next hheader =>
    have hshort : ((sealed payload).take n).length < headerSize := hlength.symm ▸ hheader
    rw [unsealed, if_pos hshort, hlength]
  · next hheader =>
    have hwhole : (headerWith unreadBytes payload).length ≤ n := by
      rw [length_headerWith length_unreadBytes]
      exact Nat.not_lt.mp hheader
    have hcut : (sealed payload).take n =
        headerWith unreadBytes payload ++ payload.take (n - headerSize) := by
      rw [sealed, header_eq_headerWith, List.take_append, List.take_of_length_le hwhole,
        length_headerWith length_unreadBytes]
    have hmissing : (payload.take (n - headerSize)).length = n - headerSize :=
      List.length_take_of_le (by omega)
    rw [hcut, unsealed_headerWith length_unreadBytes hsmall, hmissing, if_pos (by omega),
      Nat.add_sub_cancel_left]

end Reachability.Cache
