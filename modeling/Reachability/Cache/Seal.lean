import Reachability.Cache.Error
import Reachability.Cache.Wire
import Reachability.Hash.Blake3

/-!
# Cache — the seal of a stored table

A header of 32 bytes goes before the payload: four magic bytes, the version of the format, six
bytes that are not read, the length of the payload, and the first half of its digest.
-/

namespace Reachability.Cache

/-- The bytes that every stored table starts with: `RDSL`. -/
def magic : List UInt8 := [0x52, 0x44, 0x53, 0x4C]

/-- The version of the format. -/
def formatVersion : Nat := 1

/-- The version of the library that wrote a table; it is not read. -/
def engineVersion : Nat := 1

/-- How many bytes the header has. -/
def headerSize : Nat := 32

/-- How many bytes of the digest the header keeps. -/
def checksumSize : Nat := 16

/-- The part of the digest of a payload that the header keeps. -/
def checksum (payload : List UInt8) : List UInt8 :=
  (Blake3.digest payload).toList.take checksumSize

/-- The header of a payload.  Its length is cut to four bytes. -/
def header (payload : List UInt8) : List UInt8 :=
  magic ++ littleEndian 2 formatVersion ++ littleEndian 2 engineVersion ++ littleEndian 4 0 ++
    littleEndian 4 payload.length ++ checksum payload

/-- A payload with its header. -/
def sealed (payload : List UInt8) : List UInt8 := header payload ++ payload

/-- The payload of a sealed one; what follows it is ignored. -/
def unsealed (blob : List UInt8) : Except CacheError (List UInt8) :=
  let version := valueOf ((blob.drop 4).take 2)
  let length := valueOf ((blob.drop 12).take 4)
  let payload := (blob.drop headerSize).take length
  if blob.length < headerSize then .error (.lengthMismatch headerSize blob.length)
  else if blob.take 4 ≠ magic then .error .badMagic
  else if version ≠ formatVersion then .error (.incompatibleVersion version formatVersion)
  else if blob.length < headerSize + length then
    .error (.lengthMismatch length (blob.length - headerSize))
  else if checksum payload ≠ (blob.drop 16).take checksumSize then .error .checksumMismatch
  else .ok payload

end Reachability.Cache
