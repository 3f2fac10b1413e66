import Reachability.Cache.Accept
import Reachability.Cache.Seal

/-!
# Cache — storing a table

A table is stored as its sealed payload, with the digest of the text it was made from, so that a
reader can tell whether the text has changed since.
-/

namespace Reachability

namespace Cache

/-- The payload of a sealed table. -/
def readPayload (blob : List UInt8) : Except CacheError Payload := do
  match Wire.payload.read (← unsealed blob) with
  | some (payload, _) => return payload
  | none => throw .undecodable

/-- The digest of the text that a stored table was made from, if it was recorded. -/
def sourceDigest (blob : List UInt8) : Except CacheError (Option Blake3.Digest) := do
  return (← readPayload blob).metadata.source

end Cache

namespace Table
open Cache

/-- The bytes of a table, with the digest of its source text if one is given. -/
def toBytes (table : Table) (source : Option String) : List UInt8 :=
  let digest := source.map fun text => Blake3.digest text.toUTF8.data.toList
  sealed (Wire.payload.write (table.payload digest))

/-- The table that bytes store. -/
def ofBytes (blob : List UInt8) : Except CacheError Table := do
  let payload ← readPayload blob
  match payload.accept with
  | .ok table => return table
  | .error flaw => throw (.invalid flaw)

end Table

end Reachability
