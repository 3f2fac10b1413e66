/-!
# Cache — values as bytes

A `Wire` writes values of a type as bytes and reads them back from the front of a byte string,
giving the rest.  Numbers are as short as they can be: one byte up to 250, and else a byte that
says how many follow, the least significant first.
-/

namespace Reachability.Cache

/-- How values of a type are written as bytes and read from the front of some. -/
structure Wire (α : Type) where
  write : α → List UInt8
  read : List UInt8 → Option (α × List UInt8)

/-- The last `width` bytes of a number, the least significant first. -/
def littleEndian : Nat → Nat → List UInt8
  | 0, _ => []
  | width + 1, n => UInt8.ofNat (n % 256) :: littleEndian width (n / 256)

/-- The number that bytes stand for, the least significant first. -/
def valueOf : List UInt8 → Nat
  | [] => 0
  | b :: rest => b.toNat + 256 * valueOf rest

/-- The first `n` bytes and the rest, if there are that many. -/
def takeBytes : Nat → List UInt8 → Option (List UInt8 × List UInt8)
  | 0, bytes => some ([], bytes)
  | _ + 1, [] => none
  | n + 1, b :: bytes => (takeBytes n bytes).map fun (taken, rest) => (b :: taken, rest)

/-- A number of `width` bytes. -/
def readFixed (width : Nat) (bytes : List UInt8) : Option (Nat × List UInt8) :=
  (takeBytes width bytes).map fun (taken, rest) => (valueOf taken, rest)

/-- A number below 2^64, in as few bytes as can be. -/
def writeVarint (n : Nat) : List UInt8 :=
  if n ≤ 250 then [UInt8.ofNat n]
  else if n < 0x10000 then 251 :: littleEndian 2 n
  else if n < 0x100000000 then 252 :: littleEndian 4 n
  else 253 :: littleEndian 8 n

/-- Reads a number; `wide` allows one of eight bytes. -/
def readVarint (wide : Bool) : List UInt8 → Option (Nat × List UInt8)
  | [] => none
  | b :: rest =>
    if b ≤ 250 then some (b.toNat, rest)
    else if b = 251 then readFixed 2 rest
    else if b = 252 then readFixed 4 rest
    else if b = 253 && wide then readFixed 8 rest
    else none

namespace Wire
variable {α β : Type}

/-- A length or an index. -/
def count : Wire Nat := ⟨writeVarint, readVarint true⟩

/-- A 64-bit word. -/
def word : Wire UInt64 where
  write w := writeVarint w.toNat
  read bytes := (readVarint true bytes).map fun (n, rest) => (UInt64.ofNat n, rest)

/-- A 32-bit word. -/
def shortWord : Wire UInt32 where
  write w := writeVarint w.toNat
  read bytes := (readVarint false bytes).map fun (n, rest) => (UInt32.ofNat n, rest)

/-- The number of an alternative. -/
def tag : Wire Nat := ⟨writeVarint, readVarint false⟩

/-- A truth value, one byte. -/
def truth : Wire Bool where
  write b := if b then [1] else [0]
  read
    | 0 :: rest => some (false, rest)
    | 1 :: rest => some (true, rest)
    | _ => none

/-- A text: how many bytes it has, and its bytes in UTF-8. -/
def text : Wire String where
  write s := writeVarint s.toUTF8.size ++ s.toUTF8.data.toList
  read bytes := do
    let (size, bytes) ← readVarint true bytes
    let (taken, rest) ← takeBytes size bytes
    let s ← String.fromUTF8? ⟨taken.toArray⟩
    return (s, rest)

/-- So many raw bytes. -/
def raw (size : Nat) : Wire (Vector UInt8 size) where
  write v := v.toList
  read bytes := do
    let (taken, rest) ← takeBytes size bytes
    if h : taken.length = size then return (⟨taken.toArray, by simpa using h⟩, rest) else none

/-- A value that may be missing: one byte says whether it is there. -/
def option (wire : Wire α) : Wire (Option α) where
  write
    | none => [0]
    | some a => 1 :: wire.write a
  read
    | 0 :: rest => some (none, rest)
    | 1 :: rest => (wire.read rest).map fun (a, rest) => (some a, rest)
    | _ => none

/-- Reads `n` values one after another. -/
def readMany (read : List UInt8 → Option (α × List UInt8)) :
    Nat → List UInt8 → Option (List α × List UInt8)
  | 0, bytes => some ([], bytes)
  | n + 1, bytes => do
    let (a, bytes) ← read bytes
    let (as, bytes) ← readMany read n bytes
    return (a :: as, bytes)

/-- A list: how many values it has, and the values. -/
def list (wire : Wire α) : Wire (List α) where
  write as := writeVarint as.length ++ as.flatMap wire.write
  read bytes := do
    let (n, bytes) ← readVarint true bytes
    readMany wire.read n bytes

/-- Two values, one after the other. -/
def pair (first : Wire α) (second : Wire β) : Wire (α × β) where
  write ab := first.write ab.1 ++ second.write ab.2
  read bytes := do
    let (a, bytes) ← first.read bytes
    let (b, bytes) ← second.read bytes
    return ((a, b), bytes)

/-- Values written as those of another type. -/
def via (wire : Wire β) (parts : α → β) (whole : β → α) : Wire α where
  write a := wire.write (parts a)
  read bytes := (wire.read bytes).map fun (b, rest) => (whole b, rest)

end Wire

end Reachability.Cache
