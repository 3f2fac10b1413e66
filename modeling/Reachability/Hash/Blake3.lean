/-!
# Hash — BLAKE3

The 32-byte BLAKE3 digest.  The input is cut into chunks of 1024 bytes and those into blocks of 64;
each chunk is hashed block by block, and the chunks are joined pairwise up to one root.
-/

namespace Reachability.Blake3

/-- A digest. -/
abbrev Digest := Vector UInt8 32

/-- The words that a chunk starts from. -/
def initial : Vector UInt32 8 :=
  #v[0x6A09E667, 0xBB67AE85, 0x3C6EF372, 0xA54FF53A, 0x510E527F, 0x9B05688C, 0x1F83D9AB,
     0x5BE0CD19]

/-- Where each word of a message goes between two rounds. -/
def permutation : Vector (Fin 16) 16 :=
  #v[2, 6, 3, 10, 7, 0, 4, 13, 1, 11, 12, 5, 9, 14, 15, 8]

/-- The domain flag of the first block of a chunk. -/
def chunkStart : UInt32 := 1
/-- The domain flag of the last block of a chunk. -/
def chunkEnd : UInt32 := 2
/-- The domain flag of a node that joins two others. -/
def parentFlag : UInt32 := 4
/-- The domain flag of the root. -/
def rootFlag : UInt32 := 8

/-- `word` with its bits moved `n` places to the right and those that leave put in at the left. -/
def rotateRight (word n : UInt32) : UInt32 := (word >>> n) ||| (word <<< (32 - n))

/-- Mixes two message words into four words of the state. -/
def mix (v : Vector UInt32 16) (a b c d : Fin 16) (x y : UInt32) : Vector UInt32 16 :=
  let va := v[a] + v[b] + x
  let vd := rotateRight (v[d] ^^^ va) 16
  let vc := v[c] + vd
  let vb := rotateRight (v[b] ^^^ vc) 12
  let va := va + vb + y
  let vd := rotateRight (vd ^^^ va) 8
  let vc := vc + vd
  let vb := rotateRight (vb ^^^ vc) 7
  (((v.set a va).set b vb).set c vc).set d vd

/-- Mixes a message into the columns of the state and then into its diagonals. -/
def round (m : Vector UInt32 16) (v : Vector UInt32 16) : Vector UInt32 16 :=
  let v := mix v 0 4 8 12 m[0] m[1]
  let v := mix v 1 5 9 13 m[2] m[3]
  let v := mix v 2 6 10 14 m[4] m[5]
  let v := mix v 3 7 11 15 m[6] m[7]
  let v := mix v 0 5 10 15 m[8] m[9]
  let v := mix v 1 6 11 12 m[10] m[11]
  let v := mix v 2 7 8 13 m[12] m[13]
  mix v 3 4 9 14 m[14] m[15]

/-- The state after some rounds, the message permuted between them. -/
def rounds : Nat → Vector UInt32 16 → Vector UInt32 16 → Vector UInt32 16
  | 0, _, v => v
  | n + 1, m, v => rounds n (permutation.map fun i => m[i]) (round m v)

/-- A node of the tree, all but compressed. -/
structure Node where
  chain : Vector UInt32 8
  block : Vector UInt32 16
  counter : UInt64
  length : UInt32
  flags : UInt32

/-- The eight words that a node passes on, with `extra` flags set. -/
def Node.compress (node : Node) (extra : UInt32) : Vector UInt32 8 :=
  let start : Vector UInt32 16 :=
    node.chain ++
      #v[initial[0], initial[1], initial[2], initial[3], node.counter.toUInt32,
         (node.counter >>> 32).toUInt32, node.length, node.flags ||| extra]
  let final := rounds 7 node.block start
  Vector.ofFn fun i => final[i.val] ^^^ final[i.val + 8]

/-- The first `size` bytes, the next ones, and so on; the last piece may be shorter. -/
def pieces (size : Nat) : List UInt8 → List (List UInt8)
  | [] => []
  | b :: rest => (b :: rest.take (size - 1)) :: pieces size (rest.drop (size - 1))
termination_by bytes => bytes.length
decreasing_by simp only [List.length_cons, List.length_drop]; omega

/-- The words of a block, least significant byte first, with zeros for missing bytes. -/
def wordsOf (block : List UInt8) : Vector UInt32 16 :=
  let bytes := block.toArray
  let byte (i : Nat) : UInt32 := (bytes[i]?.getD 0).toUInt32
  Vector.ofFn fun i =>
    byte (4 * i) ||| (byte (4 * i + 1) <<< 8) ||| (byte (4 * i + 2) <<< 16) |||
      (byte (4 * i + 3) <<< 24)

/-- The node of a chunk from some block on; `start` is set if that block is the first. -/
def chunkNode (counter : UInt64) (chain : Vector UInt32 8) (start : UInt32) :
    List (List UInt8) → Node
  | [] => ⟨chain, wordsOf [], counter, 0, start ||| chunkEnd⟩
  | [block] => ⟨chain, wordsOf block, counter, UInt32.ofNat block.length, start ||| chunkEnd⟩
  | block :: rest =>
    let node : Node := ⟨chain, wordsOf block, counter, UInt32.ofNat block.length, start⟩
    chunkNode counter (node.compress 0) 0 rest

/-- The node that joins two others. -/
def parentNode (left right : Node) : Node :=
  ⟨initial, left.compress 0 ++ right.compress 0, 0, 64, parentFlag⟩

/-- Joins neighbours; an odd one at the end is left over. -/
def joinPairs : List Node → List Node
  | left :: right :: rest => parentNode left right :: joinPairs rest
  | rest => rest

/-- The root of the tree over some nodes, the first given apart; each level halves their number. -/
def rootNode : Nat → Node → List Node → Node
  | 0, node, _ => node
  | _ + 1, node, [] => node
  | levels + 1, node, next :: rest => rootNode levels (parentNode node next) (joinPairs rest)

/-- The nodes of chunks, the first of which has the number `counter`. -/
def chunkNodes (counter : UInt64) : List (List UInt8) → List Node
  | [] => []
  | chunk :: rest =>
    chunkNode counter initial chunkStart (pieces 64 chunk) :: chunkNodes (counter + 1) rest

/-- The digest of some bytes. -/
def digest (bytes : List UInt8) : Digest :=
  let chunks := pieces 1024 bytes
  let first := chunkNode 0 initial chunkStart (pieces 64 (chunks.headD []))
  let root := (rootNode chunks.length first (chunkNodes 1 chunks.tail)).compress rootFlag
  Vector.ofFn fun i => (root[i.val / 4] >>> (8 * (i.val % 4)).toUInt32).toUInt8

end Reachability.Blake3
