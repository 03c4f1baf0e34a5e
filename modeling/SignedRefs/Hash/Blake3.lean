import SignedRefs.Bytes

/-!
# BLAKE3

The hash that names objects and repositories. A message is cut into chunks of 1024 bytes and each
chunk into blocks of 64; the chunks are the leaves of a binary tree whose nodes are compressions.
The digest is the compression at the root, which alone carries the root flag.

The tree over `n` chunks has, on the left of every node, the largest power of two of chunks that
leaves something for the right. It is built as a counter is: a subtree of the same size as the
latest one is joined to it at once, and at the end the remaining subtrees are joined from the right.
-/

namespace SignedRefs.Blake3

/-- Four words that are worked on alike. -/
structure Lanes where
  (x0 x1 x2 x3 : UInt32)
deriving DecidableEq

namespace Lanes

/-- Adds lane by lane. -/
def add (a b : Lanes) : Lanes := ⟨a.x0 + b.x0, a.x1 + b.x1, a.x2 + b.x2, a.x3 + b.x3⟩

/-- Combines lane by lane by exclusive or. -/
def xor (a b : Lanes) : Lanes := ⟨a.x0 ^^^ b.x0, a.x1 ^^^ b.x1, a.x2 ^^^ b.x2, a.x3 ^^^ b.x3⟩

/-- Turns every lane to the right. -/
def rotateRight (a : Lanes) (count : UInt32) : Lanes :=
  let turn := fun word : UInt32 => (word >>> count) ||| (word <<< (32 - count))
  ⟨turn a.x0, turn a.x1, turn a.x2, turn a.x3⟩

/-- Moves every lane one place to the front. -/
def shift (a : Lanes) : Lanes := ⟨a.x1, a.x2, a.x3, a.x0⟩

/-- The lanes, first to last. -/
def toList (a : Lanes) : List UInt32 := [a.x0, a.x1, a.x2, a.x3]

end Lanes

/-- The eight words that a compression passes on. -/
structure ChainingValue where
  (low high : Lanes)
deriving DecidableEq

/-- The sixteen words of a block. -/
structure Block where
  (m0 m1 m2 m3 m4 m5 m6 m7 m8 m9 m10 m11 m12 m13 m14 m15 : UInt32)
deriving DecidableEq

/-- The working state, as the four rows of a square. -/
structure State where
  (a b c d : Lanes)
deriving DecidableEq

/-- The constant eight words that the first block of every chunk starts from. -/
def initial : ChainingValue :=
  ⟨⟨0x6a09e667, 0xbb67ae85, 0x3c6ef372, 0xa54ff53a⟩,
   ⟨0x510e527f, 0x9b05688c, 0x1f83d9ab, 0x5be0cd19⟩⟩

/-! ### Compression -/

/-- Mixes two message words into each column of the square. -/
def State.mix (s : State) (x y : Lanes) : State :=
  let a := (s.a.add s.b).add x
  let d := (s.d.xor a).rotateRight 16
  let c := s.c.add d
  let b := (s.b.xor c).rotateRight 12
  let a := (a.add b).add y
  let d := (d.xor a).rotateRight 8
  let c := c.add d
  let b := (b.xor c).rotateRight 7
  ⟨a, b, c, d⟩

/-- Turns the diagonals of the square into columns. -/
def State.diagonals (s : State) : State :=
  ⟨s.a, s.b.shift, s.c.shift.shift, s.d.shift.shift.shift⟩

/-- Turns the columns back into diagonals. -/
def State.columns (s : State) : State :=
  ⟨s.a, s.b.shift.shift.shift, s.c.shift.shift, s.d.shift⟩

/-- One round: the columns take the first eight words of the block, the diagonals the others. -/
def State.round (s : State) (m : Block) : State :=
  let s := s.mix ⟨m.m0, m.m2, m.m4, m.m6⟩ ⟨m.m1, m.m3, m.m5, m.m7⟩
  let s := s.diagonals.mix ⟨m.m8, m.m10, m.m12, m.m14⟩ ⟨m.m9, m.m11, m.m13, m.m15⟩
  s.columns

/-- The order in which the next round takes the words. -/
def Block.permute (m : Block) : Block :=
  ⟨m.m2, m.m6, m.m3, m.m10, m.m7, m.m0, m.m4, m.m13, m.m1, m.m11, m.m12, m.m5, m.m9, m.m14,
    m.m15, m.m8⟩

/-- The given number of rounds, the words permuted between them. -/
def State.rounds : Nat → State → Block → State
  | 0, s, _ => s
  | count + 1, s, m => State.rounds count (s.round m) m.permute

/-- Everything that a compression takes. -/
structure Node where
  /-- The words passed on by the compression before. -/
  input : ChainingValue
  /-- The message words. -/
  block : Block
  /-- The number of the chunk, or zero in an inner node. -/
  counter : UInt64
  /-- How many bytes of the block are the message's. -/
  length : UInt32
  /-- The marks of the node's place in the tree. -/
  flags : UInt32
deriving DecidableEq

/-- The first block of a chunk. -/
def chunkStart : UInt32 := 1

/-- The last block of a chunk. -/
def chunkEnd : UInt32 := 2

/-- An inner node. -/
def parentFlag : UInt32 := 4

/-- The root. -/
def rootFlag : UInt32 := 8

/-- The words that a compression passes on. -/
def Node.output (n : Node) : ChainingValue :=
  let tail : Lanes :=
    ⟨n.counter.toUInt32, (n.counter >>> 32).toUInt32, n.length, n.flags⟩
  let s := State.rounds 7 ⟨n.input.low, n.input.high, initial.low, tail⟩ n.block
  ⟨s.a.xor s.c, s.b.xor s.d⟩

/-! ### Chunks -/

/-- The words of a block of at most 64 bytes, zeros after its end. -/
def Block.ofBytes (bytes : Bytes) : Block :=
  let words := (Bytes.pieces 4 bytes).map fun piece => UInt32.ofNat (Bytes.littleEndian piece)
  let w := fun i => words.getD i 0
  ⟨w 0, w 1, w 2, w 3, w 4, w 5, w 6, w 7, w 8, w 9, w 10, w 11, w 12, w 13, w 14, w 15⟩

/-- The last node of a chunk whose first block is `first` and whose other blocks are `rest`. -/
def chunkNode (counter : UInt64) (flags : UInt32) (input : ChainingValue) (first : Bytes) :
    (rest : List Bytes) → Node
  | [] =>
    ⟨input, Block.ofBytes first, counter, UInt32.ofNat first.length, flags ||| chunkEnd⟩
  | next :: rest =>
    let node : Node := ⟨input, Block.ofBytes first, counter, 64, flags⟩
    chunkNode counter 0 node.output next rest

/-- The node of a chunk of at most 1024 bytes. -/
def Node.ofChunk (counter : Nat) (bytes : Bytes) : Node :=
  match Bytes.pieces 64 bytes with
  | [] => chunkNode (UInt64.ofNat counter) chunkStart initial [] []
  | first :: rest => chunkNode (UInt64.ofNat counter) chunkStart initial first rest

/-! ### The tree -/

/-- The node above two others. -/
def Node.parent (left right : Node) : Node :=
  let l := left.output
  let r := right.output
  { input := initial
    block :=
      ⟨l.low.x0, l.low.x1, l.low.x2, l.low.x3, l.high.x0, l.high.x1, l.high.x2, l.high.x3,
        r.low.x0, r.low.x1, r.low.x2, r.low.x3, r.high.x0, r.high.x1, r.high.x2, r.high.x3⟩
    counter := 0
    length := 64
    flags := parentFlag }

/-- Adds a subtree of `2 ^ height` chunks to the subtrees before it, the latest first. -/
def push (height : Nat) (node : Node) : List (Nat × Node) → List (Nat × Node)
  | [] => [(height, node)]
  | (h, left) :: rest =>
    if h = height then push (height + 1) (left.parent node) rest
    else (height, node) :: (h, left) :: rest

/-- The root of the tree over the message's chunks. -/
def rootNode (message : Bytes) : Node :=
  let chunks := Bytes.pieces 1024 message
  let subtrees :=
    chunks.zipIdx.foldl (fun trees chunk => push 0 (Node.ofChunk chunk.2 chunk.1) trees) []
  match subtrees with
  | [] => Node.ofChunk 0 []
  | (_, last) :: rest => rest.foldl (fun right left => left.2.parent right) last

/-- The digest of a message, 32 bytes. -/
def hash (message : Bytes) : Bytes :=
  let root := rootNode message
  let out := { root with flags := root.flags ||| rootFlag }.output
  (out.low.toList ++ out.high.toList).flatMap fun word => Bytes.ofNatLittleEndian 4 word.toNat

/-- A digest has 32 bytes. -/
@[simp] theorem length_hash (message : Bytes) : (hash message).length = 32 := by
  simp [hash, Lanes.toList]

end SignedRefs.Blake3
