import HashLog.Bytes.Octets
/-!
The BLAKE3 hash with its 32-byte output. Input is cut into chunks of 1024 bytes and chunks into
blocks of 64; the chunks are the leaves of a binary tree whose left subtrees are as large a power
of two as fits. Nodes stay uncompressed until it is known whether they are the root.
-/
namespace HashLog.Blake3

/-- Four words, one row of the working state. -/
structure Row where
  a : UInt32
  b : UInt32
  c : UInt32
  d : UInt32
  deriving DecidableEq

namespace Row

def zipWith (f : UInt32 → UInt32 → UInt32) (x y : Row) : Row :=
  ⟨f x.a y.a, f x.b y.b, f x.c y.c, f x.d y.d⟩

def map (f : UInt32 → UInt32) (x : Row) : Row :=
  ⟨f x.a, f x.b, f x.c, f x.d⟩

def add (x y : Row) : Row := zipWith (· + ·) x y

def xor (x y : Row) : Row := zipWith (· ^^^ ·) x y

/-- Rotates every word to the right. -/
def rotate (amount : UInt32) (x : Row) : Row :=
  x.map fun word => word >>> amount ||| word <<< (32 - amount)

/-- Shifts the columns to the left by one place. -/
def turn (x : Row) : Row := ⟨x.b, x.c, x.d, x.a⟩

end Row

/-- The sixteen words of a block. -/
structure Block where
  (w0 w1 w2 w3 w4 w5 w6 w7 w8 w9 w10 w11 w12 w13 w14 w15 : UInt32)

/-- The word order of the next round. -/
def Block.permute : Block → Block
  | ⟨w0, w1, w2, w3, w4, w5, w6, w7, w8, w9, w10, w11, w12, w13, w14, w15⟩ =>
    ⟨w2, w6, w3, w10, w7, w0, w4, w13, w1, w11, w12, w5, w9, w14, w15, w8⟩

/-- A chaining value of eight words. -/
structure Chaining where
  low : Row
  high : Row
  deriving DecidableEq

/-- The initial chaining value. -/
def Chaining.initial : Chaining :=
  ⟨⟨0x6a09e667, 0xbb67ae85, 0x3c6ef372, 0xa54ff53a⟩,
    ⟨0x510e527f, 0x9b05688c, 0x1f83d9ab, 0x5be0cd19⟩⟩

/-- The working state of the compression function, by rows. -/
structure Work where
  (r0 r1 r2 r3 : Row)

/-- Mixes the four columns at once with two message words for each. -/
def Work.mix (s : Work) (x y : Row) : Work :=
  let r0 := (s.r0.add s.r1).add x
  let r3 := (s.r3.xor r0).rotate 16
  let r2 := s.r2.add r3
  let r1 := (s.r1.xor r2).rotate 12
  let r0 := (r0.add r1).add y
  let r3 := (r3.xor r0).rotate 8
  let r2 := r2.add r3
  let r1 := (r1.xor r2).rotate 7
  ⟨r0, r1, r2, r3⟩

/-- One round: the columns, then the diagonals. -/
def Work.round (s : Work) (m : Block) : Work :=
  let s := s.mix ⟨m.w0, m.w2, m.w4, m.w6⟩ ⟨m.w1, m.w3, m.w5, m.w7⟩
  let s : Work := ⟨s.r0, s.r1.turn, s.r2.turn.turn, s.r3.turn.turn.turn⟩
  let s := s.mix ⟨m.w8, m.w10, m.w12, m.w14⟩ ⟨m.w9, m.w11, m.w13, m.w15⟩
  ⟨s.r0, s.r1.turn.turn.turn, s.r2.turn.turn, s.r3.turn⟩

/-- The given number of rounds, permuting the message between them. -/
def Work.rounds : Nat → Work → Block → Work
  | 0, s, _ => s
  | count + 1, s, m => rounds count (s.round m) m.permute

/-- An input of the compression function: a block with everything but the root flag fixed. -/
structure Node where
  chaining : Chaining
  block : Block
  counter : UInt64
  length : UInt32
  flags : UInt32

def chunkStart : UInt32 := 1
def chunkEnd : UInt32 := 2
def parentFlag : UInt32 := 4
def rootFlag : UInt32 := 8

/-- The first half of the compression function's output, with extra flags set. -/
def Node.compress (node : Node) (extra : UInt32) : Chaining :=
  let start : Work :=
    ⟨node.chaining.low, node.chaining.high, Chaining.initial.low,
      ⟨node.counter.toUInt32, (node.counter >>> 32).toUInt32, node.length, node.flags ||| extra⟩⟩
  let s := start.rounds 7 node.block
  ⟨s.r0.xor s.r2, s.r1.xor s.r3⟩

/-- Little-endian words; a last group of fewer than four bytes is filled up with zeros. -/
def words : List UInt8 → List UInt32
  | a :: b :: c :: d :: rest =>
    (a.toUInt32 ||| b.toUInt32 <<< 8 ||| c.toUInt32 <<< 16 ||| d.toUInt32 <<< 24) :: words rest
  | [a, b, c] => [a.toUInt32 ||| b.toUInt32 <<< 8 ||| c.toUInt32 <<< 16]
  | [a, b] => [a.toUInt32 ||| b.toUInt32 <<< 8]
  | [a] => [a.toUInt32]
  | [] => []

/-- A block of up to sixteen words, filled up with zeros. -/
def Block.ofWords (w : List UInt32) : Block :=
  let pick (i : Nat) : UInt32 := w.getD i 0
  ⟨pick 0, pick 1, pick 2, pick 3, pick 4, pick 5, pick 6, pick 7,
    pick 8, pick 9, pick 10, pick 11, pick 12, pick 13, pick 14, pick 15⟩

/-- A list cut into pieces of `size` (the last one shorter); empty input is one empty piece. The
first argument bounds the number of pieces. -/
def pieces (size : Nat) : Nat → List UInt8 → List (List UInt8)
  | 0, bytes => [bytes]
  | bound + 1, bytes =>
    match bytes.drop size with
    | [] => [bytes]
    | rest => bytes.take size :: pieces size bound rest

/-- The last node of a chunk, from its blocks and the chaining value so far. -/
def chunkNode (counter : UInt64) (start : UInt32) (chaining : Chaining) : List (List UInt8) → Node
  | [] => ⟨chaining, .ofWords [], counter, 0, start ||| chunkEnd⟩
  | [last] => ⟨chaining, .ofWords (words last), counter, last.length.toUInt32, start ||| chunkEnd⟩
  | block :: rest =>
    let node : Node := ⟨chaining, .ofWords (words block), counter, 64, start⟩
    chunkNode counter 0 (node.compress 0) rest

/-- The node of one chunk of at most 1024 bytes. -/
def Node.ofChunk (counter : UInt64) (bytes : List UInt8) : Node :=
  chunkNode counter chunkStart .initial (pieces 64 16 bytes)

/-- The node above two nodes. -/
def Node.parent (left right : Node) : Node :=
  let l := left.compress 0
  let r := right.compress 0
  ⟨.initial,
    ⟨l.low.a, l.low.b, l.low.c, l.low.d, l.high.a, l.high.b, l.high.c, l.high.d,
      r.low.a, r.low.b, r.low.c, r.low.d, r.high.a, r.high.b, r.high.c, r.high.d⟩,
    0, 64, parentFlag⟩

/-- One level up: neighbours are joined, a node without a partner moves up as it is. -/
def level : List Node → List Node
  | left :: right :: rest => Node.parent left right :: level rest
  | rest => rest

/-- The root over a non-empty row of nodes. Joining neighbours level by level gives every left
subtree the largest power of two of chunks that fits. The bound is the number of levels. -/
def root (bound : Nat) (first : Node) (rest : List Node) : Node :=
  match bound, level (first :: rest) with
  | bound + 1, node :: more => if more.isEmpty then node else root bound node more
  | _, _ => first

/-- A chaining value as bytes, each word little-endian. -/
def Chaining.bytes (h : Chaining) : List UInt8 :=
  let word (w : UInt32) : List UInt8 :=
    [w.toUInt8, (w >>> 8).toUInt8, (w >>> 16).toUInt8, (w >>> 24).toUInt8]
  word h.low.a ++ word h.low.b ++ word h.low.c ++ word h.low.d ++
    word h.high.a ++ word h.high.b ++ word h.high.c ++ word h.high.d

/-- The 32-byte hash of a byte string. -/
def hash (input : List UInt8) : Octets 32 :=
  let chunks := (pieces 1024 input.length input).mapIdx fun i bytes =>
    Node.ofChunk (UInt64.ofNat i) bytes
  let top := match chunks with
    | [] => Node.ofChunk 0 []
    | first :: rest => if rest.isEmpty then first else root chunks.length first rest
  ⟨(top.compress rootFlag).bytes, rfl⟩

end HashLog.Blake3
