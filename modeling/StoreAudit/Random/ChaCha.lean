/-! A stream of random words from the ChaCha cipher with twelve rounds. -/
namespace StoreAudit.Random

/-- Four words, one row of the state of the cipher. -/
structure Row where
  a : UInt32
  b : UInt32
  c : UInt32
  d : UInt32
  deriving DecidableEq, Repr, Inhabited

namespace Row

def zip (f : UInt32 → UInt32 → UInt32) (x y : Row) : Row :=
  ⟨f x.a y.a, f x.b y.b, f x.c y.c, f x.d y.d⟩

def add (x y : Row) : Row := zip (· + ·) x y
def xor (x y : Row) : Row := zip (· ^^^ ·) x y

/-- Every word rotated left by `n` bits, where `0 < n < 32`. -/
def rotate (n : UInt32) (x : Row) : Row :=
  let turn (w : UInt32) : UInt32 := (w <<< n) ||| (w >>> (32 - n))
  ⟨turn x.a, turn x.b, turn x.c, turn x.d⟩

/-- The words moved one place to the left. -/
def shift (x : Row) : Row := ⟨x.b, x.c, x.d, x.a⟩

def toList (x : Row) : List UInt32 := [x.a, x.b, x.c, x.d]

end Row

/-- The state of the cipher. -/
structure Block where
  r : Row
  s : Row
  t : Row
  u : Row
  deriving DecidableEq, Repr, Inhabited

namespace Block

/-- A quarter round in each of the four columns. -/
def columns (x : Block) : Block :=
  let r := x.r.add x.s
  let u := (x.u.xor r).rotate 16
  let t := x.t.add u
  let s := (x.s.xor t).rotate 12
  let r := r.add s
  let u := (u.xor r).rotate 8
  let t := t.add u
  let s := (s.xor t).rotate 7
  ⟨r, s, t, u⟩

/-- The diagonals become columns. -/
def slant (x : Block) : Block := ⟨x.r, x.s.shift, x.t.shift.shift, x.u.shift.shift.shift⟩

/-- The columns become diagonals again. -/
def straighten (x : Block) : Block :=
  ⟨x.r, x.s.shift.shift.shift, x.t.shift.shift, x.u.shift⟩

def doubleRound (x : Block) : Block := x.columns.slant.columns.straighten

def add (x y : Block) : Block := ⟨x.r.add y.r, x.s.add y.s, x.t.add y.t, x.u.add y.u⟩

/-- Six double rounds, and the state before them added. -/
def scramble (x : Block) : Block := (Nat.repeat doubleRound 6 x).add x

def toList (x : Block) : List UInt32 := x.r.toList ++ x.s.toList ++ x.t.toList ++ x.u.toList

end Block

/-- The key of a stream, the number of the next block, and the words left of the block before. -/
structure Stream where
  low : Row
  high : Row
  counter : UInt64 := 0
  left : List UInt32 := []
  deriving DecidableEq, Repr, Inhabited

namespace Stream

/-- The next state of the sequence that a key is made of. -/
def seedStep (state : UInt64) : UInt64 := state * 0x5851F42D4C957F2D + 0xA17654E46FBE17F3

/-- The word that a state yields: bits from its middle, rotated right by its five highest bits. -/
def seedWord (state : UInt64) : UInt32 :=
  let mixed := (((state >>> 18) ^^^ state) >>> 27).toUInt32
  let turn := (state >>> 59).toUInt32
  (mixed >>> turn) ||| (mixed <<< ((32 - turn) % 32))

/-- Four words of the key, and the state after them. -/
def seedRow (state : UInt64) : Row × UInt64 :=
  let p := seedStep state
  let q := seedStep p
  let r := seedStep q
  let s := seedStep r
  (⟨seedWord p, seedWord q, seedWord r, seedWord s⟩, s)

def ofSeed (seed : UInt64) : Stream :=
  let (low, state) := seedRow seed
  let (high, _) := seedRow state
  { low, high }

/-- The block with the number `counter`. -/
def block (x : Stream) : Block :=
  Block.scramble
    ⟨⟨0x61707865, 0x3320646e, 0x79622d32, 0x6b206574⟩, x.low, x.high,
      ⟨x.counter.toUInt32, (x.counter >>> 32).toUInt32, 0, 0⟩⟩

def next32 (x : Stream) : UInt32 × Stream :=
  match x.left with
  | w :: left => (w, { x with left })
  | [] =>
    let words := x.block.toList
    (words.headD 0, { x with counter := x.counter + 1, left := words.tail })

/-- Two words, the lower half first. -/
def next64 (x : Stream) : UInt64 × Stream :=
  let (low, x) := x.next32
  let (high, x) := x.next32
  (low.toUInt64 ||| (high.toUInt64 <<< 32), x)

end Stream
end StoreAudit.Random
