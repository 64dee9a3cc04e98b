/-!
# Random words

A seed determines an endless sequence of 32-bit words: the ChaCha stream with twelve rounds, under a
key that is spread out of the seed.
-/

namespace GridCss.Random

/-- Four words, which all operations treat alike. -/
structure Row where
  a : UInt32
  b : UInt32
  c : UInt32
  d : UInt32
  deriving DecidableEq, Repr, Inhabited

def rotateLeft (x n : UInt32) : UInt32 := (x <<< n) ||| (x >>> (32 - n))

def rotateRight (x n : UInt32) : UInt32 := (x >>> n) ||| (x <<< (32 - n))

namespace Row

def add (x y : Row) : Row := ⟨x.a + y.a, x.b + y.b, x.c + y.c, x.d + y.d⟩

def xor (x y : Row) : Row := ⟨x.a ^^^ y.a, x.b ^^^ y.b, x.c ^^^ y.c, x.d ^^^ y.d⟩

/-- Every word rotated by `n` bits. -/
def rotate (n : UInt32) (x : Row) : Row :=
  ⟨rotateLeft x.a n, rotateLeft x.b n, rotateLeft x.c n, rotateLeft x.d n⟩

/-- The words moved one place to the left, the first to the end. -/
def turn (x : Row) : Row := ⟨x.b, x.c, x.d, x.a⟩

def toList (x : Row) : List UInt32 := [x.a, x.b, x.c, x.d]

end Row

/-- The sixteen words of a block. -/
structure Block where
  r0 : Row
  r1 : Row
  r2 : Row
  r3 : Row
  deriving DecidableEq, Repr, Inhabited

namespace Block

def add (x y : Block) : Block :=
  ⟨x.r0.add y.r0, x.r1.add y.r1, x.r2.add y.r2, x.r3.add y.r3⟩

/-- The quarter round on all four columns. -/
def columnRound (x : Block) : Block :=
  let r0 := x.r0.add x.r1
  let r3 := (x.r3.xor r0).rotate 16
  let r2 := x.r2.add r3
  let r1 := (x.r1.xor r2).rotate 12
  let r0 := r0.add r1
  let r3 := (r3.xor r0).rotate 8
  let r2 := r2.add r3
  let r1 := (r1.xor r2).rotate 7
  ⟨r0, r1, r2, r3⟩

/-- The quarter round on all four diagonals, which are columns once the rows are turned. -/
def diagonalRound (x : Block) : Block :=
  let y := columnRound ⟨x.r0, x.r1.turn, x.r2.turn.turn, x.r3.turn.turn.turn⟩
  ⟨y.r0, y.r1.turn.turn.turn, y.r2.turn.turn, y.r3.turn⟩

def doubleRounds : Nat → Block → Block
  | 0, x => x
  | n + 1, x => doubleRounds n x.columnRound.diagonalRound

def toList (x : Block) : List UInt32 :=
  x.r0.toList ++ x.r1.toList ++ x.r2.toList ++ x.r3.toList

end Block

/-- The words "expand 32-byte k" that start every block. -/
def constants : Row := ⟨0x61707865, 0x3320646e, 0x79622d32, 0x6b206574⟩

structure Key where
  low : Row
  high : Row
  deriving DecidableEq, Repr, Inhabited

/-- The block with the given number, counted from zero. -/
def Key.block (k : Key) (n : Nat) : Block :=
  let input : Block :=
    ⟨constants, k.low, k.high, ⟨UInt32.ofNat n, UInt32.ofNat (n >>> 32), 0, 0⟩⟩
  (input.doubleRounds 6).add input

/-- The next state of the generator that spreads a seed. -/
def spread (state : UInt64) : UInt64 := state * 6364136223846793005 + 11634580027462260723

/-- The key word of a state: its high bits, mixed and rotated. -/
def keyWord (state : UInt64) : UInt32 :=
  let mixed : UInt64 := ((state >>> 18) ^^^ state) >>> 27
  let turn : UInt64 := state >>> 59
  rotateRight mixed.toUInt32 turn.toUInt32

/-- The next four key words and the state after them. -/
def keyRow (s : UInt64) : Row × UInt64 :=
  let s₁ := spread s
  let s₂ := spread s₁
  let s₃ := spread s₂
  let s₄ := spread s₃
  (⟨keyWord s₁, keyWord s₂, keyWord s₃, keyWord s₄⟩, s₄)

def Key.ofSeed (seed : UInt64) : Key :=
  let (low, state) := keyRow seed
  ⟨low, (keyRow state).1⟩

end GridCss.Random

namespace GridCss

/-- A place in a stream of random words: the key, the number of the next block and what is left of
the current one. -/
structure Words where
  key : Random.Key
  block : Nat := 0
  left : List UInt32 := []
  deriving DecidableEq, Repr, Inhabited

namespace Words

def ofSeed (seed : UInt64) : Words := { key := Random.Key.ofSeed seed }

/-- The next word. -/
def next (w : Words) : UInt32 × Words :=
  match w.left with
  | x :: left => (x, { w with left := left })
  | [] =>
    let b := w.key.block w.block
    (b.r0.a, { w with block := w.block + 1, left := b.toList.tail })

/-- The numbers below `zone` are spread evenly over the choices. -/
def zone (n : Nat) : Nat := n <<< (31 - n.log2)

/-- A choice below `n`. The product of a word and `n` gives the choice by its high half; its low
half must fall into the zone. Less than half of all words fail to, and after `tries` such words the
next one is taken as it is. -/
def below (n : Nat) : (tries : Nat) → Words → Nat × Words
  | 0, w =>
    let (x, w) := w.next
    ((x.toNat * n) >>> 32, w)
  | tries + 1, w =>
    let (x, w) := w.next
    let product := x.toNat * n
    if product % UInt32.size < zone n then (product >>> 32, w) else below n tries w

def tries : Nat := 256

/-- One of the given elements; nothing is drawn if there are none. -/
def choose {α : Type} (xs : List α) (w : Words) : Option α × Words :=
  if xs.isEmpty then (none, w)
  else
    let (i, w) := w.below xs.length tries
    (xs[i]?, w)

/-- A number from zero up to one, from two words, the low one first. -/
def unitNumber (w : Words) : Float × Words :=
  let (low, w) := w.next
  let (high, w) := w.next
  let bits := (low.toNat + high.toNat <<< 32) >>> 11
  ((Float.ofNat bits).scaleB (-53), w)

end Words
end GridCss
