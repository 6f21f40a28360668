import ScoreWasm.Number.Ieee

/-!
# SHA-256

The hash of the standard: the message is padded to blocks of 64 bytes, and each block is mixed into a
state of eight words in 64 rounds.
-/

namespace ScoreWasm.Sha256

structure State where
  a : UInt32
  b : UInt32
  c : UInt32
  d : UInt32
  e : UInt32
  f : UInt32
  g : UInt32
  h : UInt32

def State.initial : State :=
  ⟨0x6a09e667, 0xbb67ae85, 0x3c6ef372, 0xa54ff53a, 0x510e527f, 0x9b05688c, 0x1f83d9ab, 0x5be0cd19⟩

def State.add (s t : State) : State :=
  ⟨s.a + t.a, s.b + t.b, s.c + t.c, s.d + t.d, s.e + t.e, s.f + t.f, s.g + t.g, s.h + t.h⟩

def roundConstants : List UInt32 :=
  [0x428a2f98, 0x71374491, 0xb5c0fbcf, 0xe9b5dba5, 0x3956c25b, 0x59f111f1, 0x923f82a4, 0xab1c5ed5,
   0xd807aa98, 0x12835b01, 0x243185be, 0x550c7dc3, 0x72be5d74, 0x80deb1fe, 0x9bdc06a7, 0xc19bf174,
   0xe49b69c1, 0xefbe4786, 0x0fc19dc6, 0x240ca1cc, 0x2de92c6f, 0x4a7484aa, 0x5cb0a9dc, 0x76f988da,
   0x983e5152, 0xa831c66d, 0xb00327c8, 0xbf597fc7, 0xc6e00bf3, 0xd5a79147, 0x06ca6351, 0x14292967,
   0x27b70a85, 0x2e1b2138, 0x4d2c6dfc, 0x53380d13, 0x650a7354, 0x766a0abb, 0x81c2c92e, 0x92722c85,
   0xa2bfe8a1, 0xa81a664b, 0xc24b8b70, 0xc76c51a3, 0xd192e819, 0xd6990624, 0xf40e3585, 0x106aa070,
   0x19a4c116, 0x1e376c08, 0x2748774c, 0x34b0bcb5, 0x391c0cb3, 0x4ed8aa4a, 0x5b9cca4f, 0x682e6ff3,
   0x748f82ee, 0x78a5636f, 0x84c87814, 0x8cc70208, 0x90befffa, 0xa4506ceb, 0xbef9a3f7, 0xc67178f2]

def rotr (x : UInt32) (n : UInt32) : UInt32 := (x >>> n) ||| (x <<< (32 - n))

def round (s : State) (w k : UInt32) : State :=
  let s1 := rotr s.e 6 ^^^ rotr s.e 11 ^^^ rotr s.e 25
  let ch := (s.e &&& s.f) ^^^ ((~~~ s.e) &&& s.g)
  let t1 := s.h + s1 + ch + k + w
  let s0 := rotr s.a 2 ^^^ rotr s.a 13 ^^^ rotr s.a 22
  let maj := (s.a &&& s.b) ^^^ (s.a &&& s.c) ^^^ (s.b &&& s.c)
  ⟨t1 + s0 + maj, s.a, s.b, s.c, s.d + t1, s.e, s.f, s.g⟩

def nextWord (w : Array UInt32) : UInt32 :=
  let n := w.size
  let w15 := w.getD (n - 15) 0
  let w2 := w.getD (n - 2) 0
  let s0 := rotr w15 7 ^^^ rotr w15 18 ^^^ (w15 >>> 3)
  let s1 := rotr w2 17 ^^^ rotr w2 19 ^^^ (w2 >>> 10)
  w.getD (n - 16) 0 + s0 + w.getD (n - 7) 0 + s1

/-- The schedule of a block: its sixteen words and the words made from them. -/
def schedule : Nat → Array UInt32 → Array UInt32
  | 0, w => w
  | n + 1, w => schedule n (w.push (nextWord w))

def rounds : State → List UInt32 → List UInt32 → State
  | s, k :: ks, w :: ws => rounds (round s w k) ks ws
  | s, _, _ => s

def byteAt (message : ByteArray) (i : Nat) : UInt32 :=
  if h : i < message.size then (message.get i h).toUInt32 else 0

def wordAt (message : ByteArray) (i : Nat) : UInt32 :=
  (byteAt message i <<< 24) ||| (byteAt message (i + 1) <<< 16) ||| (byteAt message (i + 2) <<< 8)
    ||| byteAt message (i + 3)

def block (message : ByteArray) (s : State) (start : Nat) : State :=
  let words := ((List.range 16).map (fun j => wordAt message (start + 4 * j))).toArray
  s.add (rounds s roundConstants (schedule 48 words).toList)

def blocks (message : ByteArray) : Nat → Nat → State → State
  | 0, _, s => s
  | n + 1, start, s => blocks message n (start + 64) (block message s start)

def pushZeros : Nat → ByteArray → ByteArray
  | 0, m => m
  | n + 1, m => pushZeros n (m.push 0)

def bigEndian (count n : Nat) : List UInt8 :=
  (List.range count).reverse.map (fun i => UInt8.ofNat (n / 256 ^ i))

/-- A message with its padding: a one bit, zeros, and the length in bits. -/
def pad (message : ByteArray) : ByteArray :=
  let size := message.size
  let padded := pushZeros ((119 - size % 64) % 64) (message.push 0x80)
  (bigEndian 8 (8 * size)).foldl ByteArray.push padded

def hash (message : ByteArray) : List UInt8 :=
  let m := pad message
  let s := blocks m (m.size / 64) 0 .initial
  [s.a, s.b, s.c, s.d, s.e, s.f, s.g, s.h].flatMap (fun w => bigEndian 4 w.toNat)

end ScoreWasm.Sha256
