import Linkage.Bytes

/-!
Fingerprints of class bytes: the 64-bit HighwayHash under a fixed key. The state is four rows of four 64-bit lanes;
every packet of 32 bytes is added to it and mixed in, the last, shorter one after padding.
-/
namespace Linkage

/-- Four 64-bit lanes. -/
structure Lanes where
  a : UInt64
  b : UInt64
  c : UInt64
  d : UInt64
deriving Repr, DecidableEq

namespace Lanes

def map (f : UInt64 → UInt64) (x : Lanes) : Lanes := ⟨f x.a, f x.b, f x.c, f x.d⟩

def zip (f : UInt64 → UInt64 → UInt64) (x y : Lanes) : Lanes := ⟨f x.a y.a, f x.b y.b, f x.c y.c, f x.d y.d⟩

/-- The lanes of 32 bytes, least significant byte first. -/
def ofPacket (packet : Bytes) : Lanes := ⟨lane 0, lane 1, lane 2, lane 3⟩
where
  lane (i : Nat) : UInt64 := UInt64.ofNat (Bytes.toNatLE ((packet.drop (8 * i)).take 8))

end Lanes

/-- The running state of a fingerprint. -/
structure HashState where
  v0 : Lanes
  v1 : Lanes
  mul0 : Lanes
  mul1 : Lanes
deriving Repr, DecidableEq

namespace HashState

/-- Exchanges the halves of a word. -/
def swapHalves (x : UInt64) : UInt64 := x >>> 32 ||| x <<< 32

def seed0 : Lanes := ⟨0xdbe6d5d5fe4cce2f, 0xa4093822299f31d0, 0x13198a2e03707344, 0x243f6a8885a308d3⟩
def seed1 : Lanes := ⟨0x3bd39e10cb0ef593, 0xc0acf169b5f18a8c, 0xbe5466cf34e90c6c, 0x452821e638d01377⟩

def start (key : Lanes) : HashState :=
  ⟨seed0.zip (· ^^^ ·) key, seed1.zip (· ^^^ ·) (key.map swapHalves), seed0, seed1⟩

/-- The bits of a word under a mask. -/
def keep (x mask : UInt64) : UInt64 := x &&& mask

/-- The low half of `x` times the high half of `y`. -/
def cross (x y : UInt64) : UInt64 := keep x 0xffffffff * (y >>> 32)

/-- Interleaves the bytes of a pair of words into the lower word. -/
def zipperLow (high low : UInt64) : UInt64 :=
  (keep low 0xff000000 ||| keep high 0xff00000000) >>> 24 |||
    (keep low 0xff0000000000 ||| keep high 0xff000000000000) >>> 16 |||
    keep low 0xff0000 ||| keep low 0xff00 <<< 32 |||
    keep high 0xff00000000000000 >>> 8 ||| low <<< 56

/-- Interleaves the bytes of a pair of words into the higher word. -/
def zipperHigh (high low : UInt64) : UInt64 :=
  (keep high 0xff000000 ||| keep low 0xff00000000) >>> 24 |||
    keep high 0xff0000 ||| keep high 0xff0000000000 >>> 16 |||
    keep high 0xff00 <<< 24 ||| keep low 0xff000000000000 >>> 8 |||
    keep high 0xff <<< 48 ||| keep low 0xff00000000000000

/-- Adds the interleaved bytes of `source` to `target`. -/
def zipperAdd (target source : Lanes) : Lanes :=
  ⟨target.a + zipperLow source.b source.a, target.b + zipperHigh source.b source.a,
    target.c + zipperLow source.d source.c, target.d + zipperHigh source.d source.c⟩

/-- Mixes a packet into the state. -/
def update (s : HashState) (packet : Lanes) : HashState :=
  let v1 := s.v1.zip (· + ·) (s.mul0.zip (· + ·) packet)
  let mul0 := s.mul0.zip (· ^^^ ·) (v1.zip cross s.v0)
  let v0 := s.v0.zip (· + ·) s.mul1
  let mul1 := s.mul1.zip (· ^^^ ·) (v0.zip cross v1)
  let v0 := zipperAdd v0 v1
  ⟨v0, zipperAdd v1 v0, mul0, mul1⟩

/-- Turns both halves of a word to the left. -/
def turnHalves (count : UInt64) (x : UInt64) : UInt64 :=
  let turn (h : UInt64) : UInt64 := keep (h <<< count ||| h >>> (32 - count)) 0xffffffff
  turn (keep x 0xffffffff) ||| turn (x >>> 32) <<< 32

/-- The last bytes, fewer than 32, as a packet. -/
def padLast (bytes : Bytes) : Bytes :=
  let size := bytes.length
  let whole := size / 4 * 4
  let tail := bytes.drop whole
  let byte (i : Nat) : UInt8 := tail.getD i 0
  let front := bytes.take whole
  if size % 32 ≥ 16 then
    front ++ List.replicate (28 - whole) 0 ++ (bytes.drop (size - 4))
  else if size % 4 = 0 then front ++ List.replicate (32 - whole) 0
  else
    front ++ List.replicate (16 - whole) 0 ++ [byte 0, byte (size % 4 / 2), byte (size % 4 - 1)] ++
      List.replicate 13 0

def updateLast (s : HashState) (bytes : Bytes) : HashState :=
  let size := UInt64.ofNat bytes.length
  let s := { s with v0 := s.v0.map (· + (size <<< 32 + size)), v1 := s.v1.map (turnHalves size) }
  s.update (Lanes.ofPacket (padLast bytes))

/-- Mixes the state with a permutation of itself. -/
def permute (s : HashState) : HashState :=
  s.update ⟨swapHalves s.v0.c, swapHalves s.v0.d, swapHalves s.v0.a, swapHalves s.v0.b⟩

def finish (s : HashState) : UInt64 :=
  let s := s.permute.permute.permute.permute
  s.v0.a + s.v1.a + s.mul0.a + s.mul1.a

/-- Mixes in whole packets, at most `fuel` of them, then the rest. -/
def absorb : Nat → HashState → Bytes → HashState
  | 0, s, _ => s
  | fuel + 1, s, bytes =>
    let packet := bytes.take 32
    if packet.length = 32 then absorb fuel (s.update (Lanes.ofPacket packet)) (bytes.drop 32)
    else if bytes.isEmpty then s
    else s.updateLast bytes

end HashState

/-- The key of fingerprints. -/
def fingerprintKey : Lanes := Lanes.ofPacket "classdep-fingerprint-key-0123456".toUTF8.toList

/-- The fingerprint of class bytes. -/
def fingerprint (data : Bytes) : UInt64 :=
  (HashState.absorb (data.length / 32 + 1) (HashState.start fingerprintKey) data).finish

end Linkage
