/-!
# XXH64

The 64-bit xxHash of a byte string: four lanes over stripes of 32 bytes, then the remaining bytes by eights, by four
and one by one, then a final mixing.
-/

namespace HyperQuery.XXH64

def prime1 : UInt64 := 0x9E3779B185EBCA87
def prime2 : UInt64 := 0xC2B2AE3D27D4EB4F
def prime3 : UInt64 := 0x165667B19E3779F9
def prime4 : UInt64 := 0x85EBCA77C2B2AE63
def prime5 : UInt64 := 0x27D4EB2F165667C5

def rotateLeft (x : UInt64) (n : UInt64) : UInt64 := (x <<< n) ||| (x >>> (64 - n))

/-- The number whose bytes, lowest first, are given. -/
def littleEndian : List UInt8 → UInt64
  | [] => 0
  | b :: rest => b.toUInt64 ||| (littleEndian rest <<< 8)

/-- Takes eight bytes into a lane. -/
def round (lane input : UInt64) : UInt64 := rotateLeft (lane + input * prime2) 31 * prime1

/-- The four lanes. -/
structure Lanes where
  a : UInt64
  b : UInt64
  c : UInt64
  d : UInt64

def Lanes.start (seed : UInt64) : Lanes := ⟨seed + prime1 + prime2, seed + prime2, seed, seed - prime1⟩

/-- Takes a stripe of 32 bytes into the lanes. -/
def Lanes.stripe (l : Lanes) (bytes : List UInt8) : Lanes :=
  ⟨round l.a (littleEndian (bytes.take 8)), round l.b (littleEndian ((bytes.drop 8).take 8)),
    round l.c (littleEndian ((bytes.drop 16).take 8)), round l.d (littleEndian ((bytes.drop 24).take 8))⟩

def mergeLane (acc lane : UInt64) : UInt64 := (acc ^^^ round 0 lane) * prime1 + prime4

/-- The lanes as one number. -/
def Lanes.merge (l : Lanes) : UInt64 :=
  let acc := rotateLeft l.a 1 + rotateLeft l.b 7 + rotateLeft l.c 12 + rotateLeft l.d 18
  mergeLane (mergeLane (mergeLane (mergeLane acc l.a) l.b) l.c) l.d

/-- Takes the given number of whole stripes, and returns the bytes after them. -/
def stripes : Nat → Lanes → List UInt8 → Lanes × List UInt8
  | 0, l, bytes => (l, bytes)
  | n + 1, l, bytes => stripes n (l.stripe (bytes.take 32)) (bytes.drop 32)

/-- Takes bytes by eights. -/
def eights : Nat → UInt64 → List UInt8 → UInt64 × List UInt8
  | 0, acc, bytes => (acc, bytes)
  | n + 1, acc, bytes =>
    let mixed := acc ^^^ round 0 (littleEndian (bytes.take 8))
    eights n (rotateLeft mixed 27 * prime1 + prime4) (bytes.drop 8)

/-- Takes four bytes, if there are as many. -/
def four (acc : UInt64) (bytes : List UInt8) : UInt64 × List UInt8 :=
  if bytes.length < 4 then (acc, bytes)
  else
    let mixed := acc ^^^ (littleEndian (bytes.take 4) * prime1)
    (rotateLeft mixed 23 * prime2 + prime3, bytes.drop 4)

/-- Takes bytes one by one. -/
def single (acc : UInt64) (byte : UInt8) : UInt64 := rotateLeft (acc ^^^ (byte.toUInt64 * prime5)) 11 * prime1

/-- The final mixing. -/
def avalanche (x : UInt64) : UInt64 :=
  let x := (x ^^^ (x >>> 33)) * prime2
  let x := (x ^^^ (x >>> 29)) * prime3
  x ^^^ (x >>> 32)

/-- The hash of a byte string. -/
def hash (seed : UInt64) (bytes : List UInt8) : UInt64 :=
  let length := bytes.length
  let (lanes, rest) := stripes (length / 32) (Lanes.start seed) bytes
  let acc := if length < 32 then seed + prime5 else lanes.merge
  let (acc, rest) := eights (rest.length / 8) (acc + UInt64.ofNat length) rest
  let (acc, rest) := four acc rest
  avalanche (rest.foldl single acc)

end HyperQuery.XXH64
