import Labs.Base.OnesSum
import Labs.Jos.Mmu

/-!
# Internet checksums

`net/lwip/core/ipv4/inet_chksum.c`. Bytes are summed two at a time with an end-around carry. The
three implementations of `lwip_standard_chksum` are here, of which the first is used, and the
checksums over a text, over a chain of buffers, and over a chain with a pseudo header. A buffer is
given by its bytes.
-/

namespace Labs.Jos.Chksum

open OnesSum

abbrev Half := BitVec 16

/-- `FOLD_U32T`. -/
def fold (u : Word) : Word := (u >>> 16) + (u &&& 0x0000FFFF)

/-- `SWAP_BYTES_IN_WORD`. -/
def swapBytes (w : Word) : Word := ((w &&& 0xFF) <<< 8) ||| ((w &&& 0xFF00) >>> 8)

def htons (n : Half) : Half := ((n &&& 0xFF) <<< 8) ||| ((n &&& 0xFF00) >>> 8)

/-! ## The first version -/

/-- The loop of the first version: what is left, and the sum. -/
def standardLoop : List Byte → Word → List Byte × Word
  | x :: y :: rest, acc =>
      standardLoop rest (acc + ((x.setWidth 16 <<< 8) ||| y.setWidth 16 : Half).setWidth 32)
  | rest, acc => (rest, acc)

/-- The byte that is left over is added as the first of a pair. -/
def addRest (acc : Word) : List Byte → Word
  | [] => acc
  | x :: _ => acc + (x.setWidth 16 <<< 8 : Half).setWidth 32

/-- `lwip_standard_chksum`. -/
def lwipStandardChksum (data : List Byte) : Half :=
  let (rest, acc) := standardLoop data 0
  let acc := addRest acc rest
  let acc := fold acc
  let acc := if acc &&& 0xFFFF0000 ≠ 0 then fold acc else acc
  htons (acc.setWidth 16)

/-! ## The second and the third version -/

/-- The sixteen bits at two bytes, as the processor reads them. -/
def pair (x y : Byte) : Half := y ++ x

/-- The thirty-two bits at four bytes. -/
def quad (x y z w : Byte) : Word := w ++ z ++ y ++ x

/-- The loop over aligned pairs of bytes. -/
def pairLoop : List Byte → Word → List Byte × Word
  | x :: y :: rest, sum => pairLoop rest (sum + (pair x y).setWidth 32)
  | rest, sum => (rest, sum)

/-- The byte in front of an aligned address, in the upper half of `t`. -/
def firstByte (odd : Bool) : List Byte → Half × List Byte
  | [] => (0, [])
  | x :: rest => if odd then (x.setWidth 16 <<< 8, rest) else (0, x :: rest)

/-- The byte that is left over, in the lower half of `t`. -/
def lastByte (t : Half) : List Byte → Half
  | [] => t
  | x :: _ => (t &&& 0xFF00) ||| x.setWidth 16

/-- The end of both versions. -/
def finish (odd : Bool) (t : Half) (sum : Word) : Half :=
  let sum := sum + t.setWidth 32
  let sum := fold sum
  let sum := fold sum
  (if odd then swapBytes sum else sum).setWidth 16

/-- The second version, for a text at the address `dataptr`. -/
def lwipStandardChksum2 (dataptr : Word) (data : List Byte) : Half :=
  let odd := dataptr &&& 1 ≠ 0
  let (t, ps) := firstByte odd data
  let (rest, sum) := pairLoop ps 0
  finish odd (lastByte t rest) sum

/-- Add with the carry added back. -/
def addCarry (sum x : Word) : Word := if sum + x < sum then sum + x + 1 else sum + x

/-- The unrolled loop of the third version. -/
def quadLoop : List Byte → Word → List Byte × Word
  | x₀ :: x₁ :: x₂ :: x₃ :: y₀ :: y₁ :: y₂ :: y₃ :: rest, sum =>
      quadLoop rest (addCarry (addCarry sum (quad x₀ x₁ x₂ x₃)) (quad y₀ y₁ y₂ y₃))
  | rest, sum => (rest, sum)

/-- A pair of bytes in front of an address that is a multiple of four. -/
def firstPair (ps : Word) : List Byte → List Byte × Word
  | x :: y :: rest => if ps &&& 3 ≠ 0 then (rest, (pair x y).setWidth 32) else (x :: y :: rest, 0)
  | rest => (rest, 0)

/-- The third version. -/
def lwipStandardChksum3 (dataptr : Word) (data : List Byte) : Half :=
  let odd := dataptr &&& 1 ≠ 0
  let (t, ps) := firstByte odd data
  let (pl, sum) := firstPair (if odd ∧ data ≠ [] then dataptr + 1 else dataptr) ps
  let (ps, sum) := quadLoop pl sum
  let (rest, sum) := pairLoop ps (fold sum)
  finish odd (lastByte t rest) sum

/-! ## Checksums -/

/-- `inet_chksum`. -/
def inetChksum (data : List Byte) : Half := ~~~lwipStandardChksum data

/-- The loop over a chain of buffers: the sum, and whether its bytes are exchanged. -/
def chainLoop : List (List Byte) → Word → Bool → Word × Bool
  | [], acc, swapped => (acc, swapped)
  | q :: rest, acc, swapped =>
      let acc := fold (acc + (lwipStandardChksum q).setWidth 32)
      if q.length % 2 ≠ 0 then chainLoop rest (swapBytes acc) (!swapped)
      else chainLoop rest acc swapped

/-- The sum of a chain. -/
def chainSum (p : List (List Byte)) : Word :=
  let (acc, swapped) := chainLoop p 0 false
  if swapped then swapBytes acc else acc

def inetChksumPbuf (p : List (List Byte)) : Half := ~~~(chainSum p).setWidth 16

/-- `inet_chksum_pseudo`. The addresses are in network byte order. -/
def inetChksumPseudo (p : List (List Byte)) (src dest : Word) (proto : Byte) (protoLen : Half) :
    Half :=
  let acc := chainSum p
  let acc := acc + (src &&& 0xFFFF)
  let acc := acc + ((src >>> 16) &&& 0xFFFF)
  let acc := acc + (dest &&& 0xFFFF)
  let acc := acc + ((dest >>> 16) &&& 0xFFFF)
  let acc := acc + (htons (proto.setWidth 16)).setWidth 32
  let acc := acc + (htons protoLen).setWidth 32
  let acc := fold acc
  let acc := fold acc
  ~~~acc.setWidth 16

end Labs.Jos.Chksum
