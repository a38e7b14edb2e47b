import Jericho.Library.StdText

/-! SHA-1, as the handshake of a web socket calls it. -/
namespace Jericho.Crypt
open StdText

/-- `SHA1CircularShift` -/
def circularShift (bits word : UInt32) : UInt32 := (word <<< bits) ||| (word >>> (32 - bits))

/-- `Intermediate_Hash` -/
structure Sha1Hash where
  a : UInt32 := 0x67452301
  b : UInt32 := 0xEFCDAB89
  c : UInt32 := 0x98BADCFE
  d : UInt32 := 0x10325476
  e : UInt32 := 0xC3D2E1F0

def Sha1Hash.words (h : Sha1Hash) : List UInt32 := [h.a, h.b, h.c, h.d, h.e]

/-- Four bytes of a block as a word, the first one highest. -/
def blockWords : Bytes → List UInt32
  | a :: b :: c :: d :: rest =>
    (a.toUInt32 <<< 24 ||| b.toUInt32 <<< 16 ||| c.toUInt32 <<< 8 ||| d.toUInt32) :: blockWords rest
  | _ => []

/-- The word sequence `W`, its last word first. -/
def extendWords : Nat → List UInt32 → List UInt32
  | 0, ws => ws
  | t + 1, ws =>
    extendWords t (circularShift 1 (ws.getD 2 0 ^^^ ws.getD 7 0 ^^^ ws.getD 13 0 ^^^ ws.getD 15 0) :: ws)

/-- One of the eighty rounds. -/
def sha1Round (h : Sha1Hash) (t : Nat) (w : UInt32) : Sha1Hash :=
  let mix :=
    if t < 20 then ((h.b &&& h.c) ||| (~~~h.b &&& h.d)) + h.e + w + 0x5A827999
    else if t < 40 then (h.b ^^^ h.c ^^^ h.d) + h.e + w + 0x6ED9EBA1
    else if t < 60 then ((h.b &&& h.c) ||| (h.b &&& h.d) ||| (h.c &&& h.d)) + h.e + w + 0x8F1BBCDC
    else (h.b ^^^ h.c ^^^ h.d) + h.e + w + 0xCA62C1D6
  ⟨circularShift 5 h.a + mix, h.a, circularShift 30 h.b, h.c, h.d⟩

def sha1Rounds : Nat → List UInt32 → Sha1Hash → Sha1Hash
  | _, [], h => h
  | t, w :: ws, h => sha1Rounds (t + 1) ws (sha1Round h t w)

/-- `SHA1ProcessMessageBlock` -/
def sha1ProcessBlock (h : Sha1Hash) (block : Bytes) : Sha1Hash :=
  let r := sha1Rounds 0 (extendWords 64 (blockWords block).reverse).reverse h
  ⟨h.a + r.a, h.b + r.b, h.c + r.c, h.d + r.d, h.e + r.e⟩

/-- The context: the bytes of the block that is not full, and the length in bits. The flag for a length that
leaves 64 bits is left out. -/
structure Sha1Context where
  hash : Sha1Hash := {}
  length : UInt64 := 0
  block : Bytes := []

/-- `SHA1Input`, for one byte -/
def Sha1Context.put (ctx : Sha1Context) (byte : Byte) : Sha1Context :=
  let block := ctx.block ++ [byte]
  if block.length = 64 then { hash := sha1ProcessBlock ctx.hash block, length := ctx.length + 8 }
  else { ctx with length := ctx.length + 8, block := block }

/-- The last eight bytes of the padding. -/
def lengthOctets (length : UInt64) : Bytes :=
  ([56, 48, 40, 32, 24, 16, 8, 0] : List UInt64).map fun shift => (length >>> shift).toUInt8

/-- `SHA1PadMessage` -/
def Sha1Context.pad (ctx : Sha1Context) : Sha1Hash :=
  let block := ctx.block ++ [0x80]
  if ctx.block.length > 55 then
    let hash := sha1ProcessBlock ctx.hash (block ++ List.replicate (64 - block.length) 0)
    sha1ProcessBlock hash (List.replicate 56 0 ++ lengthOctets ctx.length)
  else sha1ProcessBlock ctx.hash (block ++ (List.replicate (56 - block.length) 0 ++ lengthOctets ctx.length))

def wordOctets (w : UInt32) : Bytes := ([24, 16, 8, 0] : List UInt32).map fun shift => (w >>> shift).toUInt8

/-- `SHA1Reset`, `SHA1Input`, `SHA1Result` -/
def sha1 (message : Bytes) : Bytes := (message.foldl Sha1Context.put {}).pad.words.flatMap wordOctets

theorem length_sha1 (message : Bytes) : (sha1 message).length = 20 := rfl

example : sha1 (lit "abc") =
    [0xA9, 0x99, 0x3E, 0x36, 0x47, 0x06, 0x81, 0x6A, 0xBA, 0x3E, 0x25, 0x71, 0x78, 0x50, 0xC2, 0x6C, 0x9C, 0xD0, 0xD8,
      0x9D] := by
  decide +kernel

end Jericho.Crypt
