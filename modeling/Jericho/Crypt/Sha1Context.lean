import Jericho.Library.BlockText
import Jericho.Library.WebFrame
import Jericho.Crypt.Sha1

/-! The context of SHA-1 as its caller uses it: a text that comes in parts, a digest that is asked for, and
the codes of the misuse. It refines the digest of the standard. -/
namespace Jericho.Crypt.Sha1
open StdText BlockText

def shaSuccess : Int := 0
def shaStateError : Int := 3

/-- `SHA1Context`. `Corrupted` is 0, `shaStateError`, or 1 where the text is too long. -/
structure Context where
  intermediateHash : Sha1Hash
  lengthLow : UInt32
  lengthHigh : UInt32
  messageBlockIndex : Nat
  messageBlock : Vector Byte 64
  computed : Bool
  corrupted : Int

namespace Context

/-- `SHA1Reset`, which leaves the block as it is. -/
def reset (ctx : Context) : Context :=
  { ctx with
    lengthLow := 0
    lengthHigh := 0
    messageBlockIndex := 0
    intermediateHash := {}
    computed := false
    corrupted := 0 }

/-- `SHA1ProcessMessageBlock` -/
def processMessageBlock (ctx : Context) : Context :=
  { ctx with intermediateHash := sha1ProcessBlock ctx.intermediateHash ctx.messageBlock.toList, messageBlockIndex := 0 }

/-- A byte at `Message_Block_Index`, which goes on. -/
def store (ctx : Context) (byte : Byte) : Exec Context :=
  if h : ctx.messageBlockIndex < 64 then
    .ok { ctx with
      messageBlock := ctx.messageBlock.set ctx.messageBlockIndex byte h
      messageBlockIndex := ctx.messageBlockIndex + 1 }
  else .error .undefined

/-- The loops of `SHA1PadMessage` that fill the block. -/
def storeZeros : Nat → Context → Exec Context
  | 0, ctx => .ok ctx
  | k + 1, ctx => do
    let ctx ← ctx.store 0
    storeZeros k ctx

/-- The length is stored in the last eight bytes. -/
def storeLength (ctx : Context) : Context :=
  let block := ctx.messageBlock.set 56 (ctx.lengthHigh >>> 24).toUInt8
  let block := block.set 57 (ctx.lengthHigh >>> 16).toUInt8
  let block := block.set 58 (ctx.lengthHigh >>> 8).toUInt8
  let block := block.set 59 ctx.lengthHigh.toUInt8
  let block := block.set 60 (ctx.lengthLow >>> 24).toUInt8
  let block := block.set 61 (ctx.lengthLow >>> 16).toUInt8
  let block := block.set 62 (ctx.lengthLow >>> 8).toUInt8
  let block := block.set 63 ctx.lengthLow.toUInt8
  { ctx with messageBlock := block }

/-- `SHA1PadMessage` -/
def padMessage (ctx : Context) : Exec Context := do
  if ctx.messageBlockIndex > 55 then
    let ctx ← ctx.store 0x80
    let ctx ← storeZeros (64 - ctx.messageBlockIndex) ctx
    let ctx := ctx.processMessageBlock
    let ctx ← storeZeros (56 - ctx.messageBlockIndex) ctx
    return ctx.storeLength.processMessageBlock
  else
    let ctx ← ctx.store 0x80
    let ctx ← storeZeros (56 - ctx.messageBlockIndex) ctx
    return ctx.storeLength.processMessageBlock

/-- Eight more bits. -/
def count (ctx : Context) : Context :=
  let low := ctx.lengthLow + 8
  if low = 0 then
    let high := ctx.lengthHigh + 1
    { ctx with lengthLow := low, lengthHigh := high, corrupted := if high = 0 then 1 else ctx.corrupted }
  else { ctx with lengthLow := low }

/-- One round of the loop in `SHA1Input`. -/
def put (ctx : Context) (byte : Byte) : Exec Context := do
  let ctx ← ctx.store byte
  let ctx := ctx.count
  return (if ctx.messageBlockIndex = 64 then ctx.processMessageBlock else ctx)

def inputLoop : Bytes → Context → Exec Context
  | [], ctx => .ok ctx
  | byte :: rest, ctx =>
    if ctx.corrupted ≠ 0 then .ok ctx
    else do
      let ctx ← ctx.put byte
      inputLoop rest ctx

/-- `SHA1Input` -/
def input (ctx : Context) (message : Bytes) : Exec (Int × Context) :=
  if message.length = 0 then .ok (shaSuccess, ctx)
  else if ctx.computed then .ok (shaStateError, { ctx with corrupted := shaStateError })
  else if ctx.corrupted ≠ 0 then .ok (ctx.corrupted, ctx)
  else do
    let ctx ← inputLoop message ctx
    return (shaSuccess, ctx)

/-- The part of `SHA1Result` that is done once. -/
def compute (ctx : Context) : Exec Context :=
  if ctx.computed then .ok ctx
  else do
    let ctx ← ctx.padMessage
    return { ctx with
      messageBlock := Vector.replicate 64 0
      lengthLow := 0
      lengthHigh := 0
      computed := true }

/-- `SHA1Result`: the code, and the digest that is written. -/
def result (ctx : Context) : Exec (Int × Option Bytes × Context) :=
  if ctx.corrupted ≠ 0 then .ok (ctx.corrupted, none, ctx)
  else do
    let ctx ← ctx.compute
    return (shaSuccess, some (ctx.intermediateHash.words.flatMap wordOctets), ctx)

end Context

/-- A call for a context. -/
inductive Call where
  | reset
  | input (message : Bytes)
  | result

/-- The code that a call returns, and the digest that it writes. -/
structure Answer where
  code : Int
  digest : Option Bytes
deriving DecidableEq

def Context.call (ctx : Context) : Call → Exec (Answer × Context)
  | .reset => .ok (⟨shaSuccess, none⟩, ctx.reset)
  | .input message => do
    let (code, ctx) ← ctx.input message
    return (⟨code, none⟩, ctx)
  | .result => do
    let (code, digest, ctx) ← ctx.result
    return (⟨code, digest⟩, ctx)

/-- The answers to some calls, in order. -/
def Context.answers : List Call → Context → Exec (List Answer)
  | [], _ => .ok []
  | call :: calls, ctx => do
    let (answer, ctx) ← ctx.call call
    let answers ← Context.answers calls ctx
    return answer :: answers

/-- The zeros of the padding: with them the length of 64 bits ends a block. -/
def zeros (n : Nat) : Nat := (119 - n % 64) % 64

/-- The text of the standard: a one, the zeros, and the number of bits. -/
def padded (message : Bytes) : Bytes :=
  message ++ 0x80 :: (List.replicate (zeros message.length) 0 ++ WebFrame.bigEndian 8 (8 * message.length))

/-- The digest of the standard, which reads the padded text block by block. -/
def digest (message : Bytes) : Bytes :=
  (chained sha1ProcessBlock 64 {} (padded message)).words.flatMap wordOctets

/-- What a caller sees of a context: it takes a text, its digest is computed, or it is spoiled with a code. -/
inductive Hashing where
  | taking (message : Bytes)
  | computed (message : Bytes)
  | corrupted (code : Int)

def Hashing.input (message : Bytes) : Hashing → Hashing × Answer
  | .taking taken =>
    (if 8 * (taken ++ message).length < 2 ^ 64 then .taking (taken ++ message) else .corrupted 1, ⟨shaSuccess, none⟩)
  | .computed _ => (.corrupted shaStateError, ⟨shaStateError, none⟩)
  | .corrupted code => (.corrupted code, ⟨code, none⟩)

def Hashing.result : Hashing → Hashing × Answer
  | .taking taken => (.computed taken, ⟨shaSuccess, some (digest taken)⟩)
  | .computed taken => (.computed taken, ⟨shaSuccess, some (digest taken)⟩)
  | .corrupted code => (.corrupted code, ⟨code, none⟩)

def Hashing.call (s : Hashing) : Call → Hashing × Answer
  | .reset => (.taking [], ⟨shaSuccess, none⟩)
  | .input message => if message.length = 0 then (s, ⟨shaSuccess, none⟩) else s.input message
  | .result => s.result

def Hashing.answers : List Call → Hashing → List Answer
  | [], _ => []
  | call :: calls, s => (s.call call).2 :: Hashing.answers calls (s.call call).1

end Jericho.Crypt.Sha1
