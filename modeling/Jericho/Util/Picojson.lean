import Jericho.Library.JsonTree
import Jericho.Util.Json

/-! picojson: the text of a value, and the parser that reads one from a cursor. -/
namespace Jericho.Util.Picojson
open StdText JsonTree

/-- What `strtod` makes of a text that looks like a number: it stops before the end, or gives a
double, or overflows. -/
inductive Strtod where
  | partly
  | finite (n : ℚ)
  | infinite

/-- The C library's numbers: which of them are doubles, what `snprintf` writes for one, and what
`strtod` reads. -/
structure Numbers where
  double : ℚ → Prop
  print : ℚ → Bytes
  read : Bytes → Strtod

/-- The characters `_parse_number` collects. -/
def numberChar (c : Byte) : Bool := isdigit c || c = 43 || c = 45 || c = 101 || c = 69 || c = 46

/-- The characters a number may start with. -/
def numberStart (c : Byte) : Bool := isdigit c || c = 45

/-- What is written with seventeen digits is read as the same number, and is written with the
characters of one. -/
structure Numbers.Exact (d : Numbers) : Prop where
  read_print : ∀ n, d.double n → d.read (d.print n) = .finite n
  chars : ∀ n, d.double n → ∀ c ∈ d.print n, numberChar c = true
  start : ∀ n, d.double n → ∃ c cs, d.print n = c :: cs ∧ numberStart c = true
  double : ∀ s n, d.read s = .finite n → d.double n

section Serialize
variable (d : Numbers)

/-- `_indent` -/
def indentText (indent : Int) : Bytes := 10 :: List.replicate (indent * 2).toNat 32

/-- The indentation inside an array or an object; -1 stands for none at all. -/
def deeper (indent : Int) : Int := if indent ≠ -1 then indent + 1 else indent

def breakText (indent : Int) : Bytes := if indent ≠ -1 then indentText indent else []

/-- The end of `_serialize`. -/
def lineEnd (indent : Int) : Bytes := if indent = 0 then [10] else []

/-- `to_str`, for a value that is neither a string nor an array nor an object. -/
def boolText (b : Bool) : Bytes := if b then lit "true" else lit "false"

mutual

/-- The switch of `_serialize`. -/
def valueText (indent : Int) : Json Bytes → Bytes
  | .null => lit "null"
  | .bool b => boolText b
  | .number n => d.print n
  | .string s => serializeStr s
  | .array elements =>
    91 :: elementsText (deeper indent) true elements ++
      (if elements.isEmpty then [] else breakText indent) ++ [93]
  | .object fields =>
    123 :: fieldsText (deeper indent) true fields ++
      (if fields.isEmpty then [] else breakText indent) ++ [125]

def elementsText (indent : Int) (first : Bool) : List (Json Bytes) → Bytes
  | [] => []
  | v :: vs => (if first then [] else [44]) ++ breakText indent ++ (valueText indent v ++ lineEnd indent) ++
      elementsText indent false vs

def fieldsText (indent : Int) (first : Bool) : List (Bytes × Json Bytes) → Bytes
  | [] => []
  | f :: fs => (if first then [] else [44]) ++ breakText indent ++ serializeStr f.1 ++ [58] ++
      (if indent ≠ -1 then [32] else []) ++ (valueText indent f.2 ++ lineEnd indent) ++ fieldsText indent false fs

end

def serialize (prettify : Bool) (v : Json Bytes) : Bytes :=
  let indent := if prettify then 0 else -1
  valueText d indent v ++ lineEnd indent

end Serialize

/-- A cursor: the character that was got last, unless it was put back, and what is ahead of it. The code counts the
lines in an `int`; they are in the message only. -/
structure Input where
  current : Option Byte := none
  ahead : Bytes
  line : Nat := 1

namespace Input

def getc (i : Input) : Option Byte × Input :=
  let line := if i.current = some 10 then i.line + 1 else i.line
  match i.ahead with
  | [] => (none, ⟨none, [], line⟩)
  | c :: rest => (some c, ⟨some c, rest, line⟩)

def ungetc (i : Input) : Input :=
  match i.current with
  | some c => { i with current := none, ahead := c :: i.ahead }
  | none => i

def blank (c : Byte) : Bool := c = 32 || c = 9 || c = 10 || c = 13

/-- The rounds of `skip_ws`, one for each blank. -/
def skipLoop : Nat → Input → Input
  | 0, i => i
  | rounds + 1, i =>
    match i.getc with
    | (some c, i) => if blank c then skipLoop rounds i else i.ungetc
    | (none, i) => i.ungetc

def skipWs (i : Input) : Input := skipLoop (i.ahead.length + 1) i

def expect (i : Input) (expected : Byte) : Bool × Input :=
  match i.skipWs.getc with
  | (some c, i) => if c = expected then (true, i) else (false, i.ungetc)
  | (none, i) => (false, i.ungetc)

/-- `match` -/
def matchText : Bytes → Input → Bool × Input
  | [], i => (true, i)
  | p :: pattern, i =>
    match i.getc with
    | (some c, i) => if c = p then matchText pattern i else (false, i.ungetc)
    | (none, i) => (false, i.ungetc)

end Input

/-- The value of a hexadecimal digit in `_parse_quadhex`. -/
def hexValue (c : Byte) : Option Nat :=
  if 48 ≤ c ∧ c ≤ 57 then some (c.toNat - 48)
  else if 65 ≤ c ∧ c ≤ 70 then some (c.toNat - 55)
  else if 97 ≤ c ∧ c ≤ 102 then some (c.toNat - 87)
  else none

/-- The loop of `_parse_quadhex`; none stands for -1. -/
def quadhexLoop : Nat → Nat → Input → Option Nat × Input
  | 0, uniCh, i => (some uniCh, i)
  | rounds + 1, uniCh, i =>
    match i.getc with
    | (none, i) => (none, i)
    | (some c, i) =>
      match hexValue c with
      | some hex => quadhexLoop rounds (uniCh * 16 + hex) i
      | none => (none, i.ungetc)

def parseQuadhex (i : Input) : Option Nat × Input := quadhexLoop 4 0 i

/-- The bytes of a code point. -/
def utf8 (uniCh : Nat) : Bytes :=
  let tail (k : Nat) : Byte := UInt8.ofNat (0x80 ||| (uniCh >>> k &&& 0x3f))
  if uniCh < 0x80 then [UInt8.ofNat uniCh]
  else if uniCh < 0x800 then [UInt8.ofNat (0xc0 ||| uniCh >>> 6), tail 0]
  else if uniCh < 0x10000 then [UInt8.ofNat (0xe0 ||| uniCh >>> 12), tail 6, tail 0]
  else [UInt8.ofNat (0xf0 ||| uniCh >>> 18), tail 12, tail 6, tail 0]

/-- `_parse_codepoint`: what is appended to the string. -/
def parseCodepoint (i : Input) : Option Bytes × Input :=
  match parseQuadhex i with
  | (none, i) => (none, i)
  | (some uniCh, i) =>
    if 0xd800 ≤ uniCh ∧ uniCh ≤ 0xdfff then
      if 0xdc00 ≤ uniCh then (none, i)
      else
        match i.getc with
        | (some 92, i) =>
          match i.getc with
          | (some 117, i) =>
            match parseQuadhex i with
            | (some second, i) =>
              if 0xdc00 ≤ second ∧ second ≤ 0xdfff then
                (some (utf8 (((uniCh - 0xd800) <<< 10 ||| ((second - 0xdc00) &&& 0x3ff)) + 0x10000)), i)
              else (none, i)
            | (none, i) => (none, i)
          | (_, i) => (none, i.ungetc)
        | (_, i) => (none, i.ungetc)
    else (some (utf8 uniCh), i)

/-- The character that a letter behind a backslash stands for. -/
def unescape (c : Byte) : Option Byte :=
  if c = 34 ∨ c = 92 ∨ c = 47 then some c
  else if c = 98 then some 8
  else if c = 102 then some 12
  else if c = 110 then some 10
  else if c = 114 then some 13
  else if c = 116 then some 9
  else none

/-- `_parse_string` -/
def parseString : Nat → Bytes → Input → Exec (Option Bytes × Input)
  | 0, _, _ => .error .undefined
  | rounds + 1, out, i =>
    match i.getc with
    | (none, i) => .ok (none, i.ungetc)
    | (some ch, i) =>
      if ch < 32 then .ok (none, i.ungetc)
      else if ch = 34 then .ok (some out, i)
      else if ch = 92 then
        match i.getc with
        | (none, i) => .ok (none, i)
        | (some ch, i) =>
          match unescape ch with
          | some c => parseString rounds (out ++ [c]) i
          | none =>
            if ch = 117 then
              match parseCodepoint i with
              | (some bytes, i) => parseString rounds (out ++ bytes) i
              | (none, i) => .ok (none, i)
            else .ok (none, i)
      else parseString rounds (out ++ [ch]) i

/-- `_parse_number`, whose decimal point is that of the C locale. -/
def parseNumber : Nat → Bytes → Input → Bytes × Input
  | 0, numStr, i => (numStr, i)
  | rounds + 1, numStr, i =>
    match i.getc with
    | (some ch, i) => if numberChar ch then parseNumber rounds (numStr ++ [ch]) i else (numStr, i.ungetc)
    | (none, i) => (numStr, i.ungetc)

/-- A field in the map, which keeps them in the order of their keys; a key that is there already
gets the new value. -/
def insertField (key : Bytes) (v : Json Bytes) : List (Bytes × Json Bytes) → List (Bytes × Json Bytes)
  | [] => [(key, v)]
  | f :: fs =>
    if key < f.1 then (key, v) :: f :: fs
    else if key = f.1 then (key, v) :: fs
    else f :: insertField key v fs

/-- A result that is only there if the test went through. -/
def checked {α : Type} (a : α) (r : Bool × Input) : Option α × Input := (if r.1 then some a else none, r.2)

mutual

/-- `_parse` with a `default_parse_context`. An overflowing number throws. -/
def parseValue (d : Numbers) : Nat → Nat → Input → Exec (Option (Json Bytes) × Input)
  | 0, _, _ => .error .undefined
  | rounds + 1, depths, i =>
    match i.skipWs.getc with
    | (none, i) => .ok (none, i.ungetc)
    | (some ch, i) =>
      if ch = 110 then .ok (checked .null (i.matchText (lit "ull")))
      else if ch = 102 then .ok (checked (.bool false) (i.matchText (lit "alse")))
      else if ch = 116 then .ok (checked (.bool true) (i.matchText (lit "rue")))
      else if ch = 34 then do
        let (s, i) ← parseString (i.ahead.length + 1) [] i
        return (s.map .string, i)
      else if ch = 91 then
        if depths = 0 then .ok (none, i)
        else
          match i.expect 93 with
          | (true, i) => .ok (some (.array []), i)
          | (false, i) => do
            let (items, i) ← parseItems d rounds (depths - 1) [] i
            return (items.map .array, i)
      else if ch = 123 then
        if depths = 0 then .ok (none, i)
        else
          match i.expect 125 with
          | (true, i) => .ok (some (.object []), i)
          | (false, i) => do
            let (fields, i) ← parseFields d rounds depths [] i
            return (fields.map .object, i)
      else if numberStart ch then
        let i := i.ungetc
        let (numStr, i) := parseNumber (i.ahead.length + 1) [] i
        match d.read numStr with
        | .finite n => .ok (some (.number n), i)
        | .infinite => .error .runtimeError
        | .partly => .ok (none, i)
      else .ok (none, i.ungetc)

/-- The loop of `_parse_array`. -/
def parseItems (d : Numbers) : Nat → Nat → List (Json Bytes) → Input → Exec (Option (List (Json Bytes)) × Input)
  | 0, _, _, _ => .error .undefined
  | rounds + 1, depths, items, i => do
    let (v, i) ← parseValue d rounds depths i
    match v with
    | none => return (none, i)
    | some v =>
      match i.expect 44 with
      | (true, i) => parseItems d rounds depths (items ++ [v]) i
      | (false, i) => return checked (items ++ [v]) (i.expect 93)

/-- The loop of `_parse_object`. -/
def parseFields (d : Numbers) : Nat → Nat → List (Bytes × Json Bytes) → Input →
    Exec (Option (List (Bytes × Json Bytes)) × Input)
  | 0, _, _, _ => .error .undefined
  | rounds + 1, depths, fields, i =>
    match i.expect 34 with
    | (false, i) => .ok (none, i)
    | (true, i) => do
      let (key, i) ← parseString (i.ahead.length + 1) [] i
      match key with
      | none => return (none, i)
      | some key =>
        match i.expect 58 with
        | (false, i) => return (none, i)
        | (true, i) =>
          let (v, i) ← parseValue d rounds depths i
          match v with
          | none => return (none, i)
          | some v =>
            let fields := insertField key v fields
            match i.expect 44 with
            | (true, i) => parseFields d rounds depths fields i
            | (false, i) => return checked fields (i.expect 125)

end

def defaultMaxDepths : Nat := 100

/-- The rest of the line, for the message. -/
def nearText : Bytes → Bytes
  | [] => []
  | c :: rest => if c = 10 then [] else if c ≥ 32 then c :: nearText rest else nearText rest

/-- `parse` of a string: the value, unless there is an error, and the error. What the code leaves in `out` on an error
is not a result here. -/
def parse (d : Numbers) (s : Bytes) : Exec (Option (Json Bytes) × Bytes) := do
  let (v, i) ← parseValue d (2 * s.length + 1) defaultMaxDepths { ahead := s }
  match v with
  | some v => return (some v, [])
  | none => return (none, lit "syntax error at line " ++ decimal i.line ++ lit " near: " ++ nearText i.ahead)

end Jericho.Util.Picojson
