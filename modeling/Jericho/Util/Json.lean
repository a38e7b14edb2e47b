import Jericho.Library.StdText

/-! The compact text picojson writes for strings, arrays and objects. -/
namespace Jericho.Util
open StdText

/-- `serialize_str_char` -/
def serializeChar (c : Byte) : Bytes :=
  let hex (n : Nat) : Byte := if n < 10 then UInt8.ofNat (48 + n) else UInt8.ofNat (87 + n)
  if c = 34 ∨ c = 92 ∨ c = 47 then [92, c]
  else if c = 8 then lit "\\b"
  else if c = 12 then lit "\\f"
  else if c = 10 then lit "\\n"
  else if c = 13 then lit "\\r"
  else if c = 9 then lit "\\t"
  else if c < 32 ∨ c = 127 then lit "\\u00" ++ [hex (c.toNat / 16), hex (c.toNat % 16)]
  else [c]

/-- `serialize_str` -/
def serializeStr (s : Bytes) : Bytes := 34 :: s.flatMap serializeChar ++ [34]

/-- An array of texts that are already serialized. -/
def arrayText (elements : List Bytes) : Bytes := 91 :: (elements.intersperse [44]).flatten ++ [93]

/-- An object, its fields in the order of their keys. -/
def objectText (fields : List (Bytes × Bytes)) : Bytes :=
  123 :: ((fields.map fun f => serializeStr f.1 ++ 58 :: f.2).intersperse [44]).flatten ++ [125]

end Jericho.Util
