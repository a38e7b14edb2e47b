import Jericho.Library.WebFrame

/-! The base framing of web sockets: the three widths of a length, and a reader that takes one frame
off the front of some bytes. -/
namespace WebFrame

inductive Width where
  | short
  | middle
  | long
  deriving DecidableEq

/-- How many bytes follow the seven bits of a length. -/
def Width.extra : Width → Nat
  | .short => 0
  | .middle => 2
  | .long => 8

/-- The lengths that a width has room for; the highest bit of a long one is zero. -/
def Width.limit : Width → Nat
  | .short => 126
  | .middle => 2 ^ 16
  | .long => 2 ^ 63

def Width.Fits (w : Width) (n : Nat) : Prop := n < w.limit

instance (w : Width) (n : Nat) : Decidable (w.Fits n) := inferInstanceAs (Decidable (n < w.limit))

/-- The seven bits. -/
def Width.code : Width → Nat → Nat
  | .short, n => n
  | .middle, _ => 126
  | .long, _ => 127

def Width.ofCode (code : Nat) : Width := if code = 127 then .long else if code = 126 then .middle else .short

/-- The shortest width for a length. -/
def shortest (n : Nat) : Width := if n ≤ 125 then .short else if n ≤ 65535 then .middle else .long

/-- A frame as it is read, with the bytes behind it. -/
structure Reading where
  fin : Bool
  opcode : Nat
  width : Width
  key : Option (List UInt8)
  payload : List UInt8
  rest : List UInt8
  deriving DecidableEq

/-- The bytes of a payload with the key taken off. -/
def unmask : Option (List UInt8) → List UInt8 → List UInt8
  | none, bs => bs
  | some key, bs => bs.mapIdx fun i c => c ^^^ key.getD (i % 4) 0

/-- One frame is read: no reserved bit is set, the length has its shortest width, and the payload is
there. -/
def read : List UInt8 → Option Reading
  | first :: second :: bs =>
    let code := second.toNat % 128
    let width := Width.ofCode code
    let n := if width = .short then code else ofBigEndian (bs.take width.extra)
    let key := if second.toNat < 128 then none else some ((bs.drop width.extra).take 4)
    let start := width.extra + if second.toNat < 128 then 0 else 4
    if first.toNat / 16 % 8 = 0 ∧ shortest n = width ∧ width.Fits n ∧ start + n ≤ bs.length then
      some {
        fin := 128 ≤ first.toNat
        opcode := first.toNat % 16
        width := width
        key := key
        payload := unmask key ((bs.drop start).take n)
        rest := bs.drop (start + n) }
    else none
  | _ => none

/-- A frame of a client, with its length in some width. -/
def maskedAs (w : Width) (fin : Bool) (opcode : UInt8) (f : Fragment) : List UInt8 :=
  firstByte fin opcode :: (128 ||| UInt8.ofNat (w.code f.payload.length)) ::
    (bigEndian w.extra f.payload.length ++ List.ofFn f.key ++ mask f.key 0 f.payload)

/-- The control frames that may come within a message. -/
inductive Control where
  | ping (frame : Fragment)
  | pong (frame : Fragment)

namespace Control

def frame : Control → Fragment
  | ping f => f
  | pong f => f

def opcode : Control → UInt8
  | ping _ => 9
  | pong _ => 10

def encode (c : Control) : List UInt8 := maskedAs .short true c.opcode c.frame

/-- The payload that asks for an answer. -/
def asks : Control → Option (List UInt8)
  | ping f => some f.payload
  | pong _ => none

end Control

/-- A fragment of a message with the control frames before it. -/
structure Part where
  controls : List Control
  width : Width
  fragment : Fragment

/-- A part as it may be sent. -/
structure Part.Valid (p : Part) : Prop where
  fits : p.width.Fits p.fragment.payload.length
  controls : ∀ c ∈ p.controls, c.frame.payload.length ≤ 124

/-- The frames of a message in parts: only the first fragment has the opcode, only the last the final
bit. -/
def partsBytes : UInt8 → List Part → List UInt8
  | _, [] => []
  | opcode, p :: ps =>
    p.controls.flatMap Control.encode ++ maskedAs p.width ps.isEmpty opcode p.fragment ++ partsBytes 0 ps

/-- The message of the parts. -/
def partsPayload (ps : List Part) : List UInt8 := ps.flatMap fun p => p.fragment.payload

/-- The control frames of the parts, in order. -/
def partsControls (ps : List Part) : List Control := ps.flatMap Part.controls

theorem partsPayload_cons (p : Part) (ps : List Part) :
    partsPayload (p :: ps) = p.fragment.payload ++ partsPayload ps := rfl

theorem partsPayload_singleton (p : Part) : partsPayload [p] = p.fragment.payload := List.append_nil _

theorem partsControls_cons (p : Part) (ps : List Part) : partsControls (p :: ps) = p.controls ++ partsControls ps := rfl

theorem partsControls_singleton (p : Part) : partsControls [p] = p.controls := List.append_nil _

theorem length_controls_le (cs : List Control) : cs.length ≤ (cs.flatMap Control.encode).length := by
  induction cs with
  | nil => exact Nat.le_refl 0
  | cons c cs ih =>
    have hsome : c.encode.length = c.encode.tail.length + 1 := rfl
    rw [List.flatMap_cons, List.length_append, List.length_cons, hsome]
    omega

/-- There are no more frames than bytes. -/
theorem length_parts_le (opcode : UInt8) (ps : List Part) :
    (partsControls ps).length + ps.length ≤ (partsBytes opcode ps).length := by
  induction ps generalizing opcode with
  | nil => exact Nat.le_refl 0
  | cons p ps ih =>
    have hmore := ih 0
    have hcontrols := length_controls_le p.controls
    have hsome : (maskedAs p.width ps.isEmpty opcode p.fragment).length =
        (maskedAs p.width ps.isEmpty opcode p.fragment).tail.length + 1 := rfl
    rw [partsControls_cons, partsBytes, List.length_append, List.length_append, List.length_append, List.length_cons,
      hsome]
    omega

theorem lengthCode_eq (n : Nat) : lengthCode n = (shortest n).code n := by
  unfold lengthCode shortest
  split_ifs <;> rfl

theorem lengthRest_eq (n : Nat) : lengthRest n = bigEndian (shortest n).extra n := by
  unfold lengthRest shortest
  split_ifs <;> rfl

theorem fits_shortest {n : Nat} (hn : n < 2 ^ 63) : (shortest n).Fits n := by
  unfold shortest
  split_ifs with hsmall hmiddle
  · exact Nat.lt_succ_of_le hsmall
  · exact Nat.lt_succ_of_le hmiddle
  · exact hn

/-- No width with room for a length has fewer bytes. -/
theorem extra_shortest_le {w : Width} {n : Nat} (hw : w.Fits n) : (shortest n).extra ≤ w.extra := by
  unfold shortest
  split_ifs with hsmall hmiddle
  · exact Nat.zero_le _
  · cases w with
    | short => exact absurd (Nat.le_of_lt_succ hw) hsmall
    | middle => exact Nat.le_refl 2
    | long => exact Nat.le_of_ble_eq_true rfl
  · cases w with
    | short => exact absurd (Nat.le_of_lt_succ hw) hsmall
    | middle => exact absurd (Nat.le_of_lt_succ hw) hmiddle
    | long => exact Nat.le_refl 8

/-- A fragment as it is usually sent. -/
def Part.plain (f : Fragment) : Part := ⟨[], shortest f.payload.length, f⟩

theorem partsBytes_plain (opcode : UInt8) (fs : List Fragment) :
    partsBytes opcode (fs.map Part.plain) = fragments opcode fs := by
  induction fs generalizing opcode with
  | nil => rfl
  | cons f fs ih =>
    have hempty : (fs.map Part.plain).isEmpty = fs.isEmpty := List.isEmpty_map
    rw [List.map_cons, partsBytes, fragments, ih, hempty, masked, lengthField, lengthCode_eq, lengthRest_eq]
    rfl

theorem partsPayload_plain (fs : List Fragment) : partsPayload (fs.map Part.plain) = fs.flatMap Fragment.payload :=
  List.flatMap_map ..

theorem partsControls_plain (fs : List Fragment) : partsControls (fs.map Part.plain) = [] := by
  induction fs with
  | nil => rfl
  | cons f fs ih => exact ih

theorem code_le {w : Width} {n : Nat} (hw : w.Fits n) : w.code n ≤ 127 := by
  cases w with
  | short => exact (Nat.le_of_lt_succ hw).trans (by decide)
  | middle => exact Nat.le_succ 126
  | long => exact Nat.le_refl 127

theorem ofCode_code {w : Width} {n : Nat} (hw : w.Fits n) : Width.ofCode (w.code n) = w := by
  cases w with
  | short =>
    have hlt : n < 126 := hw
    have hcode : Width.short.code n = n := rfl
    rw [hcode, Width.ofCode, if_neg (by omega), if_neg (by omega)]
  | middle => rfl
  | long => rfl

/-- The bytes of a length give it back. -/
theorem value_bigEndian {w : Width} {n : Nat} (hw : w.Fits n) (bs : List UInt8) :
    (if w = .short then w.code n else ofBigEndian ((bigEndian w.extra n ++ bs).take w.extra)) = n := by
  have htake : (bigEndian w.extra n ++ bs).take w.extra = bigEndian w.extra n :=
    List.take_left' (length_bigEndian w.extra n)
  rw [htake]
  cases w with
  | short => rfl
  | middle => exact ofBigEndian_bigEndian hw
  | long => exact ofBigEndian_bigEndian (Nat.lt_trans hw (by decide))

theorem firstByte_toNat {opcode : UInt8} (hopcode : opcode < 16) (fin : Bool) :
    (decide (128 ≤ (firstByte fin opcode).toNat) = fin) ∧ (firstByte fin opcode).toNat % 16 = opcode.toNat ∧
      (firstByte fin opcode).toNat / 16 % 8 = 0 := by
  have hall : ∀ k : Fin 16, ∀ fin, (decide (128 ≤ (firstByte fin (UInt8.ofNat k)).toNat) = fin) ∧
      (firstByte fin (UInt8.ofNat k)).toNat % 16 = (UInt8.ofNat k).toNat ∧
      (firstByte fin (UInt8.ofNat k)).toNat / 16 % 8 = 0 := by decide
  have hlt : opcode.toNat < 16 := hopcode
  have hopcode' := hall ⟨opcode.toNat, hlt⟩ fin
  rwa [UInt8.ofNat_toNat] at hopcode'

/-- The frame of a server is read as it was written. -/
theorem read_plain {opcode : UInt8} (hopcode : opcode < 16) (fin : Bool) {payload : List UInt8}
    (hpayload : payload.length < 2 ^ 63) (rest : List UInt8) :
    read (plain fin opcode payload ++ rest) =
      some ⟨fin, opcode.toNat, shortest payload.length, none, payload, rest⟩ := by
  obtain ⟨hfin, hop, hrsv⟩ := firstByte_toNat hopcode fin
  have hfits := fits_shortest hpayload
  have hcode := code_le hfits
  have hwidth := ofCode_code hfits
  have hvalue := value_bigEndian hfits (payload ++ rest)
  generalize hw : shortest payload.length = w at hfits hcode hwidth hvalue
  have hsecond : ((0 : UInt8) ||| UInt8.ofNat (w.code payload.length)).toNat = w.code payload.length := by
    rw [UInt8.zero_or]
    exact Nat.mod_eq_of_lt (Nat.lt_of_le_of_lt hcode (by decide))
  have hdrop : (bigEndian w.extra payload.length ++ (payload ++ rest)).drop w.extra = payload ++ rest :=
    List.drop_left' (length_bigEndian w.extra payload.length)
  have hbytes : plain fin opcode payload ++ rest = firstByte fin opcode ::
      ((0 : UInt8) ||| UInt8.ofNat (w.code payload.length)) ::
        (bigEndian w.extra payload.length ++ (payload ++ rest)) := by
    rw [plain, lengthField, lengthCode_eq, lengthRest_eq, hw]
    simp only [List.cons_append, List.append_assoc]
  rw [hbytes, read, hsecond, Nat.mod_eq_of_lt (Nat.lt_succ_of_le hcode), hwidth, hvalue, if_pos (Nat.lt_succ_of_le hcode),
    if_pos (Nat.lt_succ_of_le hcode), Nat.add_zero, if_pos, hdrop, List.take_left, hfin, hop, ← List.drop_drop, hdrop,
    List.drop_left]
  · rfl
  · refine ⟨hrsv, hw, hfits, ?_⟩
    rw [List.length_append, List.length_append, length_bigEndian]
    omega

end WebFrame
