import Mathlib.Data.List.Induction
import Mathlib.Data.Nat.Bitwise

/-! The framing of web socket messages: a first byte with the final bit and the opcode, a length in
one of three sizes, a masking key, and the payload under that key. -/
namespace WebFrame

/-- The byte of a key for an index: its index modulo 4. -/
def maskIndex (i : Nat) : Fin 4 := Fin.ofNat 4 i

/-- Bytes under a key, from an index on. -/
def mask (key : Fin 4 → UInt8) : Nat → List UInt8 → List UInt8
  | _, [] => []
  | i, c :: cs => (c ^^^ key (maskIndex i)) :: mask key (i + 1) cs

/-- The `k` low bytes of a number, the highest first. -/
def bigEndian : Nat → Nat → List UInt8
  | 0, _ => []
  | k + 1, n => bigEndian k (n / 256) ++ [UInt8.ofNat n]

def ofBigEndian (bs : List UInt8) : Nat := bs.foldl (fun n c => n * 256 + c.toNat) 0

/-- The seven bits of a length, and the bytes that go on. -/
def lengthCode (n : Nat) : Nat := if n ≤ 125 then n else if n ≤ 65535 then 126 else 127

def lengthRest (n : Nat) : List UInt8 :=
  if n ≤ 125 then [] else if n ≤ 65535 then bigEndian 2 n else bigEndian 8 n

def lengthField (flag : UInt8) (n : Nat) : List UInt8 := (flag ||| UInt8.ofNat (lengthCode n)) :: lengthRest n

def firstByte (fin : Bool) (opcode : UInt8) : UInt8 := (if fin then 128 else 0) ||| opcode

/-- A frame of a server. -/
def plain (fin : Bool) (opcode : UInt8) (payload : List UInt8) : List UInt8 :=
  firstByte fin opcode :: lengthField 0 payload.length ++ payload

/-- A frame of a client. -/
def masked (fin : Bool) (opcode : UInt8) (key : Fin 4 → UInt8) (payload : List UInt8) : List UInt8 :=
  firstByte fin opcode :: lengthField 128 payload.length ++ List.ofFn key ++ mask key 0 payload

structure Fragment where
  key : Fin 4 → UInt8
  payload : List UInt8

inductive Kind where
  | text
  | binary
  deriving DecidableEq

def Kind.opcode : Kind → UInt8
  | .text => 1
  | .binary => 2

/-- A message of a client, in at least one fragment. -/
structure Message where
  kind : Kind
  first : Fragment
  more : List Fragment

/-- Frames one after the other: only the first has the opcode, only the last the final bit. -/
def fragments : UInt8 → List Fragment → List UInt8
  | _, [] => []
  | opcode, f :: fs => masked fs.isEmpty opcode f.key f.payload ++ fragments 0 fs

namespace Message

def payload (m : Message) : List UInt8 := (m.first :: m.more).flatMap Fragment.payload

def encode (m : Message) : List UInt8 := fragments m.kind.opcode (m.first :: m.more)

end Message

variable (key : Fin 4 → UInt8)

theorem mask_cons (i : Nat) (c : UInt8) (cs : List UInt8) :
    mask key i (c :: cs) = (c ^^^ key (maskIndex i)) :: mask key (i + 1) cs := rfl

@[simp] theorem length_mask (i : Nat) (cs : List UInt8) : (mask key i cs).length = cs.length := by
  induction cs generalizing i with
  | nil => rfl
  | cons c cs ih =>
    rw [mask_cons, List.length_cons, List.length_cons, ih]

/-- The key takes itself off again. -/
theorem mask_mask (i : Nat) (cs : List UInt8) : mask key i (mask key i cs) = cs := by
  induction cs generalizing i with
  | nil => rfl
  | cons c cs ih =>
    rw [mask_cons, mask_cons, ih, UInt8.xor_assoc, UInt8.xor_self, UInt8.xor_zero]

theorem mask_append (i : Nat) (cs ds : List UInt8) :
    mask key i (cs ++ ds) = mask key i cs ++ mask key (i + cs.length) ds := by
  induction cs generalizing i with
  | nil => rfl
  | cons c cs ih =>
    rw [List.cons_append, mask_cons, mask_cons, ih, List.length_cons, Nat.succ_add_eq_add_succ]
    rfl

theorem getElem?_mask (i j : Nat) (cs : List UInt8) :
    (mask key i cs)[j]? = cs[j]?.map fun c => c ^^^ key (maskIndex (i + j)) := by
  induction cs generalizing i j with
  | nil => rfl
  | cons c cs ih =>
    cases j with
    | zero => rfl
    | succ j =>
      rw [mask_cons, List.getElem?_cons_succ, List.getElem?_cons_succ, ih, Nat.succ_add_eq_add_succ]

/-- A byte under the key is a byte of the payload under its part of the key. -/
theorem set_mask (i j : Nat) (c : UInt8) (cs : List UInt8) :
    (mask key i cs).set j c = mask key i (cs.set j (c ^^^ key (maskIndex (i + j)))) := by
  induction cs generalizing i j with
  | nil => rfl
  | cons c' cs ih =>
    cases j with
    | zero =>
      have hself : c ^^^ key (maskIndex i) ^^^ key (maskIndex i) = c := by
        rw [UInt8.xor_assoc, UInt8.xor_self, UInt8.xor_zero]
      rw [mask_cons, List.set_cons_zero, List.set_cons_zero, mask_cons, Nat.add_zero i, hself]
    | succ j => rw [mask_cons, List.set_cons_succ, List.set_cons_succ, mask_cons, ih, Nat.succ_add_eq_add_succ]

@[simp] theorem length_bigEndian (k n : Nat) : (bigEndian k n).length = k := by
  induction k generalizing n with
  | zero => rfl
  | succ k ih =>
    unfold bigEndian
    rw [List.length_append, ih]
    rfl

theorem ofBigEndian_snoc (bs : List UInt8) (c : UInt8) : ofBigEndian (bs ++ [c]) = ofBigEndian bs * 256 + c.toNat :=
  List.foldl_append

/-- A number gets smaller when one of its bytes is replaced by zero. -/
theorem ofBigEndian_set_lt {bs : List UInt8} {j : Nat} (hlt : j < bs.length) (hbyte : bs[j]? ≠ some 0) :
    ofBigEndian (bs.set j 0) < ofBigEndian bs := by
  induction bs using List.reverseRecOn with
  | nil => exact absurd hlt (Nat.not_lt_zero j)
  | append_singleton bs c ih =>
    rw [List.length_append, List.length_singleton] at hlt
    by_cases hj : j < bs.length
    · rw [List.getElem?_append_left hj] at hbyte
      have hless := ih hj hbyte
      rw [List.set_append_left _ _ hj, ofBigEndian_snoc, ofBigEndian_snoc]
      omega
    · obtain rfl : j = bs.length := by omega
      rw [List.getElem?_append_right (Nat.le_refl _), Nat.sub_self] at hbyte
      have hc : c.toNat ≠ 0 := fun hzero => hbyte (congrArg some (UInt8.toNat_inj.mp hzero))
      rw [List.set_append_right _ _ (Nat.le_refl _), Nat.sub_self, List.set_cons_zero, ofBigEndian_snoc, ofBigEndian_snoc]
      have hzero : (0 : UInt8).toNat = 0 := rfl
      omega

theorem ofBigEndian_bigEndian {k n : Nat} (h : n < 256 ^ k) : ofBigEndian (bigEndian k n) = n := by
  induction k generalizing n with
  | zero =>
    obtain rfl := Nat.lt_one_iff.mp h
    rfl
  | succ k ih =>
    unfold bigEndian
    have hdiv : n / 256 < 256 ^ k := Nat.div_lt_of_lt_mul (by rwa [Nat.pow_succ, Nat.mul_comm] at h)
    rw [ofBigEndian_snoc, ih hdiv, UInt8.toNat_ofNat']
    omega

theorem ofNat_and (n : Nat) : UInt8.ofNat (n &&& 255) = UInt8.ofNat n := by
  have hand := Nat.and_two_pow_sub_one_eq_mod n 8
  apply UInt8.toNat_inj.mp
  rw [UInt8.toNat_ofNat', UInt8.toNat_ofNat', hand, Nat.mod_mod]

/-- The bytes of a number by shifts. -/
theorem bigEndian_eq_map (k n : Nat) :
    bigEndian k n = (List.range k).reverse.map fun i => UInt8.ofNat (n >>> (8 * i) &&& 255) := by
  induction k generalizing n with
  | zero => rfl
  | succ k ih =>
    rw [bigEndian, ih, List.range_succ_eq_map, List.reverse_cons, List.map_append, ← List.map_reverse, List.map_map]
    congr 1
    · refine List.map_congr_left fun i _ => ?_
      rw [Function.comp_apply, Nat.mul_succ, Nat.add_comm, Nat.shiftRight_add, Nat.shiftRight_eq_div_pow n]
    · rw [List.map_singleton, ofNat_and]
      rfl

/-- How many bytes of a frame come before its key. -/
def Fragment.headLength (f : Fragment) : Nat := 2 + (lengthRest f.payload.length).length

def Fragment.size (f : Fragment) : Nat := f.headLength + 4 + f.payload.length

theorem length_masked (fin : Bool) (opcode : UInt8) (f : Fragment) :
    (masked fin opcode f.key f.payload).length = f.size := by
  unfold masked lengthField Fragment.size Fragment.headLength
  simp only [List.length_append, List.length_cons, List.length_ofFn, length_mask]
  omega

theorem le_length_fragments (opcode : UInt8) (fs : List Fragment) :
    (fs.flatMap Fragment.payload).length + 6 * fs.length ≤ (fragments opcode fs).length := by
  induction fs generalizing opcode with
  | nil => exact Nat.le_refl 0
  | cons f fs ih =>
    have hmore := ih 0
    unfold fragments
    rw [List.flatMap_cons, List.length_append, List.length_append, List.length_cons, length_masked, Fragment.size,
      Fragment.headLength]
    omega

/-- The fragments of a message, with the last one marked. -/
def parts : List Fragment → List (Fragment × Bool)
  | [] => []
  | f :: fs => (f, fs.isEmpty) :: parts fs

/-- The fragment that a byte belongs to, whether it is the last one of its message, and the place of
the byte in the frame. -/
def locate : List (Fragment × Bool) → Nat → Option (Fragment × Bool × Nat)
  | [], _ => none
  | (f, last) :: fs, i => if i < f.size then some (f, last, i) else locate fs (i - f.size)

theorem locate_append {xs : List (Fragment × Bool)} {n : Nat} (hn : (xs.map fun x => x.1.size).sum = n)
    (ys : List (Fragment × Bool)) (i : Nat) :
    locate (xs ++ ys) i = if i < n then locate xs i else locate ys (i - n) := by
  induction xs generalizing i n with
  | nil =>
    obtain rfl : 0 = n := hn
    rw [if_neg (Nat.not_lt_zero i)]
    rfl
  | cons x xs ih =>
    rw [List.map_cons, List.sum_cons] at hn
    rw [List.cons_append, locate, locate, ih rfl]
    by_cases hx : i < x.1.size
    · rw [if_pos hx, if_pos hx, if_pos (by omega)]
    · rw [if_neg hx, if_neg hx]
      by_cases hi : i < n
      · rw [if_pos hi, if_pos (by omega)]
      · rw [if_neg hi, if_neg (by omega), ← hn, Nat.sub_sub]

theorem length_fragments (opcode : UInt8) (fs : List Fragment) :
    ((parts fs).map fun x => x.1.size).sum = (fragments opcode fs).length := by
  induction fs generalizing opcode with
  | nil => rfl
  | cons f fs ih =>
    rw [parts, List.map_cons, List.sum_cons, fragments, List.length_append, length_masked, ← ih 0]

theorem exists_locate {opcode : UInt8} {fs : List Fragment} {i : Nat} (hi : i < (fragments opcode fs).length) :
    ∃ f last o, locate (parts fs) i = some (f, last, o) := by
  induction fs generalizing opcode i with
  | nil => exact absurd hi (Nat.not_lt_zero i)
  | cons f fs ih =>
    rw [fragments, List.length_append, length_masked] at hi
    rw [parts, locate]
    split_ifs with hf
    · exact ⟨f, fs.isEmpty, i, rfl⟩
    · exact @ih 0 _ (by omega)

theorem Message.le_length_encode (m : Message) : m.payload.length + 6 * (m.more.length + 1) ≤ m.encode.length :=
  le_length_fragments m.kind.opcode (m.first :: m.more)

end WebFrame
