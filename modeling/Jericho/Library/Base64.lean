import Jericho.Library.StdText

/-! Padded base64 with the standard alphabet, and its inverse on encodings. -/
namespace Base64
open StdText

/-- The character of a six-bit value. -/
def symbol (n : Nat) : Byte :=
  if n < 26 then UInt8.ofNat (65 + n)
  else if n < 52 then UInt8.ofNat (71 + n)
  else if n < 62 then UInt8.ofNat (n - 4)
  else if n = 62 then 43 else 47

/-- The six-bit value of a character. -/
def value (c : Byte) : Option Nat :=
  if 65 ≤ c ∧ c ≤ 90 then some (c.toNat - 65)
  else if 97 ≤ c ∧ c ≤ 122 then some (c.toNat - 71)
  else if 48 ≤ c ∧ c ≤ 57 then some (c.toNat + 4)
  else if c = 43 then some 62
  else if c = 47 then some 63
  else none

def pad : Byte := 61

def encode : Bytes → Bytes
  | [] => []
  | [a] => [symbol (a.toNat / 4), symbol (a.toNat % 4 * 16), pad, pad]
  | [a, b] => [symbol (a.toNat / 4), symbol (a.toNat % 4 * 16 + b.toNat / 16),
      symbol (b.toNat % 16 * 4), pad]
  | a :: b :: c :: rest =>
      symbol (a.toNat / 4) :: symbol (a.toNat % 4 * 16 + b.toNat / 16) ::
        symbol (b.toNat % 16 * 4 + c.toNat / 64) :: symbol (c.toNat % 64) :: encode rest

private def joinThree (w x y z : Nat) : Bytes :=
  [UInt8.ofNat (w * 4 + x / 16), UInt8.ofNat (x % 16 * 16 + y / 4), UInt8.ofNat (y % 4 * 64 + z)]

/-- Whole groups of four; padding only in the last one. -/
def decode : Bytes → Option Bytes
  | [] => some []
  | [c, d, e, f] =>
      if e = pad ∧ f = pad then do
        let w ← value c
        let x ← value d
        some [UInt8.ofNat (w * 4 + x / 16)]
      else if f = pad then do
        let w ← value c
        let x ← value d
        let y ← value e
        some [UInt8.ofNat (w * 4 + x / 16), UInt8.ofNat (x % 16 * 16 + y / 4)]
      else do
        let w ← value c
        let x ← value d
        let y ← value e
        let z ← value f
        some (joinThree w x y z)
  | c :: d :: e :: f :: rest => do
      let w ← value c
      let x ← value d
      let y ← value e
      let z ← value f
      let tail ← decode rest
      some (joinThree w x y z ++ tail)
  | _ => none

private theorem value_symbol_all : ∀ n : Fin 64, value (symbol n.val) = some n.val ∧ symbol n.val ≠ pad := by
  decide

theorem value_symbol {n : Nat} (h : n < 64) : value (symbol n) = some n :=
  (value_symbol_all ⟨n, h⟩).1

theorem symbol_ne_pad {n : Nat} (h : n < 64) : symbol n ≠ pad := (value_symbol_all ⟨n, h⟩).2

private theorem byte_eq {n : Nat} {a : Byte} (h : n = a.toNat) : UInt8.ofNat n = a := by
  subst h
  simp

/-- Decoding inverts encoding on every byte string. -/
theorem decode_encode (s : Bytes) : decode (encode s) = some s := by
  induction s using encode.induct with
  | case1 => rfl
  | case2 a =>
    have ha := a.toNat_lt
    simp only [encode, decode, and_self, if_true]
    rw [value_symbol (by omega), value_symbol (by omega)]
    simp only [Option.bind_eq_bind, Option.bind_some]
    rw [byte_eq (show a.toNat / 4 * 4 + a.toNat % 4 * 16 / 16 = a.toNat by omega)]
  | case3 a b =>
    have ha := a.toNat_lt
    have hb := b.toNat_lt
    have hp := symbol_ne_pad (show b.toNat % 16 * 4 < 64 by omega)
    simp only [encode, decode, hp, false_and, if_true, if_false]
    rw [value_symbol (by omega), value_symbol (by omega), value_symbol (by omega)]
    simp only [Option.bind_eq_bind, Option.bind_some]
    rw [byte_eq (show _ = a.toNat by omega), byte_eq (show _ = b.toNat by omega)]
  | case4 a b c rest ih =>
    have ha := a.toNat_lt
    have hb := b.toNat_lt
    have hc := c.toNat_lt
    have hp := symbol_ne_pad (show c.toNat % 64 < 64 by omega)
    have hw := value_symbol (show a.toNat / 4 < 64 by omega)
    have hx := value_symbol (show a.toNat % 4 * 16 + b.toNat / 16 < 64 by omega)
    have hy := value_symbol (show b.toNat % 16 * 4 + c.toNat / 64 < 64 by omega)
    have hz := value_symbol (show c.toNat % 64 < 64 by omega)
    have hj : joinThree (a.toNat / 4) (a.toNat % 4 * 16 + b.toNat / 16)
        (b.toNat % 16 * 4 + c.toNat / 64) (c.toNat % 64) = [a, b, c] := by
      unfold joinThree
      rw [byte_eq (show _ = a.toNat by omega), byte_eq (show _ = b.toNat by omega),
        byte_eq (show _ = c.toNat by omega)]
    rw [encode]
    cases hr : encode rest with
    | nil =>
      rw [hr] at ih
      obtain rfl : [] = rest := by simpa [decode] using ih
      simp [decode, hp, hw, hx, hy, hz, hj]
    | cons t ts =>
      rw [hr] at ih
      simp [decode, hw, hx, hy, hz, hj, ih]

/-- Every character of an encoding is a symbol or padding. -/
theorem mem_encode {s : Bytes} {c : Byte} (h : c ∈ encode s) : c = pad ∨ ∃ n < 64, c = symbol n := by
  induction s using encode.induct with
  | case1 => simp [encode] at h
  | case2 a =>
    have ha := a.toNat_lt
    simp only [encode, List.mem_cons, List.not_mem_nil, or_false] at h
    rcases h with rfl | rfl | rfl | rfl
    · exact .inr ⟨_, by omega, rfl⟩
    · exact .inr ⟨_, by omega, rfl⟩
    · exact .inl rfl
    · exact .inl rfl
  | case3 a b =>
    have ha := a.toNat_lt
    have hb := b.toNat_lt
    simp only [encode, List.mem_cons, List.not_mem_nil, or_false] at h
    rcases h with rfl | rfl | rfl | rfl
    · exact .inr ⟨_, by omega, rfl⟩
    · exact .inr ⟨_, by omega, rfl⟩
    · exact .inr ⟨_, by omega, rfl⟩
    · exact .inl rfl
  | case4 a b d rest ih =>
    have ha := a.toNat_lt
    have hb := b.toNat_lt
    have hd := d.toNat_lt
    simp only [encode, List.mem_cons] at h
    rcases h with rfl | rfl | rfl | rfl | h
    · exact .inr ⟨_, by omega, rfl⟩
    · exact .inr ⟨_, by omega, rfl⟩
    · exact .inr ⟨_, by omega, rfl⟩
    · exact .inr ⟨_, by omega, rfl⟩
    · exact ih h

/-- The unpadded encoding has at least four characters for three bytes. -/
theorem length_unpadded (s : Bytes) :
    4 * s.length ≤ 3 * ((encode s).filter (· ≠ pad)).length := by
  induction s using encode.induct with
  | case1 => simp [encode]
  | case2 a =>
    have ha := a.toNat_lt
    have h1 := symbol_ne_pad (show a.toNat / 4 < 64 by omega)
    have h2 := symbol_ne_pad (show a.toNat % 4 * 16 < 64 by omega)
    simp [encode, h1, h2]
  | case3 a b =>
    have ha := a.toNat_lt
    have hb := b.toNat_lt
    have h1 := symbol_ne_pad (show a.toNat / 4 < 64 by omega)
    have h2 := symbol_ne_pad (show a.toNat % 4 * 16 + b.toNat / 16 < 64 by omega)
    have h3 := symbol_ne_pad (show b.toNat % 16 * 4 < 64 by omega)
    simp [encode, h1, h2, h3]
  | case4 a b c rest ih =>
    have ha := a.toNat_lt
    have hb := b.toNat_lt
    have hc := c.toNat_lt
    have h1 := symbol_ne_pad (show a.toNat / 4 < 64 by omega)
    have h2 := symbol_ne_pad (show a.toNat % 4 * 16 + b.toNat / 16 < 64 by omega)
    have h3 := symbol_ne_pad (show b.toNat % 16 * 4 + c.toNat / 64 < 64 by omega)
    have h4 := symbol_ne_pad (show c.toNat % 64 < 64 by omega)
    simp only [encode, List.filter_cons, h1, h2, h3, h4, ne_eq, not_false_eq_true, decide_true,
      if_true, List.length_cons]
    simp only [ne_eq] at ih
    omega

private theorem toNat_byte {n : Nat} (h : n < 256) : (UInt8.ofNat n).toNat = n := UInt8.toNat_ofNat_of_lt h

/-- An encoding is a run of symbols, filled up to a multiple of four. -/
theorem encode_eq_append (s : Bytes) : ∃ (ns : List Nat) (k : Nat), encode s = ns.map symbol ++ List.replicate k pad ∧
    (∀ n ∈ ns, n < 64) ∧ k < 4 ∧ (ns.length + k) % 4 = 0 := by
  induction s using encode.induct with
  | case1 => exact ⟨[], 0, rfl, by simp, by omega, rfl⟩
  | case2 a =>
    have ha := a.toNat_lt
    refine ⟨[a.toNat / 4, a.toNat % 4 * 16], 2, rfl, ?_, by omega, by simp⟩
    simp only [List.forall_mem_cons, List.not_mem_nil, false_imp_iff, forall_const, and_true]
    omega
  | case3 a b =>
    have ha := a.toNat_lt
    have hb := b.toNat_lt
    refine ⟨[a.toNat / 4, a.toNat % 4 * 16 + b.toNat / 16, b.toNat % 16 * 4], 1, rfl, ?_, by omega, by simp⟩
    simp only [List.forall_mem_cons, List.not_mem_nil, false_imp_iff, forall_const, and_true]
    omega
  | case4 a b c rest ih =>
    have ha := a.toNat_lt
    have hb := b.toNat_lt
    have hc := c.toNat_lt
    obtain ⟨ns, k, heq, hns, hk, hlen⟩ := ih
    refine ⟨a.toNat / 4 :: (a.toNat % 4 * 16 + b.toNat / 16) :: (b.toNat % 16 * 4 + c.toNat / 64) ::
      c.toNat % 64 :: ns, k, by rw [encode, heq]; rfl, ?_, hk, by simp only [List.length_cons]; omega⟩
    simp only [List.forall_mem_cons]
    exact ⟨by omega, by omega, by omega, by omega, hns⟩

/-- A change of characters, by their positions, that only exchanges the last two symbols. -/
structure Exchanges (g : Nat → Byte → Byte) : Prop where
  low : ∀ i n, n < 62 → g i (symbol n) = symbol n
  high : ∀ i n, 62 ≤ n → n < 64 → ∃ m, 62 ≤ m ∧ m < 64 ∧ g i (symbol n) = symbol m
  pad : ∀ i, g i pad = pad

theorem Exchanges.shift {g : Nat → Byte → Byte} (h : Exchanges g) : Exchanges fun i => g (i + 1) :=
  ⟨fun i => h.low (i + 1), fun i => h.high (i + 1), fun i => h.pad (i + 1)⟩

theorem Exchanges.symbol {g : Nat → Byte → Byte} (h : Exchanges g) (i : Nat) {n : Nat} (hn : n < 64) :
    ∃ m < 64, g i (symbol n) = Base64.symbol m := by
  by_cases hlow : n < 62
  · exact ⟨n, hn, h.low i n hlow⟩
  · obtain ⟨m, -, hm, heq⟩ := h.high i n (by omega) hn
    exact ⟨m, hm, heq⟩

theorem encode_joinThree {w x y z : Nat} (hw : w < 64) (hx : x < 64) (hy : y < 64) (hz : z < 64) (rest : Bytes) :
    encode (joinThree w x y z ++ rest) = symbol w :: symbol x :: symbol y :: symbol z :: encode rest := by
  have hjoin : joinThree w x y z ++ rest =
      UInt8.ofNat (w * 4 + x / 16) :: UInt8.ofNat (x % 16 * 16 + y / 4) :: UInt8.ofNat (y % 4 * 64 + z) :: rest := rfl
  have h₁ : (UInt8.ofNat (w * 4 + x / 16)).toNat = w * 4 + x / 16 := toNat_byte (by omega)
  have h₂ : (UInt8.ofNat (x % 16 * 16 + y / 4)).toNat = x % 16 * 16 + y / 4 := toNat_byte (by omega)
  have h₃ : (UInt8.ofNat (y % 4 * 64 + z)).toNat = y % 4 * 64 + z := toNat_byte (by omega)
  rw [hjoin, encode, h₁, h₂, h₃, show (w * 4 + x / 16) / 4 = w by omega,
    show (w * 4 + x / 16) % 4 * 16 + (x % 16 * 16 + y / 4) / 16 = x by omega,
    show (x % 16 * 16 + y / 4) % 16 * 4 + (y % 4 * 64 + z) / 64 = y by omega,
    show (y % 4 * 64 + z) % 64 = z by omega]

/-- An exchange turns an encoding into an encoding: the symbols before the padding, whose low bits
are zero, are not among those it exchanges. -/
theorem Exchanges.encode {g : Nat → Byte → Byte} (h : Exchanges g) (s : Bytes) :
    ∃ s', encode s' = (Base64.encode s).mapIdx g := by
  induction s using Base64.encode.induct generalizing g with
  | case1 => exact ⟨[], rfl⟩
  | case2 a =>
    have ha := a.toNat_lt
    obtain ⟨w, hw, hw'⟩ := h.symbol 0 (show a.toNat / 4 < 64 by omega)
    refine ⟨[UInt8.ofNat (w * 4 + a.toNat % 4)], ?_⟩
    have hval : (UInt8.ofNat (w * 4 + a.toNat % 4)).toNat = w * 4 + a.toNat % 4 := toNat_byte (by omega)
    simp only [Base64.encode, List.mapIdx_cons, List.mapIdx_nil, hval, hw', h.low _ _ (show a.toNat % 4 * 16 < 62 by omega),
      h.pad]
    rw [show (w * 4 + a.toNat % 4) / 4 = w by omega, show (w * 4 + a.toNat % 4) % 4 = a.toNat % 4 by omega]
  | case3 a b =>
    have ha := a.toNat_lt
    have hb := b.toNat_lt
    obtain ⟨w, hw, hw'⟩ := h.symbol 0 (show a.toNat / 4 < 64 by omega)
    obtain ⟨x, hx, hx'⟩ := h.symbol 1 (show a.toNat % 4 * 16 + b.toNat / 16 < 64 by omega)
    refine ⟨[UInt8.ofNat (w * 4 + x / 16), UInt8.ofNat (x % 16 * 16 + b.toNat % 16)], ?_⟩
    have h₁ : (UInt8.ofNat (w * 4 + x / 16)).toNat = w * 4 + x / 16 := toNat_byte (by omega)
    have h₂ : (UInt8.ofNat (x % 16 * 16 + b.toNat % 16)).toNat = x % 16 * 16 + b.toNat % 16 :=
      toNat_byte (by omega)
    simp only [Base64.encode, List.mapIdx_cons, List.mapIdx_nil, h₁, h₂, hw', hx',
      h.low _ _ (show b.toNat % 16 * 4 < 62 by omega), h.pad]
    rw [show (w * 4 + x / 16) / 4 = w by omega,
      show (w * 4 + x / 16) % 4 * 16 + (x % 16 * 16 + b.toNat % 16) / 16 = x by omega,
      show (x % 16 * 16 + b.toNat % 16) % 16 = b.toNat % 16 by omega]
  | case4 a b c rest ih =>
    have ha := a.toNat_lt
    have hb := b.toNat_lt
    have hc := c.toNat_lt
    obtain ⟨w, hw, hw'⟩ := h.symbol 0 (show a.toNat / 4 < 64 by omega)
    obtain ⟨x, hx, hx'⟩ := h.symbol 1 (show a.toNat % 4 * 16 + b.toNat / 16 < 64 by omega)
    obtain ⟨y, hy, hy'⟩ := h.symbol 2 (show b.toNat % 16 * 4 + c.toNat / 64 < 64 by omega)
    obtain ⟨z, hz, hz'⟩ := h.symbol 3 (show c.toNat % 64 < 64 by omega)
    obtain ⟨s', hs'⟩ := ih h.shift.shift.shift.shift
    refine ⟨joinThree w x y z ++ s', ?_⟩
    rw [encode_joinThree hw hx hy hz, hs', ← hw', ← hx', ← hy', ← hz']
    simp only [Base64.encode, List.mapIdx_cons]

theorem encode_injective : Function.Injective encode :=
  fun s t h => Option.some.inj ((decode_encode s).symm.trans ((congrArg decode h).trans (decode_encode t)))

end Base64
