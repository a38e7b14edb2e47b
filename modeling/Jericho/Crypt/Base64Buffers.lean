import Mathlib.Data.List.Count
import Mathlib.Logic.Function.Basic
import Jericho.Crypt.LineBase64

/-! The base64 encoder and decoder in C with the buffers they allocate: what they write stays
inside, and the decoder reads back what the encoder wrote. -/
namespace Jericho.Crypt
open StdText

/-- Writing behind `pos` in a buffer of `olen` bytes; a write past its end is undefined. -/
def put (olen : Nat) (pos bytes : Bytes) : Exec Bytes :=
  if pos.length + bytes.length ≤ olen then .ok (pos ++ bytes) else .error .undefined

/-- The size that `base64_encode` allocates. -/
def encodeOlen (len : UInt64) : UInt64 :=
  let olen := len * 4 / 3 + 4
  let olen := olen + olen / 72
  olen + 1

/-- What comes behind the loop of `base64_encode`: the last bytes, if there are any, the end of the
line and the NUL. -/
def encodeEnd (olen lineLen : Nat) (rest pos : Bytes) : Exec Bytes := do
  let pos ← put olen pos (Base64.encode rest)
  let pos ← if lineLen + (Base64.encode rest).length ≠ 0 then put olen pos [10] else pure pos
  let _ ← put olen pos [0]
  return pos

def encodeLoop (olen : Nat) : Nat → Bytes → Bytes → Exec Bytes
  | lineLen, a :: b :: c :: rest, pos => do
    let pos ← put olen pos (Base64.encode [a, b, c])
    if 72 ≤ lineLen + 4 then
      let pos ← put olen pos [10]
      encodeLoop olen 0 rest pos
    else encodeLoop olen (lineLen + 4) rest pos
  | lineLen, rest, pos => encodeEnd olen lineLen rest pos

/-- `base64_encode`, with its NULL for a size that overflows. -/
def base64EncodeBuffer (src : Bytes) : Exec (Option Bytes) :=
  let len := UInt64.ofNat src.length
  let olen := encodeOlen len
  if olen < len then .ok none else (encodeLoop olen.toNat 0 src []).map some

def base64Table : Bytes := lit "ABCDEFGHIJKLMNOPQRSTUVWXYZabcdefghijklmnopqrstuvwxyz0123456789+/"

/-- The table that `base64_decode` fills: 0x80 where a byte has no value. -/
def dtable : Byte → Byte :=
  Function.update ((List.range 64).foldl
    (fun table i => Function.update table (base64Table.getD i 0) (UInt8.ofNat i)) fun _ => 0x80) 61 0

/-- The three bytes of a block. -/
def blockBytes (w x y z : Byte) : Bytes := [w <<< 2 ||| x >>> 4, x <<< 4 ||| y >>> 2, y <<< 6 ||| z]

/-- The second loop of `base64_decode`, with the values collected for a block. -/
def decodeLoop (olen : Nat) : Bytes → Bytes → Nat → Bytes → Exec (Option Bytes)
  | [], _, _, pos => .ok (some pos)
  | c :: rest, block, pad, pos =>
    let tmp := dtable c
    if tmp = 0x80 then decodeLoop olen rest block pad pos
    else
      let pad := if c = 61 then pad + 1 else pad
      match block ++ [tmp] with
      | [w, x, y, z] => do
        let pos ← put olen pos (blockBytes w x y z)
        if pad ≠ 0 then
          if pad = 1 then return some (pos.take (pos.length - 1))
          else if pad = 2 then return some (pos.take (pos.length - 2))
          else return none
        else decodeLoop olen rest [] pad pos
      | block => decodeLoop olen rest block pad pos

/-- The bytes that `base64_decode` counts. -/
def alphabet (s : Bytes) : Bytes := s.filter (dtable · ≠ 0x80)

def base64Decode (src : Bytes) : Exec (Option Bytes) :=
  let count := (alphabet src).length
  if count = 0 ∨ count % 4 ≠ 0 then .ok none
  else decodeLoop (count / 4 * 3) src [] 0 []

variable {olen lineLen : Nat} {src pos : Bytes}

theorem put_eq {bytes : Bytes} (h : pos.length + bytes.length ≤ olen) : put olen pos bytes = .ok (pos ++ bytes) :=
  if_pos h

/-- The text of the encoder, written where there is room for it and the NUL. -/
theorem encodeEnd_eq {rest : Bytes} (hrest : rest.length < 3)
    (h : pos.length + (base64Lines lineLen rest).length + 1 ≤ olen) :
    encodeEnd olen lineLen rest pos = .ok (pos ++ base64Lines lineLen rest) := by
  have hlines : base64Lines lineLen rest = Base64.encode rest ++
      if lineLen + (Base64.encode rest).length ≠ 0 then [10] else [] := by
    rcases rest with _ | ⟨a, _ | ⟨b, _ | ⟨c, rest⟩⟩⟩
    · rfl
    · rfl
    · rfl
    · simp at hrest
      omega
  rw [hlines] at h ⊢
  unfold encodeEnd
  split at h
  · rename_i hline
    simp only [List.length_append, List.length_singleton] at h
    rw [put_eq (by omega)]
    dsimp only [bind, Except.bind]
    rw [if_pos hline, put_eq (by simp; omega)]
    dsimp only
    rw [put_eq (by simp; omega), if_pos hline, ← List.append_assoc]
    rfl
  · rename_i hline
    simp only [List.append_nil] at h
    rw [put_eq (by omega)]
    dsimp only [bind, Except.bind]
    rw [if_neg hline]
    dsimp only [pure, Except.pure]
    rw [put_eq (by simp; omega), if_neg hline, List.append_nil]

theorem encodeLoop_eq (h : pos.length + (base64Lines lineLen src).length + 1 ≤ olen) :
    encodeLoop olen lineLen src pos = .ok (pos ++ base64Lines lineLen src) := by
  induction lineLen, src, pos using encodeLoop.induct with
  | case1 lineLen a b c rest pos ihLine ih =>
    rw [base64Lines] at h ⊢
    simp only [List.length_append] at h
    unfold encodeLoop
    rw [put_eq (by omega)]
    dsimp only [bind, Except.bind]
    by_cases hline : 72 ≤ lineLen + 4
    · rw [if_pos hline] at h ⊢
      rw [List.length_cons] at h
      rw [if_pos hline, put_eq (by simp; omega)]
      dsimp only
      rw [ihLine _ (by simp; omega)]
      simp
    · rw [if_neg hline] at h ⊢
      rw [if_neg hline, ih _ (by simp; omega), List.append_assoc]
  | case2 lineLen rest pos hrest =>
    rw [encodeLoop.eq_2 olen lineLen rest pos hrest]
    refine encodeEnd_eq ?_ h
    rcases rest with _ | ⟨a, _ | ⟨b, _ | ⟨c, rest⟩⟩⟩
    · decide
    · simp
    · simp
    · exact absurd rfl (hrest a b c rest)

theorem length_encode (src : Bytes) : (Base64.encode src).length = (src.length + 2) / 3 * 4 := by
  induction src using Base64.encode.induct with
  | case1 => rfl
  | case2 a => simp [Base64.encode]
  | case3 a b => simp [Base64.encode]
  | case4 a b c rest ih =>
    simp only [Base64.encode, List.length_cons, ih]
    omega

/-- A line feed for every 72 characters, and one for what is left. -/
theorem length_base64Lines (lineLen : Nat) (src : Bytes) :
    72 * (base64Lines lineLen src).length ≤ lineLen + 73 * (Base64.encode src).length + 71 := by
  induction lineLen, src using base64Lines.induct with
  | case1 lineLen hline =>
    rw [base64Lines, if_pos hline]
    simp only [Base64.encode, List.length_cons, List.length_nil]
    omega
  | case2 lineLen hline =>
    rw [base64Lines, if_neg hline]
    simp
  | case3 lineLen a =>
    simp only [base64Lines, Base64.encode, List.length_append, List.length_cons, List.length_nil]
    omega
  | case4 lineLen a b =>
    simp only [base64Lines, Base64.encode, List.length_append, List.length_cons, List.length_nil]
    omega
  | case5 lineLen a b c rest ihLine ih =>
    rw [base64Lines]
    split
    · simp only [Base64.encode, List.length_append, List.length_cons, List.length_nil]
      omega
    · simp only [Base64.encode, List.length_append, List.length_cons, List.length_nil]
      omega

/-- Only the product can wrap around. -/
theorem toNat_encodeOlen (len : UInt64) : (encodeOlen len).toNat =
    len.toNat * 4 % 2 ^ 64 / 3 + 4 + (len.toNat * 4 % 2 ^ 64 / 3 + 4) / 72 + 1 := by
  have hproduct : len.toNat * 4 % 2 ^ 64 < 2 ^ 64 := Nat.mod_lt _ (by decide)
  unfold encodeOlen
  simp only [UInt64.toNat_add, UInt64.toNat_div, UInt64.toNat_mul, UInt64.reduceToNat]
  generalize len.toNat * 4 % 2 ^ 64 = product at *
  rw [Nat.mod_eq_of_lt (a := product / 3 + 4) (by omega), Nat.mod_eq_of_lt (by omega), Nat.mod_eq_of_lt (by omega)]

/-- A length that is too large shows, whatever it wraps around to. -/
theorem encodeOlen_lt_iff (len : UInt64) : encodeOlen len < len ↔ 2 ^ 62 ≤ len.toNat := by
  have hlen := len.toNat_lt
  rw [UInt64.lt_iff_toNat_lt, toNat_encodeOlen]
  omega

/-- `base64_encode` refuses the lengths it cannot compute with, and for every other one what it
writes, its line feeds and the NUL included, fits into the buffer it has allocated. -/
theorem base64EncodeBuffer_eq {src : Bytes} (h : src.length < 2 ^ 64) :
    base64EncodeBuffer src = .ok (if src.length < 2 ^ 62 then some (base64Encode src) else none) := by
  have hlen : (UInt64.ofNat src.length).toNat = src.length := UInt64.toNat_ofNat_of_lt' h
  unfold base64EncodeBuffer
  dsimp only
  by_cases hsmall : src.length < 2 ^ 62
  · have hroom := length_base64Lines 0 src
    rw [length_encode] at hroom
    rw [if_neg (by rw [encodeOlen_lt_iff]; omega), if_pos hsmall, encodeLoop_eq]
    · rfl
    · rw [toNat_encodeOlen, hlen, List.length_nil]
      omega
  · rw [if_pos (by rw [encodeOlen_lt_iff]; omega), if_neg hsmall]

/-- Two lines. -/
theorem base64EncodeBuffer_lines :
    base64EncodeBuffer (List.replicate 60 7) = .ok (some (base64Encode (List.replicate 60 7))) :=
  base64EncodeBuffer_eq (by decide)

/-- What the decoder makes of the characters of the alphabet: one block after the other, up to the
first with padding in it, which may have two of them. -/
def decodeBlocks : Bytes → Option Bytes
  | c :: d :: e :: f :: rest =>
    let bytes := blockBytes (dtable c) (dtable d) (dtable e) (dtable f)
    let pad := [c, d, e, f].count 61
    if pad = 0 then (decodeBlocks rest).map (bytes ++ ·)
    else if pad ≤ 2 then some (bytes.take (3 - pad)) else none
  | _ => some []

theorem alphabet_cons (c : Byte) (s : Bytes) :
    alphabet (c :: s) = if dtable c = 0x80 then alphabet s else c :: alphabet s := by
  unfold alphabet
  rw [List.filter_cons]
  by_cases h : dtable c = 0x80 <;> simp [h]

theorem count_concat (cs : Bytes) (c : Byte) :
    (cs ++ [c]).count 61 = if c = 61 then cs.count 61 + 1 else cs.count 61 := by
  rw [List.count_append, List.count_singleton]
  by_cases h : c = 61 <;> simp [h]

/-- The end of the loop at a full block. -/
theorem decodeLoop_block {w x y z c : Byte} {rest : Bytes} {pad : Nat} (hc : dtable c = z) (hz : z ≠ 0x80)
    (hroom : pos.length + 3 ≤ olen) :
    decodeLoop olen (c :: rest) [w, x, y] pad pos =
      let pad := if c = 61 then pad + 1 else pad
      if pad = 0 then decodeLoop olen rest [] pad (pos ++ blockBytes w x y z)
      else .ok (if pad ≤ 2 then some (pos ++ (blockBytes w x y z).take (3 - pad)) else none) := by
  have hlength : (pos ++ blockBytes w x y z).length = pos.length + 3 := List.length_append
  have htake : ∀ k ≤ 3, (pos ++ blockBytes w x y z).take (pos.length + 3 - k) =
      pos ++ (blockBytes w x y z).take (3 - k) := by
    intro k hk
    rw [show pos.length + 3 - k = pos.length + (3 - k) by omega, List.take_length_add_append]
  rw [decodeLoop]
  dsimp only
  rw [hc, if_neg hz]
  dsimp only [List.cons_append, List.nil_append]
  rw [put_eq (by exact hroom)]
  dsimp only [bind, Except.bind]
  generalize (if c = 61 then pad + 1 else pad) = pad
  by_cases hnone : pad = 0
  · rw [if_neg (not_not.mpr hnone), if_pos hnone]
  · rw [if_pos hnone, if_neg hnone, hlength]
    by_cases hone : pad = 1
    · rw [if_pos hone, htake 1 (by decide), hone]
      rfl
    · rw [if_neg hone]
      by_cases htwo : pad = 2
      · rw [if_pos htwo, htake 2 (by decide), htwo]
        rfl
      · rw [if_neg htwo, if_neg (by omega)]
        rfl

/-- The characters of a started block wait for its end. -/
theorem decodeLoop_eq {cs s : Bytes} (hcs : cs.length < 4) (hfour : (cs ++ alphabet s).length % 4 = 0)
    (hroom : pos.length + (cs ++ alphabet s).length / 4 * 3 ≤ olen) :
    decodeLoop olen s (cs.map dtable) (cs.count 61) pos = .ok ((decodeBlocks (cs ++ alphabet s)).map (pos ++ ·)) := by
  induction s generalizing cs pos with
  | nil =>
    obtain rfl : cs = [] := by
      apply List.length_eq_zero_iff.mp
      simp only [alphabet, List.filter_nil, List.append_nil] at hfour
      omega
    simp [decodeLoop, alphabet, decodeBlocks]
  | cons c rest ih =>
    by_cases hforeign : dtable c = 0x80
    · rw [alphabet_cons, if_pos hforeign] at *
      unfold decodeLoop
      rw [if_pos hforeign]
      exact ih hcs hfour hroom
    · have hsplit : cs ++ alphabet (c :: rest) = cs ++ [c] ++ alphabet rest := by
        rw [alphabet_cons, if_neg hforeign, List.append_assoc, List.singleton_append]
      rw [hsplit] at hfour hroom ⊢
      by_cases hfull : cs.length = 3
      · obtain ⟨x, y, z, rfl⟩ := List.length_eq_three.mp hfull
        have hblock : [x, y, z] ++ [c] = [x, y, z, c] := rfl
        have hlength : ([x, y, z, c] ++ alphabet rest).length = (alphabet rest).length + 4 := rfl
        rw [hblock, hlength] at hfour hroom
        have hthree : pos.length + 3 ≤ olen := by omega
        have hstep := @decodeLoop_block olen pos (dtable x) (dtable y) (dtable z) (dtable c) c rest ([x, y, z].count 61)
          rfl hforeign hthree
        rw [← count_concat, hblock] at hstep
        refine hstep.trans ?_
        dsimp only
        rw [hblock]
        rw [List.cons_append, List.cons_append, List.cons_append, List.singleton_append, decodeBlocks]
        split
        · rename_i hpad
          rw [hpad]
          have hstart : ([] : Bytes).length < 4 := by decide
          refine (ih hstart (by simp; omega) (by simp [blockBytes]; omega)).trans ?_
          simp [Option.map_map, Function.comp_def]
        · split <;> rfl
      · have hshort : (cs ++ [c]).length < 4 := by simp; omega
        have hnext := ih hshort hfour hroom
        rw [count_concat, List.map_append] at hnext
        refine Eq.trans ?_ hnext
        rw [decodeLoop]
        dsimp only
        rw [if_neg hforeign]
        have hmap : (cs.map dtable).length = cs.length := List.length_map _
        split
        · rename_i heq
          have h := congrArg List.length heq
          simp at h
          omega
        · rfl

/-- `base64_decode` never writes past its buffer, whatever it is given, and its result is that of the
blocks its characters of the alphabet form: other bytes may stand anywhere. -/
theorem base64Decode_eq (src : Bytes) : base64Decode src =
    .ok (if (alphabet src).length = 0 ∨ (alphabet src).length % 4 ≠ 0 then none else decodeBlocks (alphabet src)) := by
  unfold base64Decode
  dsimp only
  split
  · rfl
  · rename_i hcount
    have hfour : (alphabet src).length % 4 = 0 := by
      by_contra h
      exact hcount (.inr h)
    have hstart : ([] : Bytes).length < 4 := by decide
    refine (decodeLoop_eq hstart hfour ?_).trans ?_
    · simp
    · simp

theorem dtable_symbol : ∀ n : Fin 64, dtable (Base64.symbol n) = UInt8.ofNat n := by
  decide +kernel

theorem dtable_pad : dtable Base64.pad = 0 := by decide +kernel

theorem dtable_lineFeed : dtable 10 = 0x80 := by decide +kernel

/-- Six-bit values meet in a byte. -/
theorem toNat_shift_or (m : Nat) {n j k : Nat} (hn : n / 2 ^ k < 2 ^ j) (hbyte : n < 256) (hj : j < 8) (hk : k < 8) :
    (UInt8.ofNat m <<< UInt8.ofNat j ||| UInt8.ofNat n >>> UInt8.ofNat k).toNat = m * 2 ^ j % 256 + n / 2 ^ k := by
  have hshift : m * 2 ^ j % 256 = 2 ^ j * (m % 2 ^ (8 - j)) := by
    rw [show 256 = 2 ^ j * 2 ^ (8 - j) by rw [← pow_add, Nat.add_sub_cancel' (by omega)]; rfl, Nat.mul_comm m,
      Nat.mul_mod_mul_left]
  have hleft : (UInt8.ofNat m <<< UInt8.ofNat j).toNat = m * 2 ^ j % 256 := by
    simp [UInt8.toNat_shiftLeft, Nat.mod_eq_of_lt (show j < 256 by omega), Nat.mod_eq_of_lt hj, Nat.shiftLeft_eq]
  have hright : (UInt8.ofNat n >>> UInt8.ofNat k).toNat = n / 2 ^ k := by
    simp [UInt8.toNat_shiftRight, Nat.mod_eq_of_lt (show k < 256 by omega), Nat.mod_eq_of_lt hk,
      Nat.shiftRight_eq_div_pow, Nat.mod_eq_of_lt hbyte]
  rw [UInt8.toNat_or, hleft, hright, hshift, Nat.two_pow_add_eq_or_of_lt hn]

theorem dtable_symbol_of_lt {n : Nat} (h : n < 64) : dtable (Base64.symbol n) = UInt8.ofNat n := dtable_symbol ⟨n, h⟩

/-- The three bytes from the values they are split into. -/
theorem blockBytes_split (a b c : Byte) (y : Nat) (hy : y < 16) (z : Nat) (hz : z < 4) :
    (blockBytes (UInt8.ofNat (a.toNat / 4)) (UInt8.ofNat (a.toNat % 4 * 16 + y)) 0 0).take 1 = [a] ∧
    (blockBytes (UInt8.ofNat (a.toNat / 4)) (UInt8.ofNat (a.toNat % 4 * 16 + b.toNat / 16))
      (UInt8.ofNat (b.toNat % 16 * 4 + z)) 0).take 2 = [a, b] ∧
    blockBytes (UInt8.ofNat (a.toNat / 4)) (UInt8.ofNat (a.toNat % 4 * 16 + b.toNat / 16))
      (UInt8.ofNat (b.toNat % 16 * 4 + c.toNat / 64)) (UInt8.ofNat (c.toNat % 64)) = [a, b, c] := by
  have ha := a.toNat_lt
  have hb := b.toNat_lt
  have hc := c.toNat_lt
  have hfirst : ∀ v < 16, UInt8.ofNat (a.toNat / 4) <<< 2 ||| UInt8.ofNat (a.toNat % 4 * 16 + v) >>> 4 = a := by
    intro v hv
    apply UInt8.toNat_inj.mp
    refine (toNat_shift_or (a.toNat / 4) (n := a.toNat % 4 * 16 + v) (j := 2) (k := 4) ?_ ?_ ?_ ?_).trans ?_ <;> omega
  have hsecond : ∀ v < 4, UInt8.ofNat (a.toNat % 4 * 16 + b.toNat / 16) <<< 4 |||
      UInt8.ofNat (b.toNat % 16 * 4 + v) >>> 2 = b := by
    intro v hv
    apply UInt8.toNat_inj.mp
    refine (toNat_shift_or (a.toNat % 4 * 16 + b.toNat / 16) (n := b.toNat % 16 * 4 + v) (j := 4) (k := 2)
      ?_ ?_ ?_ ?_).trans ?_ <;> omega
  have hthird : UInt8.ofNat (b.toNat % 16 * 4 + c.toNat / 64) <<< 6 ||| UInt8.ofNat (c.toNat % 64) = c := by
    apply UInt8.toNat_inj.mp
    have hshift := toNat_shift_or (b.toNat % 16 * 4 + c.toNat / 64) (n := c.toNat % 64) (j := 6) (k := 0)
      (by omega) (by omega) (by omega) (by omega)
    have hzero : UInt8.ofNat (c.toNat % 64) >>> UInt8.ofNat 0 = UInt8.ofNat (c.toNat % 64) := by simp
    rw [hzero] at hshift
    refine hshift.trans ?_
    omega
  refine ⟨?_, ?_, ?_⟩
  · exact congrArg (fun x => [x]) (hfirst y hy)
  · exact congrArg₂ (fun x x' => [x, x']) (hfirst _ (by omega)) (hsecond z hz)
  · unfold blockBytes
    rw [hfirst _ (by omega), hsecond _ (by omega), hthird]

/-- Only the padding counts as padding. -/
theorem count_symbols {ns : List Nat} (h : ∀ n ∈ ns, n < 64) (k : Nat) :
    (ns.map Base64.symbol ++ List.replicate k Base64.pad).count 61 = k := by
  have hsymbols : (ns.map Base64.symbol).count 61 = 0 := by
    apply List.count_eq_zero.mpr
    intro hmem
    obtain ⟨n, hn, heq⟩ := List.mem_map.mp hmem
    exact Base64.symbol_ne_pad (h n hn) heq
  rw [List.count_append, hsymbols, Nat.zero_add]
  exact List.count_replicate_self

theorem decodeBlocks_encode (src : Bytes) : decodeBlocks (Base64.encode src) = some src := by
  induction src using Base64.encode.induct with
  | case1 => rfl
  | case2 a =>
    have ha := a.toNat_lt
    have hlow : ∀ n ∈ [a.toNat / 4, a.toNat % 4 * 16], n < 64 := by
      simp only [List.forall_mem_cons, List.not_mem_nil, false_imp_iff, forall_const, and_true]
      omega
    have hcount := count_symbols hlow 2
    simp only [List.map_cons, List.map_nil, List.replicate, List.cons_append, List.nil_append] at hcount
    rw [Base64.encode, decodeBlocks, hcount, dtable_symbol_of_lt (by omega), dtable_symbol_of_lt (by omega), dtable_pad]
    exact congrArg some (blockBytes_split a 0 0 0 (by omega) 0 (by omega)).1
  | case3 a b =>
    have ha := a.toNat_lt
    have hb := b.toNat_lt
    have hlow : ∀ n ∈ [a.toNat / 4, a.toNat % 4 * 16 + b.toNat / 16, b.toNat % 16 * 4], n < 64 := by
      simp only [List.forall_mem_cons, List.not_mem_nil, false_imp_iff, forall_const, and_true]
      omega
    have hcount := count_symbols hlow 1
    simp only [List.map_cons, List.map_nil, List.replicate, List.cons_append, List.nil_append] at hcount
    rw [Base64.encode, decodeBlocks, hcount, dtable_symbol_of_lt (by omega), dtable_symbol_of_lt (by omega),
      dtable_symbol_of_lt (by omega), dtable_pad]
    exact congrArg some (blockBytes_split a b 0 0 (by omega) 0 (by omega)).2.1
  | case4 a b c rest ih =>
    have ha := a.toNat_lt
    have hb := b.toNat_lt
    have hc := c.toNat_lt
    have hlow : ∀ n ∈ [a.toNat / 4, a.toNat % 4 * 16 + b.toNat / 16, b.toNat % 16 * 4 + c.toNat / 64, c.toNat % 64],
        n < 64 := by
      simp only [List.forall_mem_cons, List.not_mem_nil, false_imp_iff, forall_const, and_true]
      omega
    have hcount := count_symbols hlow 0
    simp only [List.map_cons, List.map_nil, List.replicate, List.append_nil] at hcount
    rw [Base64.encode, decodeBlocks, hcount, dtable_symbol_of_lt (by omega), dtable_symbol_of_lt (by omega),
      dtable_symbol_of_lt (by omega), dtable_symbol_of_lt (by omega), (blockBytes_split a b c 0 (by omega) 0 (by omega)).2.2,
      ih]
    rfl

theorem dtable_ne_of_mem_encode {src : Bytes} {c : Byte} (h : c ∈ Base64.encode src) : dtable c ≠ 0x80 := by
  rcases Base64.mem_encode h with rfl | ⟨n, hn, rfl⟩
  · rw [dtable_pad]
    decide
  · rw [dtable_symbol_of_lt hn]
    intro heq
    have htoNat : (UInt8.ofNat n).toNat = 128 := congrArg UInt8.toNat heq
    rw [UInt8.toNat_ofNat_of_lt' (show n < 256 by omega)] at htoNat
    omega

theorem alphabet_append (s t : Bytes) : alphabet (s ++ t) = alphabet s ++ alphabet t := List.filter_append s t

theorem alphabet_encode (src : Bytes) : alphabet (Base64.encode src) = Base64.encode src :=
  List.filter_eq_self.mpr fun _ hc => decide_eq_true (dtable_ne_of_mem_encode hc)

theorem alphabet_lineFeed (s : Bytes) : alphabet (10 :: s) = alphabet s := by
  rw [alphabet_cons, if_pos dtable_lineFeed]

/-- The line feeds are the only bytes that do not count. -/
theorem alphabet_base64Lines (lineLen : Nat) (src : Bytes) : alphabet (base64Lines lineLen src) = Base64.encode src := by
  induction lineLen, src using base64Lines.induct with
  | case1 lineLen hline =>
    rw [base64Lines, if_pos hline]
    exact alphabet_lineFeed []
  | case2 lineLen hline =>
    rw [base64Lines, if_neg hline]
    rfl
  | case3 lineLen a =>
    rw [base64Lines, alphabet_append, alphabet_encode, alphabet_lineFeed]
    exact List.append_nil _
  | case4 lineLen a b =>
    rw [base64Lines, alphabet_append, alphabet_encode, alphabet_lineFeed]
    exact List.append_nil _
  | case5 lineLen a b c rest ihLine ih =>
    rw [base64Lines, alphabet_append, alphabet_encode]
    split
    · rw [alphabet_lineFeed, ihLine]
      rfl
    · rw [ih]
      rfl

/-- The decoder reads back what the encoder wrote, also when other bytes have been put in or the line
feeds taken out. Only the empty string comes back as an error. -/
theorem base64Decode_base64Encode {src text : Bytes} (h : alphabet text = alphabet (base64Encode src)) :
    base64Decode text = .ok (if src = [] then none else some src) := by
  have hchars : alphabet text = Base64.encode src := h.trans (alphabet_base64Lines 0 src)
  have hlength := length_encode src
  rw [base64Decode_eq, hchars, hlength, decodeBlocks_encode]
  by_cases hempty : src = []
  · rw [if_pos hempty, if_pos (.inl (by rw [hempty]; rfl))]
  · have hpos : 0 < src.length := List.length_pos_iff.mpr hempty
    rw [if_neg hempty, if_neg (by omega)]

/-- Four bytes, their encoding broken by a carriage return. -/
theorem base64Decode_base64Encode_cr :
    base64Decode (lit "AQID\r\nBA==\r\n") = .ok (some [1, 2, 3, 4]) :=
  @base64Decode_base64Encode [1, 2, 3, 4] (lit "AQID\r\nBA==\r\n") (by decide +kernel)

end Jericho.Crypt
