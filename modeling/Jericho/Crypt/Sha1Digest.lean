import Jericho.Crypt.Sha1Context

/-! The context of SHA-1 gives the digest of the standard, whatever the parts are in which the text comes. -/
namespace Jericho.Crypt.Sha1
open StdText BlockText

variable {ctx : Context} {p message : Bytes} {k : Nat}

theorem take_set (block : Vector Byte 64) {i : Nat} (hi : i < 64) (byte : Byte) :
    (block.set i byte hi).toList.take (i + 1) = block.toList.take i ++ [byte] := by
  have hlength : i < (block.toList.set i byte).length := by simpa using hi
  rw [Vector.toList_set, List.take_succ_eq_append_getElem hlength, List.getElem_set_self, List.take_set,
    List.set_eq_of_length_le (List.length_take_le _ _)]

theorem wordOctets_append (high low : UInt32) :
    wordOctets high ++ wordOctets low = WebFrame.bigEndian 8 (high.toNat * 2 ^ 32 + low.toNat) := by
  have hhigh := high.toNat_lt
  have hlow := low.toNat_lt
  simp only [wordOctets, List.map_cons, List.map_nil, List.cons_append, List.nil_append, WebFrame.bigEndian,
    List.cons.injEq, and_true, ← UInt8.toNat_inj, UInt32.toNat_toUInt8, UInt32.toNat_shiftRight, UInt8.toNat_ofNat',
    Nat.shiftRight_eq_div_pow]
  refine ⟨?_, ?_, ?_, ?_, ?_, ?_, ?_, ?_⟩ <;> simp <;> omega

theorem zeros_rest (message : Bytes) : zeros (rest 64 message).length = zeros message.length := by
  rw [length_rest, zeros, Nat.mod_mod]
  rfl

/-- The padding of a rest that leaves room for the length: one block. -/
theorem chained_padding_short (hash : Sha1Hash) {length : Bytes} (hp : p.length ≤ 55) (hlength : length.length = 8) :
    chained sha1ProcessBlock 64 hash (p ++ 0x80 :: (List.replicate (zeros p.length) 0 ++ length)) =
      sha1ProcessBlock hash (p ++ [0x80] ++ List.replicate (55 - p.length) 0 ++ length) := by
  have hzeros : zeros p.length = 55 - p.length := by
    unfold zeros
    omega
  have hfull : (p ++ [0x80] ++ List.replicate (55 - p.length) 0 ++ length).length = 64 := by simp; omega
  rw [hzeros, ← chained_single sha1ProcessBlock (by decide) hash hfull, List.append_assoc, List.append_assoc]
  rfl

/-- The padding of a longer rest: two blocks. -/
theorem chained_padding_long (hash : Sha1Hash) {length : Bytes} (hp : 55 < p.length) (hlt : p.length < 64)
    (hlength : length.length = 8) :
    chained sha1ProcessBlock 64 hash (p ++ 0x80 :: (List.replicate (zeros p.length) 0 ++ length)) =
      sha1ProcessBlock (sha1ProcessBlock hash (p ++ [0x80] ++ List.replicate (63 - p.length) 0))
        (List.replicate 56 0 ++ length) := by
  have hzeros : zeros p.length = 63 - p.length + 56 := by
    unfold zeros
    omega
  have hfull : (p ++ [0x80] ++ List.replicate (63 - p.length) 0).length = 64 := by simp; omega
  have hlast : (List.replicate 56 (0 : Byte) ++ length).length = 64 := by simp [hlength]
  rw [hzeros, ← chained_single sha1ProcessBlock (by decide) _ hlast,
    ← chained_block sha1ProcessBlock (by decide) hash hfull, List.replicate_add]
  simp only [List.append_assoc, List.cons_append, List.nil_append]

namespace Context

/-- The context with another block, filled up to an index. -/
def withBlock (ctx : Context) (block : Vector Byte 64) (i : Nat) : Context :=
  { ctx with messageBlock := block, messageBlockIndex := i }

/-- The number of bits as the context counts them. -/
def bits (ctx : Context) : Nat := ctx.lengthHigh.toNat * 2 ^ 32 + ctx.lengthLow.toNat

@[simp]
theorem bits_withBlock (ctx : Context) (block : Vector Byte 64) (i : Nat) : (ctx.withBlock block i).bits = ctx.bits :=
  rfl

/-- The bytes of the block that were stored. -/
structure Holds (ctx : Context) (p : Bytes) : Prop where
  index : ctx.messageBlockIndex = p.length
  block : ctx.messageBlock.toList.take p.length = p

theorem holds_withBlock {block : Vector Byte 64} {i : Nat} (hlength : p.length = i) (hblock : block.toList.take i = p) :
    (ctx.withBlock block i).Holds p := by
  subst hlength
  exact ⟨rfl, hblock⟩

theorem store_eq (h : ctx.Holds p) (hlt : p.length < 64) (byte : Byte) :
    ∃ block, ctx.store byte = .ok (ctx.withBlock block (p.length + 1)) ∧
      (ctx.withBlock block (p.length + 1)).Holds (p ++ [byte]) := by
  have hindex : ctx.messageBlockIndex < 64 := h.index ▸ hlt
  refine ⟨ctx.messageBlock.set ctx.messageBlockIndex byte hindex, ?_, holds_withBlock (by simp) ?_⟩
  · rw [store, dif_pos hindex, ← h.index]
    rfl
  · have hblock := h.block
    rw [← h.index] at hblock ⊢
    rw [take_set, hblock]

theorem storeZeros_eq (h : ctx.Holds p) (hle : p.length + k ≤ 64) :
    ∃ block, storeZeros k ctx = .ok (ctx.withBlock block (p.length + k)) ∧
      (ctx.withBlock block (p.length + k)).Holds (p ++ List.replicate k 0) := by
  induction k generalizing ctx p with
  | zero =>
    refine ⟨ctx.messageBlock, ?_, holds_withBlock (by simp) ?_⟩
    · rw [storeZeros, Nat.add_zero, ← h.index]
      rfl
    · rw [Nat.add_zero, h.block, List.replicate_zero, List.append_nil]
  | succ k ih =>
    obtain ⟨block, hstore, hstored⟩ := store_eq h (by omega) 0
    have hlength : (p ++ [(0 : Byte)]).length + k = p.length + (k + 1) := by simp; omega
    have hall : p ++ [(0 : Byte)] ++ List.replicate k 0 = p ++ List.replicate (k + 1) 0 := List.append_assoc _ _ _
    obtain ⟨block', hzeros, hfilled⟩ := ih hstored (by omega)
    rw [hlength] at hzeros hfilled
    rw [hall] at hfilled
    refine ⟨block', ?_, hfilled⟩
    rw [storeZeros, hstore]
    exact hzeros

/-- With the length the block is full. -/
theorem storeLength_eq (h : ctx.Holds p) (hlength : p.length = 56) :
    ctx.storeLength.messageBlock.toList = p ++ WebFrame.bigEndian 8 ctx.bits := by
  have hblock := h.block
  rw [hlength] at hblock
  rw [← List.take_length (l := ctx.storeLength.messageBlock.toList), Vector.length_toList, bits, ← wordOctets_append]
  dsimp only [storeLength]
  rw [take_set, take_set, take_set, take_set, take_set, take_set, take_set, take_set, hblock]
  simp [wordOctets]

theorem processMessageBlock_eq (h : ctx.Holds p) (hfull : p.length = 64) :
    ctx.processMessageBlock =
      { ctx with intermediateHash := sha1ProcessBlock ctx.intermediateHash p, messageBlockIndex := 0 } := by
  have hblock := h.block
  rw [hfull, List.take_of_length_le (by simp)] at hblock
  rw [processMessageBlock, hblock]

/-- The end of the padding, which is the same in both branches. -/
theorem finish_eq (h : ctx.Holds p) (hle : p.length ≤ 56) :
    ∃ block, (do
        let ctx ← storeZeros (56 - ctx.messageBlockIndex) ctx
        return ctx.storeLength.processMessageBlock : Exec Context) = .ok { ctx with
      intermediateHash := sha1ProcessBlock ctx.intermediateHash
        (p ++ List.replicate (56 - p.length) 0 ++ WebFrame.bigEndian 8 ctx.bits)
      messageBlock := block
      messageBlockIndex := 0 } := by
  obtain ⟨block, hzeros, hfilled⟩ := storeZeros_eq (k := 56 - p.length) h (by omega)
  have hlength := storeLength_eq hfilled (by simp; omega)
  rw [bits_withBlock] at hlength
  refine ⟨(ctx.withBlock block (p.length + (56 - p.length))).storeLength.messageBlock, ?_⟩
  rw [h.index, hzeros, ← hlength]
  rfl

/-- The last block, or the last two, as `SHA1PadMessage` fills them. -/
theorem padMessage_eq (h : ctx.Holds p) (hlt : p.length < 64) :
    ∃ block, ctx.padMessage = .ok { ctx with
      intermediateHash := chained sha1ProcessBlock 64 ctx.intermediateHash
        (p ++ 0x80 :: (List.replicate (zeros p.length) 0 ++ WebFrame.bigEndian 8 ctx.bits))
      messageBlock := block
      messageBlockIndex := 0 } := by
  obtain ⟨block, hstore, hmark⟩ := store_eq h hlt 0x80
  have hlength : (p ++ [0x80]).length = p.length + 1 := by simp
  unfold padMessage
  rw [hstore, h.index]
  by_cases hlong : p.length > 55
  · -- the zeros end one block and begin another
    rw [if_pos hlong]
    obtain ⟨block₁, hzeros, hfilled⟩ := storeZeros_eq (k := 63 - p.length) hmark (by omega)
    have hprocess := processMessageBlock_eq hfilled (by simp; omega)
    obtain ⟨block₂, hfinish⟩ := @finish_eq (Context.processMessageBlock
      ((ctx.withBlock block (p.length + 1)).withBlock block₁ ((p ++ [0x80]).length + (63 - p.length)))) []
      ⟨rfl, rfl⟩ (Nat.zero_le _)
    have hrounds : 64 - (ctx.withBlock block (p.length + 1)).messageBlockIndex = 63 - p.length := by
      change 64 - (p.length + 1) = 63 - p.length
      omega
    refine ⟨block₂, ?_⟩
    rw [chained_padding_long _ hlong hlt (WebFrame.length_bigEndian 8 _)]
    dsimp only [bind, Except.bind] at hfinish ⊢
    rw [hrounds, hzeros]
    dsimp only
    rw [hfinish, hprocess]
    rfl
  · rw [if_neg hlong]
    obtain ⟨block₁, hfinish⟩ := finish_eq hmark (by omega)
    refine ⟨block₁, hfinish.trans ?_⟩
    have hrounds : 56 - (p ++ [0x80]).length = 55 - p.length := by
      rw [hlength]
      omega
    rw [chained_padding_short _ (Nat.le_of_not_lt hlong) (WebFrame.length_bigEndian 8 _), hrounds, bits_withBlock]
    rfl

/-- A context that has taken a text: the whole blocks are in the hash, the rest is in the block. -/
structure Taking (ctx : Context) (message : Bytes) : Prop where
  computed : ctx.computed = false
  corrupted : ctx.corrupted = 0
  hash : ctx.intermediateHash = chained sha1ProcessBlock 64 {} message
  holds : ctx.Holds (rest 64 message)
  bits : ctx.bits = 8 * message.length

theorem taking_reset (ctx : Context) : ctx.reset.Taking [] where
  computed := rfl
  corrupted := rfl
  hash := (chained_of_lt sha1ProcessBlock {} (by decide)).symm
  holds := ⟨rfl, rfl⟩
  bits := by simp [Context.bits, reset]

theorem count_frame (ctx : Context) : ctx.count = { ctx with
    lengthLow := ctx.count.lengthLow
    lengthHigh := ctx.count.lengthHigh
    corrupted := ctx.count.corrupted } := by
  unfold count
  dsimp only
  split <;> rfl

/-- The two halves of the length count the bits, up to the one that is too many. -/
theorem count_bits (hbits : ctx.bits = 8 * k) (hk : 8 * k < 2 ^ 64) :
    ctx.count.corrupted = (if 8 * (k + 1) < 2 ^ 64 then ctx.corrupted else 1) ∧
      (8 * (k + 1) < 2 ^ 64 → ctx.count.bits = 8 * (k + 1)) := by
  have hlow := ctx.lengthLow.toNat_lt
  have hhigh := ctx.lengthHigh.toNat_lt
  have hlow' : (ctx.lengthLow + 8).toNat = (ctx.lengthLow.toNat + 8) % 2 ^ 32 := UInt32.toNat_add _ _
  have hhigh' : (ctx.lengthHigh + 1).toNat = (ctx.lengthHigh.toNat + 1) % 2 ^ 32 := UInt32.toNat_add _ _
  unfold bits at hbits
  by_cases hwrap : ctx.lengthLow + 8 = 0
  · have hzero : (ctx.lengthLow + 8).toNat = 0 := by rw [hwrap]; rfl
    by_cases htop : ctx.lengthHigh + 1 = 0
    · have hzero' : (ctx.lengthHigh + 1).toNat = 0 := by rw [htop]; rfl
      have hmany : ¬ 8 * (k + 1) < 2 ^ 64 := by omega
      rw [if_neg hmany]
      refine ⟨?_, fun hless => absurd hless hmany⟩
      simp only [count, if_pos hwrap, if_pos htop]
    · have htop' : (ctx.lengthHigh + 1).toNat ≠ 0 := fun heq => htop (UInt32.toNat_inj.mp heq)
      have hless : 8 * (k + 1) < 2 ^ 64 := by omega
      rw [if_pos hless]
      have htotal : (ctx.lengthHigh + 1).toNat * 2 ^ 32 + (ctx.lengthLow + 8).toNat = 8 * (k + 1) := by
        have hlast : ctx.lengthLow.toNat + 8 = 2 ^ 32 := by omega
        have hcarry : (ctx.lengthHigh + 1).toNat = ctx.lengthHigh.toNat + 1 := by omega
        rw [hzero, hcarry, Nat.mul_succ 8 k, ← hbits, Nat.add_assoc _ _ 8, hlast, Nat.add_zero, Nat.add_mul,
          Nat.one_mul]
      refine ⟨by simp only [count, if_pos hwrap, if_neg htop], fun _ => ?_⟩
      simp only [count, if_pos hwrap, bits]
      exact htotal
  · have hwrap' : (ctx.lengthLow + 8).toNat ≠ 0 := fun heq => hwrap (UInt32.toNat_inj.mp heq)
    have hless : 8 * (k + 1) < 2 ^ 64 := by omega
    rw [if_pos hless]
    refine ⟨by simp only [count, if_neg hwrap], fun _ => ?_⟩
    simp only [count, if_neg hwrap, bits]
    omega

/-- A block is processed as soon as it is full. -/
theorem flush_eq {byte : Byte} (hhash : ctx.intermediateHash = chained sha1ProcessBlock 64 {} message)
    (h : ctx.Holds (rest 64 message ++ [byte])) :
    ∃ i, (if ctx.messageBlockIndex = 64 then ctx.processMessageBlock else ctx) = { ctx with
      intermediateHash := chained sha1ProcessBlock 64 {} (message ++ [byte])
      messageBlockIndex := i } ∧ (ctx.withBlock ctx.messageBlock i).Holds (rest 64 (message ++ [byte])) := by
  have hlt : (rest 64 message).length < 64 := by
    rw [length_rest]
    exact Nat.mod_lt _ (by decide)
  have hindex : ctx.messageBlockIndex = (rest 64 message).length + 1 := by
    rw [h.index, List.length_append, List.length_singleton]
  by_cases hfull : (rest 64 message).length + 1 = 64
  · obtain ⟨hchained, hrest⟩ := concat_full sha1ProcessBlock ({} : Sha1Hash) byte hfull
    refine ⟨0, ?_, ?_⟩
    · rw [if_pos (hindex.trans hfull), processMessageBlock_eq h (by simpa using hfull), hhash, hchained]
    · rw [hrest]
      exact ⟨rfl, rfl⟩
  · have hshort : (rest 64 message).length + 1 < 64 := Nat.lt_of_le_of_ne hlt hfull
    obtain ⟨hchained, hrest⟩ := concat_short sha1ProcessBlock ({} : Sha1Hash) byte hshort
    refine ⟨ctx.messageBlockIndex, ?_, ?_⟩
    · rw [if_neg (by omega), hchained, ← hhash]
    · rw [hrest]
      exact h

/-- A context after a text, which may have one bit too many. -/
def Reached (ctx : Context) (message : Bytes) : Prop :=
  ctx.computed = false ∧ if 8 * message.length < 2 ^ 64 then ctx.Taking message else ctx.corrupted = 1

theorem put_spec (h : ctx.Taking message) (hbits : 8 * message.length < 2 ^ 64) (byte : Byte) :
    ∃ ctx', ctx.put byte = .ok ctx' ∧ ctx'.Reached (message ++ [byte]) := by
  have hlt : (rest 64 message).length < 64 := by
    rw [length_rest]
    exact Nat.mod_lt _ (by decide)
  obtain ⟨block, hstore, hstored⟩ := store_eq h.holds hlt byte
  obtain ⟨ctx₁, hctx₁⟩ : ∃ ctx₁, ctx₁ = ctx.withBlock block ((rest 64 message).length + 1) := ⟨_, rfl⟩
  rw [← hctx₁] at hstore hstored
  have hframe := count_frame ctx₁
  have hbefore : ctx₁.bits = 8 * message.length := hctx₁ ▸ h.bits
  obtain ⟨hcorrupted, hcount⟩ := count_bits hbefore hbits
  have hcomputed : ctx₁.count.computed = false := by
    rw [hframe, hctx₁]
    exact h.computed
  have hhash : ctx₁.count.intermediateHash = chained sha1ProcessBlock 64 {} message := by
    rw [hframe, hctx₁]
    exact h.hash
  have hholds : ctx₁.count.Holds (rest 64 message ++ [byte]) := by
    rw [hframe]
    exact ⟨hstored.index, hstored.block⟩
  obtain ⟨i, hflush, hrest⟩ := flush_eq hhash hholds
  have hput : ctx.put byte = .ok { ctx₁.count with
      intermediateHash := chained sha1ProcessBlock 64 {} (message ++ [byte])
      messageBlockIndex := i } := by
    unfold put
    rw [hstore]
    exact congrArg Except.ok hflush
  refine ⟨_, hput, hcomputed, ?_⟩
  rw [List.length_append, List.length_singleton]
  split_ifs with hless
  · rw [if_pos hless] at hcorrupted
    refine ⟨hcomputed, hcorrupted.trans ?_, rfl, ⟨hrest.index, hrest.block⟩, ?_⟩
    · rw [hctx₁]
      exact h.corrupted
    · rw [List.length_append, List.length_singleton]
      exact hcount hless
  · rw [if_neg hless] at hcorrupted
    exact hcorrupted

theorem inputLoop_corrupted (h : ctx.corrupted ≠ 0) (message : Bytes) : inputLoop message ctx = .ok ctx := by
  cases message with
  | nil => rfl
  | cons byte rest => exact if_pos h

/-- The loop takes the next part of the text, up to the bit that is one too many. -/
theorem inputLoop_spec {taken : Bytes} (h : ctx.Taking taken) (hbits : 8 * taken.length < 2 ^ 64) (message : Bytes) :
    ∃ ctx', inputLoop message ctx = .ok ctx' ∧ ctx'.Reached (taken ++ message) := by
  induction message generalizing ctx taken with
  | nil =>
    refine ⟨ctx, rfl, h.computed, ?_⟩
    rw [List.append_nil, if_pos hbits]
    exact h
  | cons byte rest ih =>
    obtain ⟨ctx₁, hput, hcomputed, hafter⟩ := put_spec h hbits byte
    have hloop : inputLoop (byte :: rest) ctx = inputLoop rest ctx₁ := by
      rw [inputLoop, if_neg (not_not.mpr h.corrupted), hput]
      rfl
    rw [hloop, List.append_cons]
    split_ifs at hafter with hless
    · exact ih hafter hless
    · have hmore : ¬ 8 * (taken ++ [byte] ++ rest).length < 2 ^ 64 := by
        rw [List.length_append]
        omega
      refine ⟨ctx₁, inputLoop_corrupted (by rw [hafter]; decide) rest, hcomputed, ?_⟩
      rw [if_neg hmore]
      exact hafter

end Context

/-- A context stands for what its caller sees of it. -/
def Represents (ctx : Context) : Hashing → Prop
  | .taking message => ctx.Taking message ∧ 8 * message.length < 2 ^ 64
  | .computed message =>
    ctx.computed = true ∧ ctx.corrupted = 0 ∧ ctx.intermediateHash = chained sha1ProcessBlock 64 {} (padded message)
  | .corrupted code => ctx.corrupted = code ∧ code ≠ 0 ∧ (ctx.computed = true → code = shaStateError)

theorem Context.compute_spec (h : ctx.Taking message) :
    ∃ ctx', ctx.compute = .ok ctx' ∧ Represents ctx' (.computed message) := by
  have hlt : (rest 64 message).length < 64 := by
    rw [length_rest]
    exact Nat.mod_lt _ (by decide)
  obtain ⟨block, hpad⟩ := padMessage_eq h.holds hlt
  unfold compute
  rw [h.computed, if_neg Bool.false_ne_true, hpad]
  refine ⟨_, rfl, rfl, h.corrupted, ?_⟩
  rw [padded, chained_append _ (by decide) _ message, ← h.hash, ← h.bits, ← zeros_rest message]

theorem Represents.input {s : Hashing} (h : Represents ctx s) (hne : message.length ≠ 0) :
    ∃ ctx', ctx.input message = .ok ((s.input message).2.code, ctx') ∧ Represents ctx' (s.input message).1 := by
  unfold Context.input
  rw [if_neg hne]
  cases s with
  | taking taken =>
    obtain ⟨htaking, hbits⟩ := h
    obtain ⟨ctx', hloop, hcomputed, hafter⟩ := Context.inputLoop_spec htaking hbits message
    rw [htaking.computed, if_neg Bool.false_ne_true, if_neg (not_not.mpr htaking.corrupted), hloop]
    refine ⟨ctx', rfl, ?_⟩
    dsimp only [Hashing.input]
    split_ifs at hafter ⊢ with hless
    · exact ⟨hafter, hless⟩
    · exact ⟨hafter, by decide, fun hcontra => absurd (hcomputed.symm.trans hcontra) Bool.false_ne_true⟩
  | computed taken =>
    rw [if_pos h.1]
    exact ⟨_, rfl, rfl, by decide, fun _ => rfl⟩
  | corrupted code =>
    obtain ⟨hcode, hne, hstate⟩ := h
    by_cases hcomputed : ctx.computed = true
    · rw [if_pos hcomputed, hstate hcomputed]
      exact ⟨_, rfl, rfl, by decide, fun _ => rfl⟩
    · rw [if_neg hcomputed, if_pos (hcode ▸ hne), hcode]
      exact ⟨ctx, rfl, hcode, hne, hstate⟩

theorem Represents.result {s : Hashing} (h : Represents ctx s) :
    ∃ ctx', ctx.result = .ok (s.result.2.code, s.result.2.digest, ctx') ∧ Represents ctx' s.result.1 := by
  unfold Context.result
  cases s with
  | taking taken =>
    obtain ⟨ctx', hcompute, hcomputed⟩ := Context.compute_spec h.1
    rw [if_neg (not_not.mpr h.1.corrupted), hcompute]
    refine ⟨ctx', ?_, hcomputed⟩
    exact congrArg (fun hash : Sha1Hash => Except.ok (shaSuccess, some (hash.words.flatMap wordOctets), ctx')) hcomputed.2.2
  | computed taken =>
    obtain ⟨hcomputed, hcorrupted, hhash⟩ := h
    have hcompute : ctx.compute = .ok ctx := if_pos hcomputed
    rw [if_neg (not_not.mpr hcorrupted), hcompute]
    refine ⟨ctx, ?_, hcomputed, hcorrupted, hhash⟩
    exact congrArg (fun hash : Sha1Hash => Except.ok (shaSuccess, some (hash.words.flatMap wordOctets), ctx)) hhash
  | corrupted code =>
    rw [if_pos (h.1 ▸ h.2.1), h.1]
    exact ⟨ctx, rfl, h⟩

theorem Represents.call {s : Hashing} (h : Represents ctx s) (call : Call) :
    ∃ ctx', ctx.call call = .ok ((s.call call).2, ctx') ∧ Represents ctx' (s.call call).1 := by
  cases call with
  | reset => exact ⟨_, rfl, Context.taking_reset ctx, by decide⟩
  | input message =>
    dsimp only [Context.call, Hashing.call]
    by_cases hempty : message.length = 0
    · rw [Context.input, if_pos hempty, if_pos hempty]
      exact ⟨ctx, rfl, h⟩
    · obtain ⟨ctx', hinput, hafter⟩ := h.input hempty
      rw [hinput, if_neg hempty]
      refine ⟨ctx', ?_, hafter⟩
      cases s <;> rfl
  | result =>
    obtain ⟨ctx', hresult, hafter⟩ := h.result
    dsimp only [Context.call]
    rw [hresult]
    exact ⟨ctx', rfl, hafter⟩

theorem Represents.answers {s : Hashing} (h : Represents ctx s) (calls : List Call) :
    ctx.answers calls = .ok (s.answers calls) := by
  induction calls generalizing ctx s with
  | nil => rfl
  | cons call calls ih =>
    obtain ⟨ctx', hcall, hafter⟩ := h.call call
    rw [Context.answers, hcall]
    dsimp only [bind, Except.bind]
    rw [ih hafter]
    rfl

/-- Whatever the memory of a context was before, and however its calls follow one another: it gives the answers of
the digest of the standard, and no byte is stored outside its block. -/
theorem answers_reset (ctx : Context) (calls : List Call) :
    ctx.reset.answers calls = .ok ((Hashing.taking []).answers calls) :=
  Represents.answers (s := .taking []) ⟨Context.taking_reset ctx, by decide⟩ calls

/-- A text in two parts, the first of which ends within a block. -/
example : (Hashing.taking []).answers
    [.input (lit "abcdbcdecdefdefgefghfghigh"), .input (lit "ijhijkijkljklmklmnlmnomnopnopq"), .result, .input (lit "a"),
      .result] =
    [⟨0, none⟩, ⟨0, none⟩,
      ⟨0, some [0x84, 0x98, 0x3E, 0x44, 0x1C, 0x3B, 0xD2, 0x6E, 0xBA, 0xAE, 0x4A, 0xA1, 0xF9, 0x51, 0x29, 0xE5, 0xE5,
        0x46, 0x70, 0xF1]⟩, ⟨3, none⟩, ⟨3, none⟩] := by
  decide +kernel

theorem lengthOctets_eq (n : Nat) : lengthOctets (UInt64.ofNat n) = WebFrame.bigEndian 8 n := by
  simp only [lengthOctets, List.map_cons, List.map_nil, WebFrame.bigEndian, List.cons_append, List.nil_append,
    List.cons.injEq, and_true, ← UInt8.toNat_inj, UInt64.toNat_toUInt8, UInt64.toNat_shiftRight, UInt8.toNat_ofNat',
    UInt64.toNat_ofNat', Nat.shiftRight_eq_div_pow]
  refine ⟨?_, ?_, ?_, ?_, ?_, ?_, ?_, ?_⟩ <;> simp <;> omega

/-- The context without the codes holds the same. -/
theorem foldl_put (message : Bytes) : message.foldl Sha1Context.put {} =
    { hash := chained sha1ProcessBlock 64 {} message
      length := UInt64.ofNat (8 * message.length)
      block := rest 64 message } := by
  induction message using List.reverseRecOn with
  | nil =>
    rw [chained_of_lt _ _ (by decide), rest_of_lt (by decide)]
    rfl
  | append_singleton message byte ih =>
    have hlength : UInt64.ofNat (8 * message.length) + 8 = UInt64.ofNat (8 * (message ++ [byte]).length) := by
      rw [List.length_append, List.length_singleton, Nat.mul_succ, UInt64.ofNat_add]
      rfl
    rw [List.foldl_concat, ih, Sha1Context.put, hlength, List.length_append, List.length_singleton]
    split_ifs with hfull
    · obtain ⟨hchained, hrest⟩ := concat_full sha1ProcessBlock ({} : Sha1Hash) byte hfull
      rw [hchained, hrest]
    · have hlt : (rest 64 message).length < 64 := by
        rw [length_rest]
        exact Nat.mod_lt _ (by decide)
      have hshort : (rest 64 message).length + 1 < 64 := Nat.lt_of_le_of_ne hlt hfull
      obtain ⟨hchained, hrest⟩ := concat_short sha1ProcessBlock ({} : Sha1Hash) byte hshort
      rw [hchained, hrest]

theorem pad_eq (ctx : Sha1Context) (hlt : ctx.block.length < 64) :
    ctx.pad = chained sha1ProcessBlock 64 ctx.hash
      (ctx.block ++ 0x80 :: (List.replicate (zeros ctx.block.length) 0 ++ lengthOctets ctx.length)) := by
  have hlength : (ctx.block ++ [0x80]).length = ctx.block.length + 1 := by simp
  have hoctets : (lengthOctets ctx.length).length = 8 := rfl
  unfold Sha1Context.pad
  dsimp only
  rw [hlength]
  by_cases hlong : ctx.block.length > 55
  · have hrounds : 64 - (ctx.block.length + 1) = 63 - ctx.block.length := by omega
    rw [if_pos hlong, chained_padding_long _ hlong hlt hoctets, hrounds]
  · have hrounds : 56 - (ctx.block.length + 1) = 55 - ctx.block.length := by omega
    rw [if_neg hlong, chained_padding_short _ (Nat.le_of_not_lt hlong) hoctets, hrounds]
    simp only [List.append_assoc]

/-- The digest of the handshake is the one of the standard. -/
theorem sha1_eq_digest (message : Bytes) : sha1 message = digest message := by
  have hlt := length_rest_lt (n := 64) (by decide) message
  have hpad := pad_eq (message.foldl Sha1Context.put {}) (by rw [foldl_put]; exact hlt)
  rw [foldl_put] at hpad
  rw [sha1, foldl_put, hpad, digest, padded, chained_append _ (by decide) _ message, ← zeros_rest message,
    ← lengthOctets_eq]

end Jericho.Crypt.Sha1
