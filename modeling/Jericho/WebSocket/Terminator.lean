import Jericho.WebSocket.Receive

/-! `recv_websocket` ends its copy of the buffer at `WS_PACKET`, wherever the data ends: what the
byte replaced there means for the messages. -/
namespace Jericho.WebSocket
open StdText WebFrame

/-- The byte at a place is none that matters: the length byte of an empty payload, of which only the
mask bit is lost, or one of a key that no byte of the payload is under. -/
def Harmless (f : Fragment) (o : Nat) : Prop :=
  o = 1 ∧ f.payload = [] ∨ f.headLength ≤ o ∧ o < f.headLength + 4 ∧ f.payload.length ≤ o - f.headLength

/-- The byte at a place is one of the length of a payload. -/
def Resizes (f : Fragment) (o : Nat) : Prop := 1 ≤ o ∧ o < f.headLength ∧ f.payload ≠ []

/-- What a reader finds where a byte of a frame, not the first one, was replaced by zero. -/
structure Altered (fin : Bool) (opcode : UInt8) (f : Fragment) (o : Nat) (cs : Bytes) (second : Byte)
    (extended : Bytes) (key : Fin 4 → Byte) (payload rest : Bytes) : Prop where
  bytes : (masked fin opcode f.key f.payload).set o 0 ++ cs =
    firstByte fin opcode :: second :: (extended ++ List.ofFn key ++ mask key 0 payload ++ rest)
  announces : Announces second extended payload.length
  le : payload.length ≤ f.payload.length
  same_iff : payload = f.payload ↔ Harmless f o
  keeps : ¬ Resizes f o → payload.length = f.payload.length ∧ rest = cs

variable {fin : Bool} {opcode : UInt8} {f : Fragment} {o : Nat} {cs : Bytes}

theorem masked_eq (fin : Bool) (opcode : UInt8) (f : Fragment) :
    masked fin opcode f.key f.payload = firstByte fin opcode :: (128 ||| UInt8.ofNat (lengthCode f.payload.length)) ::
      (lengthRest f.payload.length ++ (List.ofFn f.key ++ mask f.key 0 f.payload)) :=
  congrArg (fun bs => firstByte fin opcode :: _ :: bs) (List.append_assoc _ _ _)

/-- Of an empty payload only the mask bit is lost. -/
theorem altered_empty (hempty : f.payload = []) : Altered fin opcode f 1 cs 0 [] f.key [] cs where
  bytes := by
    rw [hempty]
    rfl
  announces := .short rfl (Nat.zero_le _)
  le := Nat.zero_le _
  same_iff := iff_of_true hempty.symm (.inl ⟨rfl, hempty⟩)
  keeps _ := ⟨by rw [hempty], rfl⟩

theorem four_bytes (bs : Bytes) (h : 4 ≤ bs.length) :
    ∃ (key : Fin 4 → Byte) (rest : Bytes), bs = List.ofFn key ++ rest := by
  match bs, h with
  | a :: b :: c :: d :: rest, _ => exact ⟨![a, b, c, d], rest, rfl⟩

/-- Without its length byte a payload is read as an empty one. -/
theorem altered_code (hne : f.payload ≠ []) : ∃ key rest, Altered fin opcode f 1 cs 0 [] key [] rest := by
  obtain ⟨key, rest, hbytes⟩ := four_bytes
    (lengthRest f.payload.length ++ (List.ofFn f.key ++ mask f.key 0 f.payload) ++ cs) (by
      simp only [List.length_append, List.length_ofFn]
      omega)
  have hhead : 2 ≤ f.headLength := Nat.le_add_right 2 _
  refine ⟨key, rest, ?_, .short rfl (Nat.zero_le _), Nat.zero_le _, ?_, ?_⟩
  · rw [masked_eq]
    refine congrArg (fun bs => firstByte fin opcode :: (0 : Byte) :: bs) (hbytes.trans ?_)
    exact congrArg (· ++ rest) (List.append_nil _).symm
  · refine iff_of_false (fun hnil => hne hnil.symm) ?_
    rintro (⟨-, hnil⟩ | ⟨hle, -, -⟩)
    · exact hne hnil
    · omega
  · exact fun hkeeps => absurd ⟨Nat.le_refl 1, by omega, hne⟩ hkeeps

theorem Announces.set {second : Byte} {extended : Bytes} {n j : Nat} (h : Announces second extended n)
    (hj : j < extended.length) :
    ofBigEndian extended = n ∧ Announces second (extended.set j 0) (ofBigEndian (extended.set j 0)) := by
  cases h with
  | short => exact absurd hj (Nat.not_lt_zero j)
  | middle hsecond hlength => exact ⟨rfl, .middle hsecond (List.length_set.trans hlength)⟩
  | long hsecond hlength => exact ⟨rfl, .long hsecond (List.length_set.trans hlength)⟩

/-- With a byte of its length replaced a payload is cut short. -/
theorem altered_extended (cs : Bytes) {j : Nat} (hj : 2 + j < f.headLength) (hshort : f.payload.length < 2 ^ 64)
    (hbyte : (masked fin opcode f.key f.payload)[2 + j]? ≠ some 0) :
    ∃ second extended payload rest, Altered fin opcode f (2 + j) cs second extended f.key payload rest := by
  have hlt : j < (lengthRest f.payload.length).length := by
    unfold Fragment.headLength at hj
    omega
  have hne : f.payload ≠ [] := by
    intro hnil
    rw [hnil] at hlt
    exact absurd hlt (Nat.not_lt_zero j)
  rw [masked_eq, Nat.add_comm, List.getElem?_cons_succ, List.getElem?_cons_succ, List.getElem?_append_left hlt] at hbyte
  obtain ⟨hvalue, hannounces⟩ := (announces_length hshort).set hlt
  have hless := ofBigEndian_set_lt hlt hbyte
  rw [hvalue] at hless
  generalize hn : ofBigEndian ((lengthRest f.payload.length).set j 0) = n at hannounces hless
  have hlength : (f.payload.take n).length = n := by
    rw [List.length_take]
    omega
  have hcut : f.payload.take n ≠ f.payload := by
    intro heq
    rw [heq] at hlength
    omega
  refine ⟨128 ||| UInt8.ofNat (lengthCode f.payload.length), (lengthRest f.payload.length).set j 0, f.payload.take n,
    mask f.key n (f.payload.drop n) ++ cs, ?_, hlength.symm ▸ hannounces, hlength.trans_le hless.le, ?_, ?_⟩
  · have hmask := mask_append f.key 0 (f.payload.take n) (f.payload.drop n)
    rw [List.take_append_drop, hlength, Nat.zero_add] at hmask
    rw [masked_eq, Nat.add_comm, List.set_cons_succ, List.set_cons_succ, List.set_append_left _ _ hlt, hmask]
    simp only [List.cons_append, List.append_assoc]
  · refine iff_of_false hcut ?_
    rintro (⟨hone, -⟩ | ⟨hle, -, -⟩) <;> omega
  · exact fun hkeeps => absurd ⟨by omega, hj, hne⟩ hkeeps

theorem ofFn_set (key : Fin 4 → Byte) (j : Fin 4) (c : Byte) :
    (List.ofFn key).set j c = List.ofFn (Function.update key j c) := by
  apply List.ext_getElem?
  intro i
  by_cases hi : j.val = i
  · subst hi
    rw [List.getElem?_set_self (by rw [List.length_ofFn]; exact j.isLt), List.getElem?_ofFn, dif_pos j.isLt]
    exact congrArg some (Function.update_self j c key).symm
  · rw [List.getElem?_set_ne hi, List.getElem?_ofFn, List.getElem?_ofFn]
    split_ifs with hlt
    · have hne : (⟨i, hlt⟩ : Fin 4) ≠ j := fun heq => hi (congrArg Fin.val heq).symm
      rw [Function.update_of_ne hne]
    · rfl

theorem getElem?_remask (cs : Bytes) (key key' : Fin 4 → Byte) (i : Nat) :
    (mask key' 0 (mask key 0 cs))[i]? = cs[i]?.map fun c => c ^^^ key (maskIndex i) ^^^ key' (maskIndex i) := by
  rw [getElem?_mask, getElem?_mask, Option.map_map, Nat.zero_add]
  rfl

theorem maskIndex_eq (j : Fin 4) : maskIndex j = j := by
  fin_cases j <;> rfl

/-- The payload under another byte of the key is the same one if it does not reach that byte. -/
theorem remask_eq_iff {key : Fin 4 → Byte} {j : Fin 4} (hkey : key j ≠ 0) :
    mask (Function.update key j 0) 0 (mask key 0 cs) = cs ↔ cs.length ≤ j := by
  constructor
  · intro heq
    by_contra hlt
    have hreach : j.val < cs.length := Nat.not_le.mp hlt
    have hget : cs[j.val]? = some cs[j.val] := List.getElem?_eq_getElem hreach
    have hbyte := getElem?_remask cs key (Function.update key j 0) j
    rw [heq, hget, maskIndex_eq, Function.update_self, Option.map_some, UInt8.xor_zero] at hbyte
    have hsame : cs[j.val] ^^^ key j = cs[j.val] := (Option.some.inj hbyte).symm
    exact hkey ((UInt8.xor_right_inj _).mp (hsame.trans UInt8.xor_zero.symm))
  · intro hle
    apply List.ext_getElem?
    intro i
    rw [getElem?_remask]
    by_cases hi : i < cs.length
    · have hne : maskIndex i ≠ j := by
        intro heq
        have hval := maskIndex_eq ⟨i, by omega⟩
        rw [heq] at hval
        exact absurd (congrArg Fin.val hval) (by dsimp only; omega)
      rw [Function.update_of_ne hne, List.getElem?_eq_getElem hi, Option.map_some, UInt8.xor_assoc, UInt8.xor_self,
        UInt8.xor_zero]
    · rw [List.getElem?_eq_none (Nat.not_lt.mp hi)]
      rfl

/-- A byte of the key changes every fourth byte of the payload, if there is one. -/
theorem altered_key (cs : Bytes) (j : Fin 4) (hshort : f.payload.length < 2 ^ 64)
    (hbyte : (masked fin opcode f.key f.payload)[f.headLength + j]? ≠ some 0) :
    ∃ second extended key payload, Altered fin opcode f (f.headLength + j) cs second extended key payload cs := by
  have hplace : f.headLength + j = (lengthRest f.payload.length).length + j + 1 + 1 := by
    unfold Fragment.headLength
    omega
  have hkey : f.key j ≠ 0 := by
    intro hzero
    rw [masked_eq, hplace, List.getElem?_cons_succ, List.getElem?_cons_succ,
      List.getElem?_append_right (Nat.le_add_right _ _), Nat.add_sub_cancel_left,
      List.getElem?_append_left (by rw [List.length_ofFn]; exact j.isLt), List.getElem?_ofFn, dif_pos j.isLt] at hbyte
    exact hbyte (congrArg some hzero)
  let key := Function.update f.key j 0
  let payload := mask key 0 (mask f.key 0 f.payload)
  have hlength : payload.length = f.payload.length := (length_mask _ _ _).trans (length_mask _ _ _)
  refine ⟨_, _, key, payload, ?_, hlength.symm ▸ announces_length hshort, hlength.le, ?_, fun _ => ⟨hlength, rfl⟩⟩
  · have hmask : mask key 0 payload = mask f.key 0 f.payload := mask_mask key 0 _
    rw [hmask, hlength, masked_eq, hplace, List.set_cons_succ, List.set_cons_succ,
      List.set_append_right _ _ (Nat.le_add_right _ _), Nat.add_sub_cancel_left,
      List.set_append_left _ _ (by rw [List.length_ofFn]; exact j.isLt), ofFn_set]
    simp only [List.cons_append, List.append_assoc]
    rfl
  · refine (remask_eq_iff hkey).trans ?_
    have hhead : 2 ≤ f.headLength := Nat.le_add_right 2 _
    have hj := j.isLt
    unfold Harmless
    omega

/-- A byte of the payload is one of the message. -/
theorem altered_payload (cs : Bytes) {j : Nat} (hshort : f.payload.length < 2 ^ 64)
    (hbyte : (masked fin opcode f.key f.payload)[f.headLength + 4 + j]? ≠ some 0) (hj : j < f.payload.length) :
    ∃ second extended payload, Altered fin opcode f (f.headLength + 4 + j) cs second extended f.key payload cs := by
  have hplace : f.headLength + 4 + j = (lengthRest f.payload.length).length + ((List.ofFn f.key).length + j) + 1 + 1 := by
    rw [List.length_ofFn]
    unfold Fragment.headLength
    omega
  have hset := set_mask f.key 0 j 0 f.payload
  have hlength : (f.payload.set j (0 ^^^ f.key (maskIndex (0 + j)))).length = f.payload.length := List.length_set
  refine ⟨_, _, f.payload.set j (0 ^^^ f.key (maskIndex (0 + j))), ?_, hlength.symm ▸ announces_length hshort,
    hlength.le, iff_of_false ?_ ?_, fun _ => ⟨hlength, rfl⟩⟩
  · rw [← hset, hlength, masked_eq, hplace, List.set_cons_succ, List.set_cons_succ,
      List.set_append_right _ _ (Nat.le_add_right _ _), Nat.add_sub_cancel_left,
      List.set_append_right _ _ (Nat.le_add_right _ _), Nat.add_sub_cancel_left]
    simp only [List.cons_append, List.append_assoc]
  · intro hsame
    rw [hsame] at hset
    rw [masked_eq, hplace, List.getElem?_cons_succ, List.getElem?_cons_succ,
      List.getElem?_append_right (Nat.le_add_right _ _), Nat.add_sub_cancel_left,
      List.getElem?_append_right (Nat.le_add_right _ _), Nat.add_sub_cancel_left, ← hset] at hbyte
    exact hbyte (List.getElem?_set_self (by rwa [length_mask]))
  · have hhead : 2 ≤ f.headLength := Nat.le_add_right 2 _
    unfold Harmless
    omega

/-- A frame with a byte replaced, not its first one, is still read as a frame. -/
theorem exists_altered (cs : Bytes) (hlow : 1 ≤ o) (hhigh : o < f.size) (hshort : f.payload.length < 2 ^ 64)
    (hbyte : (masked fin opcode f.key f.payload)[o]? ≠ some 0) :
    ∃ second extended key payload rest, Altered fin opcode f o cs second extended key payload rest := by
  unfold Fragment.size at hhigh
  by_cases hlength : o < f.headLength
  · rcases Nat.lt_or_ge 1 o with hlate | hearly
    · obtain ⟨j, rfl⟩ := Nat.exists_eq_add_of_le hlate
      obtain ⟨second, extended, payload, rest, haltered⟩ := altered_extended cs hlength hshort hbyte
      exact ⟨second, extended, f.key, payload, rest, haltered⟩
    · obtain rfl : o = 1 := Nat.le_antisymm hearly hlow
      by_cases hempty : f.payload = []
      · exact ⟨0, [], f.key, [], cs, altered_empty hempty⟩
      · obtain ⟨key, rest, haltered⟩ := altered_code hempty
        exact ⟨0, [], key, [], rest, haltered⟩
  obtain ⟨j, rfl⟩ := Nat.exists_eq_add_of_le (Nat.not_lt.mp hlength)
  by_cases hkey : j < 4
  · obtain ⟨second, extended, key, payload, haltered⟩ := altered_key cs ⟨j, hkey⟩ hshort hbyte
    exact ⟨second, extended, key, payload, cs, haltered⟩
  · obtain ⟨k, rfl⟩ := Nat.exists_eq_add_of_le (Nat.not_lt.mp hkey)
    rw [← Nat.add_assoc] at hbyte ⊢
    obtain ⟨second, extended, payload, haltered⟩ := altered_payload cs hshort hbyte (by omega)
    exact ⟨second, extended, f.key, payload, cs, haltered⟩

theorem Harmless.not_resizes (h : Harmless f o) : ¬ Resizes f o := by
  rintro ⟨-, hlt, hne⟩
  rcases h with ⟨-, hnil⟩ | ⟨hle, -, -⟩
  · exact hne hnil
  · exact absurd hle (Nat.not_le.mpr hlt)

variable {frame : Frame} {i : Nat} {last : Bool} {fs : List Fragment}

theorem locate_head (hi : i < f.size) :
    locate (parts (f :: fs)) i = some (f, fs.isEmpty, i) := if_pos hi

theorem locate_tail (hi : ¬ i < f.size) : locate (parts (f :: fs)) i = locate (parts fs) (i - f.size) := if_neg hi

theorem isEmpty_of_locate (hloc : locate (parts fs) i = some (f, last, o)) : fs.isEmpty = false := by
  cases fs with
  | nil => cases hloc
  | cons => rfl

/-- A message with such a byte is read up to its end, unless the length of an earlier payload than the
last one is touched. -/
theorem nextFrameLoop_altered (hloc : locate (parts fs) i = some (f, last, o)) (ho : 1 ≤ o)
    (hwhole : Resizes f o → last = true) (hbyte : (fragments opcode fs)[i]? ≠ some 0) {rounds : Nat}
    (hrounds : fs.length ≤ rounds) (data : Bytes) (hopcode : DataOpcode opcode)
    (htype : frame.type = -1 ↔ opcode ≠ 0) (hstate : frame.client.state = .openWs)
    (hsize : frame.size + (fs.flatMap Fragment.payload).length ≤ maxFrameLength)
    (h : frame.rest = (fragments opcode fs).set i 0 ++ cs) :
    ∃ (g : Frame) (payload : Bytes), nextFrameLoop rounds data frame = .ok (0, { g with message := data ++ payload }) ∧
      (payload = fs.flatMap Fragment.payload ↔ Harmless f o) ∧ (Harmless f o → g.rest = cs) ∧
      g.size = frame.size + payload.length ∧ g.type = (if opcode = 0 then frame.type else opcode.toNat) ∧
      g.error = frame.error ∧ g.client = frame.client := by
  induction fs generalizing opcode frame rounds data i with
  | nil => cases hloc
  | cons f' fs ih =>
    obtain ⟨rounds, rfl⟩ := Nat.exists_eq_succ_of_ne_zero (Nat.ne_of_gt (Nat.lt_of_lt_of_le (Nat.succ_pos _) hrounds))
    have hmax : maxFrameLength < 2 ^ 64 := by decide
    have hlength := length_masked fs.isEmpty opcode f'
    rw [List.flatMap_cons, List.length_append] at hsize
    rw [fragments] at h hbyte
    have hstarted := type_ne htype
    by_cases hi : i < f'.size
    · rw [locate_head hi] at hloc
      obtain ⟨rfl, hplace⟩ := Prod.mk.inj (Option.some.inj hloc)
      obtain ⟨rfl, rfl⟩ := Prod.mk.inj hplace
      rw [List.getElem?_append_left (hlength.symm ▸ hi)] at hbyte
      obtain ⟨second, extended, key, payload, rest, haltered⟩ :=
        exists_altered (fragments 0 fs ++ cs) ho hi (by omega) hbyte
      have hle := haltered.le
      rw [List.set_append_left _ _ (hlength.symm ▸ hi), List.append_assoc, haltered.bytes] at h
      obtain ⟨g, hread, hrest, hgsize, hgtype, hgerror, hgclient, -⟩ :=
        nextFrameLoop_data rounds data hopcode htype (hstate ▸ by decide) (by omega) haltered.announces h
      cases fs with
      | nil =>
        refine ⟨g, payload, hread, ?_, fun hharmless => ?_, hgsize, hgtype, hgerror, hgclient⟩
        · rw [List.flatMap_cons, List.flatMap_nil, List.append_nil]
          exact haltered.same_iff
        · exact hrest.trans (haltered.keeps hharmless.not_resizes).2
      | cons f'' fs' =>
        obtain ⟨hkept, hbehind⟩ := haltered.keeps fun hresizes => Bool.false_ne_true (hwhole hresizes)
        rw [hbehind] at hrest
        obtain ⟨g', hread', hrest', hsize', htype', herror', hclient'⟩ :=
          nextFrameLoop_fragments (List.cons_ne_nil f'' fs') (Nat.le_of_succ_le_succ hrounds) (data ++ payload) .cont
            (iff_of_false (hgtype ▸ hstarted) (not_not.mpr rfl)) (hgclient ▸ hstate) (by rw [hgsize]; omega) hrest
        refine ⟨g', payload ++ (f'' :: fs').flatMap Fragment.payload, ?_, ?_, fun _ => hrest', ?_,
          htype'.trans ((if_pos rfl).trans hgtype), herror'.trans hgerror, hclient'.trans hgclient⟩
        · rw [hread, List.isEmpty_cons, if_neg Bool.false_ne_true, hread', List.append_assoc]
        · exact (List.append_left_inj _).trans haltered.same_iff
        · rw [hsize', hgsize, List.length_append, Nat.add_assoc]
    · rw [locate_tail hi] at hloc
      have hle : (masked fs.isEmpty opcode f'.key f'.payload).length ≤ i := hlength.symm ▸ Nat.not_lt.mp hi
      rw [List.getElem?_append_right hle, hlength] at hbyte
      rw [List.set_append_right _ _ hle, hlength, List.append_assoc, masked_append] at h
      obtain ⟨g, hread, hrest, hgsize, hgtype, hgerror, hgclient, -⟩ :=
        nextFrameLoop_data rounds data hopcode htype (hstate ▸ by decide) (by omega) (announces_length (by omega)) h
      obtain ⟨g', payload, hread', hiff, hrest', hsize', htype', herror', hclient'⟩ :=
        ih hloc hbyte (Nat.le_of_succ_le_succ hrounds) (data ++ f'.payload) .cont
          (iff_of_false (hgtype ▸ hstarted) (not_not.mpr rfl)) (hgclient ▸ hstate) (by rw [hgsize]; omega) hrest
      have hmore := isEmpty_of_locate hloc
      refine ⟨g', f'.payload ++ payload, ?_, ?_, hrest', ?_, htype'.trans ((if_pos rfl).trans hgtype),
        herror'.trans hgerror, hclient'.trans hgclient⟩
      · rw [hread, hmore, if_neg Bool.false_ne_true, hread', List.append_assoc]
      · exact (List.append_right_inj _).trans hiff
      · rw [hsize', hgsize, List.length_append, Nat.add_assoc]

theorem nextByte_zeros {k : Nat} {c : Byte} {g : Frame} (h : frame.rest = List.replicate k 0)
    (hok : nextByte frame = .ok (c, g)) : c = 0 ∧ g.rest = List.replicate (k - 1) 0 ∧ frame.Same g := by
  cases k with
  | zero =>
    have hnone : frame.request[frame.curPos]? = none := List.getElem?_eq_none (List.drop_eq_nil_iff.mp h)
    unfold nextByte at hok
    split_ifs at hok <;> dsimp only at hok <;> rw [hnone] at hok <;> cases hok
  | succ k =>
    obtain ⟨g', hbyte, hrest, hsame⟩ := nextByte_spec h
    obtain ⟨rfl, rfl⟩ := Prod.mk.inj (Except.ok.inj (hbyte.symm.trans hok))
    exact ⟨rfl, hrest, hsame⟩

/-- An empty payload among zeros. -/
theorem readFrame_zeros {k size size' : Nat} {message data : Bytes} {g : Frame} (h : frame.rest = List.replicate k 0)
    (hok : readFrame frame message 0 size = .ok (some (data, size'), g)) :
    (∃ k', g.rest = List.replicate k' 0) ∧ frame.Same g := by
  unfold readFrame at hok
  obtain ⟨⟨n, g₀⟩, h₀, hok⟩ := bind_eq_ok.mp hok
  obtain ⟨rfl, rfl⟩ := Prod.mk.inj (Except.ok.inj h₀)
  dsimp only at hok
  split_ifs at hok
  · cases hok
  · obtain ⟨⟨m₀, g₁⟩, h₁, hok⟩ := bind_eq_ok.mp hok
    obtain ⟨⟨m₁, g₂⟩, h₂, hok⟩ := bind_eq_ok.mp hok
    obtain ⟨⟨m₂, g₃⟩, h₃, hok⟩ := bind_eq_ok.mp hok
    obtain ⟨⟨m₃, g₄⟩, h₄, hok⟩ := bind_eq_ok.mp hok
    obtain ⟨⟨copied, g₅⟩, h₅, hok⟩ := bind_eq_ok.mp hok
    obtain ⟨-, hrest₁, hsame₁⟩ := nextByte_zeros h h₁
    obtain ⟨-, hrest₂, hsame₂⟩ := nextByte_zeros hrest₁ h₂
    obtain ⟨-, hrest₃, hsame₃⟩ := nextByte_zeros hrest₂ h₃
    obtain ⟨-, hrest₄, hsame₄⟩ := nextByte_zeros hrest₃ h₄
    obtain ⟨rfl, rfl⟩ := Prod.mk.inj (Except.ok.inj h₅)
    obtain ⟨-, rfl⟩ := Prod.mk.inj (Except.ok.inj hok)
    exact ⟨⟨_, hrest₄⟩, ((hsame₁.trans hsame₂).trans hsame₃).trans hsame₄⟩

/-- A message that is not at its end is not ended by zeros. -/
theorem nextFrameLoop_zeros {k rounds : Nat} {data : Bytes} {r : Int × Frame} (h : frame.rest = List.replicate k 0)
    (htype : frame.type ≠ -1) (hstate : frame.client.state = .openWs) (hok : nextFrameLoop rounds data frame = .ok r) :
    r.1 < 0 := by
  induction rounds generalizing frame data k with
  | zero => cases hok
  | succ rounds ih =>
    rw [nextFrameLoop] at hok
    obtain ⟨⟨c, g₀⟩, h₀, hok⟩ := bind_eq_ok.mp hok
    obtain ⟨rfl, hrest₀, hsame₀⟩ := nextByte_zeros h h₀
    have hplace : ¬ (g₀.type = -1 ∧ (0 : Byte).toNat &&& 0xF = frameCont ∨
        g₀.type ≠ -1 ∧ isControlFrame ((0 : Byte).toNat &&& 0xF) = false ∧ (0 : Byte).toNat &&& 0xF ≠ frameCont) := by
      rw [hsame₀.type]
      rintro (⟨hnone, -⟩ | ⟨-, -, hcont⟩)
      · exact htype hnone
      · exact hcont rfl
    have hopen : ¬ (g₀.client.state = .closing ∧ (0 : Byte).toNat &&& 0xF ≠ frameClose) := by
      rw [hsame₀.client, hstate]
      rintro ⟨hclosing, -⟩
      cases hclosing
    dsimp only at hok
    rw [if_neg (by decide), if_neg hplace, if_pos (by decide), if_neg hopen, if_neg (by decide)] at hok
    obtain ⟨⟨c, g₁⟩, h₁, hok⟩ := bind_eq_ok.mp hok
    obtain ⟨rfl, hrest₁, hsame₁⟩ := nextByte_zeros hrest₀ h₁
    dsimp only at hok
    rw [if_neg (by decide), if_pos (by decide)] at hok
    obtain ⟨⟨payload, g₂⟩, h₂, hok⟩ := bind_eq_ok.mp hok
    cases payload with
    | none =>
      obtain rfl := Except.ok.inj hok
      exact Int.negSucc_lt_zero 0
    | some payload =>
      obtain ⟨⟨k', hrest₂⟩, hsame₂⟩ := readFrame_zeros hrest₁ h₂
      have hsame := (hsame₀.trans hsame₁).trans hsame₂
      have hrest : Frame.rest { g₂ with size := payload.2 } = List.replicate k' 0 := hrest₂
      dsimp only at hok
      rw [if_neg (by decide)] at hok
      exact ih hrest (hsame.type.trans_ne htype) ((congrArg Client.state hsame.client).trans hstate) hok

variable {ms : List Message}

/-- Nor is it by the next messages. -/
theorem nextFrameLoop_astray {k rounds : Nat} {data : Bytes} {r : Int × Frame}
    (h : frame.rest = encodeAll ms ++ List.replicate k 0) (htype : frame.type ≠ -1)
    (hstate : frame.client.state = .openWs) (hok : nextFrameLoop rounds data frame = .ok r) : r.1 < 0 := by
  cases ms with
  | nil => exact nextFrameLoop_zeros h htype hstate hok
  | cons m ms =>
    cases rounds with
    | zero => cases hok
    | succ rounds =>
      have hopcode : m.kind.opcode ≠ 0 := by cases m.kind <;> decide
      rw [encodeAll, List.flatMap_cons, Message.encode, fragments, List.append_assoc, List.append_assoc,
        masked_append] at h
      obtain ⟨g, hfail⟩ := nextFrameLoop_misplaced rounds data (.kind m.kind) (iff_of_false htype hopcode) h
      obtain rfl := Except.ok.inj (hfail.symm.trans hok)
      exact Int.negSucc_lt_zero 0

/-- Without the first byte of a frame its message is not read to an end. -/
theorem nextFrameLoop_headless (hloc : locate (parts fs) i = some (f, last, 0))
    (hbyte : (fragments opcode fs)[i]? ≠ some 0) {rounds : Nat} (hrounds : fs.length ≤ rounds) (data : Bytes)
    (hopcode : DataOpcode opcode) (htype : frame.type = -1 ↔ opcode ≠ 0) (hstate : frame.client.state = .openWs)
    (hsize : frame.size + (fs.flatMap Fragment.payload).length ≤ maxFrameLength) {k : Nat}
    (h : frame.rest = (fragments opcode fs).set i 0 ++ (encodeAll ms ++ List.replicate k 0)) {r : Int × Frame}
    (hok : nextFrameLoop rounds data frame = .ok r) : r.1 < 0 := by
  induction fs generalizing opcode frame rounds data i with
  | nil => cases hloc
  | cons f' fs ih =>
    obtain ⟨rounds, rfl⟩ := Nat.exists_eq_succ_of_ne_zero (Nat.ne_of_gt (Nat.lt_of_lt_of_le (Nat.succ_pos _) hrounds))
    have hmax : maxFrameLength < 2 ^ 64 := by decide
    have hlength := length_masked fs.isEmpty opcode f'
    rw [List.flatMap_cons, List.length_append] at hsize
    rw [fragments] at h hbyte
    have hstarted := type_ne htype
    by_cases hi : i < f'.size
    · rw [locate_head hi] at hloc
      obtain ⟨rfl, hplace⟩ := Prod.mk.inj (Option.some.inj hloc)
      obtain ⟨rfl, rfl⟩ := Prod.mk.inj hplace
      have hzero : frame.rest = firstByte false 0 :: (128 ||| UInt8.ofNat (lengthCode f'.payload.length)) ::
          (lengthRest f'.payload.length ++ List.ofFn f'.key ++ mask f'.key 0 f'.payload ++
            (fragments 0 fs ++ (encodeAll ms ++ List.replicate k 0))) := by
        rw [h, masked_append, List.set_cons_zero]
        simp only [List.cons_append, List.append_assoc]
        rfl
      by_cases hfirst : opcode = 0
      · subst hfirst
        cases fs with
        | nil =>
          obtain ⟨g, hread, hrest, -, hgtype, -, hgclient, -⟩ :=
            nextFrameLoop_data rounds data .cont htype (hstate ▸ by decide) (by omega) (announces_length (by omega)) hzero
          rw [if_neg Bool.false_ne_true] at hread
          exact nextFrameLoop_astray hrest (hgtype ▸ hstarted) (hgclient ▸ hstate) (hread.symm.trans hok)
        | cons =>
          rw [masked_append, List.getElem?_cons_zero, List.isEmpty_cons] at hbyte
          exact (hbyte (by decide)).elim
      · obtain ⟨g, hfail⟩ := nextFrameLoop_misplaced rounds data .cont (iff_of_true (htype.mpr hfirst) rfl) hzero
        obtain rfl := Except.ok.inj (hfail.symm.trans hok)
        exact Int.negSucc_lt_zero 0
    · rw [locate_tail hi] at hloc
      have hle : (masked fs.isEmpty opcode f'.key f'.payload).length ≤ i := hlength.symm ▸ Nat.not_lt.mp hi
      rw [List.getElem?_append_right hle, hlength] at hbyte
      rw [List.set_append_right _ _ hle, hlength, List.append_assoc, masked_append] at h
      obtain ⟨g, hread, hrest, hgsize, hgtype, -, hgclient, -⟩ :=
        nextFrameLoop_data rounds data hopcode htype (hstate ▸ by decide) (by omega) (announces_length (by omega)) h
      have hmore := isEmpty_of_locate hloc
      rw [hmore, if_neg Bool.false_ne_true] at hread
      exact ih hloc hbyte (Nat.le_of_succ_le_succ hrounds) (data ++ f'.payload) .cont
        (iff_of_false (hgtype ▸ hstarted) (not_not.mpr rfl)) (hgclient ▸ hstate) (by rw [hgsize]; omega) hrest
        (hread.symm.trans hok)

variable {m : Message}

theorem nextFrame_altered (hloc : locate (parts (m.first :: m.more)) i = some (f, last, o)) (ho : 1 ≤ o)
    (hwhole : Resizes f o → last = true) (hbyte : m.encode[i]? ≠ some 0) (hstate : frame.client.state = .openWs)
    (hsize : m.payload.length ≤ maxFrameLength) (h : frame.rest = m.encode.set i 0 ++ cs) :
    ∃ g, nextFrame frame = .ok (0, g) ∧ (g.message = m.payload ↔ Harmless f o) ∧ (Harmless f o → g.rest = cs) ∧
      g.size = g.message.length ∧ g.type = m.kind.opcode.toNat ∧ g.error = frame.error ∧ g.client = frame.client := by
  have hstart : frame.start.rest = (fragments m.kind.opcode (m.first :: m.more)).set i 0 ++ cs := h
  have htype : frame.start.type = -1 ↔ m.kind.opcode ≠ 0 := iff_of_true rfl (opcode_ne_zero m.kind)
  obtain ⟨g, payload, hread, hiff, hrest, hgsize, hgtype, hgerror, hgclient⟩ :=
    nextFrameLoop_altered hloc ho hwhole hbyte (length_fragments_le h List.length_set) [] (.kind m.kind) htype hstate
      (start_size hsize) hstart
  rw [if_neg (opcode_ne_zero m.kind)] at hgtype
  exact ⟨_, hread, hiff, hrest, hgsize.trans (Nat.zero_add _), hgtype, hgerror, hgclient⟩

theorem nextFrame_headless (hloc : locate (parts (m.first :: m.more)) i = some (f, last, 0))
    (hbyte : m.encode[i]? ≠ some 0) (hstate : frame.client.state = .openWs)
    (hsize : m.payload.length ≤ maxFrameLength) {k : Nat}
    (h : frame.rest = m.encode.set i 0 ++ (encodeAll ms ++ List.replicate k 0)) {r : Int × Frame}
    (hok : nextFrame frame = .ok r) : r.1 < 0 := by
  have hstart : frame.start.rest =
      (fragments m.kind.opcode (m.first :: m.more)).set i 0 ++ (encodeAll ms ++ List.replicate k 0) := h
  have htype : frame.start.type = -1 ↔ m.kind.opcode ≠ 0 := iff_of_true rfl (opcode_ne_zero m.kind)
  exact nextFrameLoop_headless hloc hbyte (length_fragments_le h List.length_set) [] (.kind m.kind) htype hstate
    (start_size hsize) hstart hok

/-- The fragments of messages, the last one of each marked. -/
def layout (ms : List Message) : List (Fragment × Bool) := ms.flatMap fun m => parts (m.first :: m.more)

theorem locate_layout (m : Message) (ms : List Message) (i : Nat) :
    locate (layout (m :: ms)) i =
      if i < m.encode.length then locate (parts (m.first :: m.more)) i else locate (layout ms) (i - m.encode.length) :=
  locate_append (length_fragments m.kind.opcode (m.first :: m.more)) (layout ms) i

/-- The messages are all delivered if the byte is harmless, and not all of them otherwise. -/
theorem recvLoop_altered (hloc : locate (layout ms) i = some (f, last, o)) (hwhole : Resizes f o → last = true)
    (hbyte : (encodeAll ms)[i]? ≠ some 0) {rounds : Nat} (hrounds : ms.length < rounds)
    (hstate : frame.client.state = .openWs) (herror : frame.error = false)
    (hsize : ∀ m ∈ ms, m.payload.length ≤ maxFrameLength) {k : Nat}
    (h : frame.rest = (encodeAll ms).set i 0 ++ List.replicate (k + 1) 0) :
    (∃ client, recvLoop rounds frame = .ok (ms.map delivery, client)) ↔ Harmless f o := by
  induction ms generalizing frame rounds i with
  | nil => cases hloc
  | cons m ms ih =>
    obtain ⟨rounds, rfl⟩ := Nat.exists_eq_succ_of_ne_zero (Nat.ne_of_gt (Nat.zero_lt_of_lt hrounds))
    have hmore : ms.length < rounds := Nat.lt_of_succ_lt_succ hrounds
    have hsizes : ∀ m' ∈ ms, m'.payload.length ≤ maxFrameLength := fun m' hm' => hsize m' (List.mem_cons_of_mem m hm')
    have hencode : encodeAll (m :: ms) = m.encode ++ encodeAll ms := List.flatMap_cons
    rw [hencode] at h hbyte
    rw [locate_layout] at hloc
    split_ifs at hloc with hi
    · rw [List.getElem?_append_left hi] at hbyte
      rw [List.set_append_left _ _ hi, List.append_assoc] at h
      rcases Nat.eq_zero_or_pos o with rfl | ho
      · have hharmful : ¬ Harmless f 0 := by
          have hhead : 2 ≤ f.headLength := Nat.le_add_right 2 _
          unfold Harmless
          omega
        refine iff_of_false ?_ hharmful
        rintro ⟨client, hrecv⟩
        rw [recvLoop] at hrecv
        obtain ⟨r, hnext, hrecv⟩ := bind_eq_ok.mp hrecv
        dsimp only at hrecv
        rw [if_pos (.inl (nextFrame_headless hloc hbyte hstate (hsize m List.mem_cons_self) h hnext))] at hrecv
        cases hrecv
      · obtain ⟨g, hnext, hiff, hrest, hgsize, hgtype, hgerror, hgclient⟩ :=
          nextFrame_altered hloc ho hwhole hbyte hstate (hsize m List.mem_cons_self) h
        have hgstate : g.client.state = .openWs := hgclient ▸ hstate
        rw [List.map_cons, recvLoop_deliver hnext hgstate hgtype (hgerror.trans herror)]
        constructor
        · rintro ⟨hdelivery, -⟩
          exact hiff.mp (congrArg Delivery.message hdelivery)
        · intro hharmless
          have hmessage := hiff.mpr hharmless
          have hcleared : g.clear.rest = encodeAll ms ++ 0 :: List.replicate k 0 := hrest hharmless
          refine ⟨?_, recvLoop_messages hmore hgstate (hgerror.trans herror) hsizes hcleared⟩
          rw [hgsize, hgtype, hmessage]
          rfl
    · have hle : m.encode.length ≤ i := Nat.not_lt.mp hi
      rw [List.getElem?_append_right hle] at hbyte
      rw [List.set_append_right _ _ hle, List.append_assoc] at h
      obtain ⟨g, hnext, hrest, hmessage, hgsize, hgtype, hgerror, hgclient⟩ :=
        nextFrame_message hstate (hsize m List.mem_cons_self) h
      have hgstate : g.client.state = .openWs := hgclient ▸ hstate
      have hcleared : g.clear.rest = (encodeAll ms).set (i - m.encode.length) 0 ++ List.replicate (k + 1) 0 := hrest
      rw [List.map_cons, recvLoop_deliver hnext hgstate hgtype (hgerror.trans herror)]
      refine (and_iff_right ?_).trans (ih hloc hbyte hmore hgstate (hgerror.trans herror) hsizes hcleared)
      rw [hgsize, hgtype, hmessage]
      rfl

variable {client : Client}

/-- The messages, each once and in order, with their payloads, sizes and types. -/
def Delivers (client : Client) (ms : List Message) : Prop :=
  ∃ client', recvWebsocket client = .ok (ms.map delivery, client')

/-- A client whose buffer holds the bytes of messages. -/
structure Holding (client : Client) (ms : List Message) : Prop where
  state : client.state = .openWs
  request : client.request = encodeAll ms
  fits : client.request.length ≤ maxRequestSize

/-- The copy of the buffer has the bytes, one of them replaced, and zeros behind them. -/
theorem Holding.copy (h : Holding client ms) :
    ∃ k, copyRequest client = (encodeAll ms).set wsPacket 0 ++ List.replicate (k + 1) 0 := by
  have hfits := h.fits
  obtain ⟨n, hn⟩ := Nat.exists_eq_add_of_le hfits
  have hzeros : maxRequestSize + 1 - client.request.length = n + 1 := by omega
  refine ⟨n, ?_⟩
  unfold copyRequest
  rw [hzeros, h.request]
  by_cases hshort : wsPacket < (encodeAll ms).length
  · exact List.set_append_left _ _ hshort
  · rw [List.set_append_right _ _ (Nat.not_lt.mp hshort), List.set_eq_of_length_le (Nat.not_lt.mp hshort),
      List.set_replicate_self]

/-- The byte at `wsPacket` is behind the data, or it is zero, or it does not matter. -/
def Spared (ms : List Message) : Prop :=
  (encodeAll ms)[wsPacket]? = none ∨ (encodeAll ms)[wsPacket]? = some 0 ∨
    ∃ f last o, locate (layout ms) wsPacket = some (f, last, o) ∧ Harmless f o

/-- The byte at `wsPacket` is one of the length of a payload that its message goes on behind. -/
def Reframed (ms : List Message) : Prop :=
  ∃ f o, locate (layout ms) wsPacket = some (f, false, o) ∧ Resizes f o

theorem locate_of_lt {ms : List Message} {i : Nat} (hi : i < (encodeAll ms).length) :
    ∃ f last o, locate (layout ms) i = some (f, last, o) := by
  induction ms generalizing i with
  | nil => exact absurd hi (Nat.not_lt_zero i)
  | cons m ms ih =>
    have hencode : encodeAll (m :: ms) = m.encode ++ encodeAll ms := List.flatMap_cons
    rw [hencode, List.length_append] at hi
    rw [locate_layout]
    split_ifs with hm
    · exact exists_locate hm
    · exact ih (by omega)

/-- What is delivered, in terms of the loop. -/
theorem Holding.delivers_iff (h : Holding client ms) :
    ∃ (frame : Frame) (k rounds : Nat), frame.rest = (encodeAll ms).set wsPacket 0 ++ List.replicate (k + 1) 0 ∧
      frame.client.state = .openWs ∧ frame.error = false ∧ ms.length < rounds ∧
      (Delivers client ms ↔ ∃ client', recvLoop rounds frame = .ok (ms.map delivery, client')) := by
  obtain ⟨k, hcopy⟩ := h.copy
  have hcount := length_le_encodeAll ms
  refine ⟨{ request := copyRequest client, received := client.received, client := client }, k, _, hcopy, h.state, rfl,
    ?_, Iff.rfl⟩
  rw [hcopy, List.length_append, List.length_set]
  omega

/-- The messages in the buffer are delivered if the byte that `recv_websocket` overwrites does not
matter; and only then, unless it is one of the length of a payload within a message. -/
theorem recv_delivers (h : Holding client ms) :
    (Spared ms → Delivers client ms) ∧ (¬ Reframed ms → Delivers client ms → Spared ms) := by
  obtain ⟨frame, k, rounds, hrest, hstate, herror, hrounds, hdelivers⟩ := h.delivers_iff
  have hsizes : ∀ m ∈ ms, m.payload.length ≤ maxFrameLength := by
    intro m hm
    have hmax : maxRequestSize ≤ maxFrameLength := by decide
    have hpart := payload_le_encodeAll hm
    have hfits := h.fits
    rw [h.request] at hfits
    omega
  rw [hdelivers]
  by_cases hsame : (encodeAll ms).set wsPacket 0 = encodeAll ms
  · rw [hsame] at hrest
    have hall := recvLoop_messages hrounds hstate herror hsizes hrest
    refine ⟨fun _ => hall, fun _ _ => ?_⟩
    rcases Nat.lt_or_ge wsPacket (encodeAll ms).length with hlt | hge
    · have hget := List.getElem?_set_self (l := encodeAll ms) (a := (0 : Byte)) hlt
      rw [hsame] at hget
      exact .inr (.inl hget)
    · exact .inl (List.getElem?_eq_none hge)
  have hlt : wsPacket < (encodeAll ms).length := by
    by_contra hge
    exact hsame (List.set_eq_of_length_le (Nat.not_lt.mp hge))
  have hbyte : (encodeAll ms)[wsPacket]? ≠ some 0 := by
    intro hzero
    rw [List.getElem?_eq_getElem hlt] at hzero
    have hget := Option.some.inj hzero
    rw [← hget] at hsame
    exact hsame (List.set_getElem_self hlt)
  obtain ⟨f, last, o, hloc⟩ := locate_of_lt hlt
  constructor
  · rintro (hnone | hzero | ⟨f', last', o', hloc', hharmless⟩)
    · exact absurd (List.getElem?_eq_none_iff.mp hnone) (Nat.not_le.mpr hlt)
    · exact absurd hzero hbyte
    · have hwhole : Resizes f' o' → last' = true := fun hresizes => absurd hresizes hharmless.not_resizes
      exact (recvLoop_altered hloc' hwhole hbyte hrounds hstate herror hsizes hrest).mpr hharmless
  · intro hframed hrecv
    have hwhole : Resizes f o → last = true := by
      intro hresizes
      by_contra hearlier
      obtain rfl := Bool.eq_false_iff.mpr hearlier
      exact hframed ⟨f, o, hloc, hresizes⟩
    exact .inr (.inr ⟨f, last, o, hloc, (recvLoop_altered hloc hwhole hbyte hrounds hstate herror hsizes hrest).mp hrecv⟩)

/-- A short text in two fragments. -/
theorem recv_delivers_hello :
    ∃ (client : Client) (m : Message), Holding client [m] ∧ m.payload = lit "Hello" ∧ Delivers client [m] := by
  let m : Message := ⟨.text, ⟨![0x37, 0xfa, 0x21, 0x3d], lit "Hel"⟩, [⟨![1, 2, 3, 4], lit "lo"⟩]⟩
  have hholding : Holding { request := encodeAll [m] } [m] := ⟨rfl, rfl, by decide⟩
  have hbyte : (encodeAll [m])[wsPacket]? = none := by decide
  exact ⟨_, m, hholding, by decide, (recv_delivers hholding).1 (.inl hbyte)⟩

/-- A text in one frame, under a key of zeros. -/
def textMessage (payload : Bytes) : Message := ⟨.text, ⟨fun _ => 0, payload⟩, []⟩

theorem encodeAll_textMessage (payload : Bytes) :
    encodeAll [textMessage payload] = masked true 1 (fun _ => 0) payload := by
  have hencode : encodeAll [textMessage payload] = masked true 1 (fun _ => 0) payload ++ [] ++ [] := rfl
  rw [hencode, List.append_nil, List.append_nil]

/-- A text of one packet arrives with a byte replaced. -/
theorem recv_alters : ∃ (client : Client) (m : Message), Holding client [m] ∧ ¬ Delivers client [m] := by
  obtain ⟨payload, hlength, hget⟩ : ∃ payload : Bytes, payload.length = 4096 ∧ payload[4088]? = some 97 :=
    ⟨List.replicate 4096 97, List.length_replicate, List.getElem?_replicate_of_lt (by omega)⟩
  let f : Fragment := ⟨fun _ => 0, payload⟩
  have hrest : (lengthRest f.payload.length).length = 2 := by
    have hlong : f.payload.length = 4096 := hlength
    rw [hlong]
    rfl
  have hhead : f.headLength = 4 := congrArg (2 + ·) hrest
  have hsize : f.size = 4104 := by
    have hlong : f.payload.length = 4096 := hlength
    unfold Fragment.size
    omega
  have hfits : (encodeAll [textMessage payload]).length ≤ maxRequestSize := by
    rw [encodeAll_textMessage, length_masked true 1 f, hsize]
    decide
  have hbyte : (encodeAll [textMessage payload])[wsPacket]? = some 97 := by
    have hplace : wsPacket = (lengthRest f.payload.length).length + ((List.ofFn f.key).length + 4088) + 1 + 1 := by
      rw [hrest, List.length_ofFn]
      rfl
    rw [encodeAll_textMessage, masked_eq true 1 f, hplace, List.getElem?_cons_succ, List.getElem?_cons_succ,
      List.getElem?_append_right (Nat.le_add_right _ _), Nat.add_sub_cancel_left,
      List.getElem?_append_right (Nat.le_add_right _ _), Nat.add_sub_cancel_left, getElem?_mask, hget]
    exact congrArg some UInt8.xor_zero
  have hinside : wsPacket < f.size := by
    rw [hsize]
    decide
  have hlocate : locate (layout [textMessage payload]) wsPacket = some (f, true, wsPacket) := if_pos hinside
  have hholding : Holding { request := encodeAll [textMessage payload] } [textMessage payload] := ⟨rfl, rfl, hfits⟩
  refine ⟨_, textMessage payload, hholding, fun hdelivers => ?_⟩
  have hframed : ¬ Reframed [textMessage payload] := by
    rintro ⟨f', o, hlocate', -⟩
    cases hlocate.symm.trans hlocate'
  rcases (recv_delivers hholding).2 hframed hdelivers with hnone | hzero | ⟨f', last, o, hlocate', hharmless⟩
  · cases hbyte.symm.trans hnone
  · exact absurd (hbyte.symm.trans hzero) (by decide)
  · obtain ⟨rfl, hplace⟩ := Prod.mk.inj (Option.some.inj (hlocate.symm.trans hlocate'))
    obtain ⟨-, rfl⟩ := Prod.mk.inj hplace
    have hpacket : wsPacket = 4096 := rfl
    rcases hharmless with ⟨hone, -⟩ | ⟨-, hlt, -⟩ <;> omega

end Jericho.WebSocket
