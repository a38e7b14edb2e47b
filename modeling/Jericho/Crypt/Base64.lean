import Jericho.Library.Base64

/-! The URL-safe base64 wrappers around OpenSSL's base64 filter. -/
namespace Jericho.Crypt
open StdText

/-- OpenSSL's base64 filter: what a write produces, and what a read gives (`none` where
`BIO_read` reports an error). -/
structure Base64Filter where
  write : Bytes → Bytes
  read : Bytes → Option Bytes

/-- The filter is standard base64. -/
structure Base64Filter.Standard (bio : Base64Filter) : Prop where
  write_eq : ∀ s, bio.write s = Base64.encode s
  read_write : ∀ s, bio.read (bio.write s) = some s

def Base64Filter.reference : Base64Filter := ⟨Base64.encode, Base64.decode⟩

theorem Base64Filter.reference_standard : Base64Filter.reference.Standard :=
  ⟨fun _ => rfl, Base64.decode_encode⟩

variable (bio : Base64Filter)

/-- `_to_url` -/
def toUrl (output : Bytes) : Bytes :=
  (output.map (fun c => if c = 43 then 45 else if c = 47 then 95 else c)).filter (· ≠ 61)

/-- `_from_url`. The replacement character is chosen by the position, not by what is there. -/
def fromUrl (output : Bytes) : Bytes :=
  let plain := output.mapIdx (fun pos c =>
    if c = 45 ∨ c = 95 then (if pos = 45 then (43 : Byte) else 47) else c)
  if plain.length % 4 ≠ 0 then plain ++ List.replicate (4 - plain.length % 4) 61 else plain

def encode (input : Bytes) : Bytes := bio.write input

/-- A failed read resizes the output to a negative length. -/
def decode (input : Bytes) : Exec Bytes :=
  match bio.read input with
  | some output => .ok output
  | none => .error .lengthError

def encodeUrl (input : Bytes) : Bytes := toUrl (encode bio input)

def decodeUrl (input : Bytes) : Exec Bytes := decode bio (fromUrl input)

/-- `size_num`: the padded length of an encoding. -/
def sizeNum (n : Nat) : Nat := (n + 2) / 3 * 4

private theorem urlChar_all : ∀ n : Fin 64,
    let c := if Base64.symbol n = 43 then 45 else if Base64.symbol n = 47 then 95 else Base64.symbol n
    c ≠ 61 ∧ c ≠ 0 ∧ c ≠ 10 ∧ c ≠ 13 ∧ c ≠ 37 := by
  decide

variable {bio}

/-- The URL alphabet holds no NUL, line break, percent sign or padding. -/
theorem mem_encodeUrl (hb : bio.Standard) {s : Bytes} {c : Byte} (h : c ∈ encodeUrl bio s) :
    c ≠ 0 ∧ c ≠ 10 ∧ c ≠ 13 ∧ c ≠ 37 := by
  unfold encodeUrl toUrl encode at h
  rw [hb.write_eq] at h
  obtain ⟨hm, hpad⟩ := List.mem_filter.mp h
  obtain ⟨a, ha, rfl⟩ := List.mem_map.mp hm
  rcases Base64.mem_encode ha with rfl | ⟨n, hn, rfl⟩
  · simp [Base64.pad] at hpad
  · exact (urlChar_all ⟨n, hn⟩).2

private theorem urlChar_dot_all : ∀ n : Fin 64,
    (if Base64.symbol n = 43 then 45 else if Base64.symbol n = 47 then 95 else Base64.symbol n) ≠ (46 : Byte) := by
  decide

/-- An encoding goes into a token as one piece. -/
theorem dot_notMem_encodeUrl (hb : bio.Standard) (s : Bytes) : (46 : Byte) ∉ encodeUrl bio s := by
  unfold encodeUrl toUrl encode
  rw [hb.write_eq]
  intro h
  obtain ⟨a, ha, hdot⟩ := List.mem_map.mp (List.mem_filter.mp h).1
  rcases Base64.mem_encode ha with rfl | ⟨n, hn, rfl⟩
  · exact absurd hdot (by decide)
  · exact urlChar_dot_all ⟨n, hn⟩ hdot

/-- The wire form is at least a third longer than the text. -/
theorem length_encodeUrl (hb : bio.Standard) (s : Bytes) :
    4 * s.length ≤ 3 * (encodeUrl bio s).length := by
  have hlen := Base64.length_unpadded s
  unfold encodeUrl toUrl encode
  rw [hb.write_eq, List.filter_map, List.length_map]
  have hcongr : (Base64.encode s).filter ((· ≠ (61 : Byte)) ∘
      fun c => if c = 43 then 45 else if c = 47 then 95 else c) =
      (Base64.encode s).filter (· ≠ Base64.pad) := by
    apply List.filter_congr
    intro c hc
    rcases Base64.mem_encode hc with rfl | ⟨n, hn, rfl⟩
    · decide
    · have hsym := Base64.symbol_ne_pad hn
      have hurl := (urlChar_all ⟨n, hn⟩).1
      simp only [Function.comp_apply, hsym, ne_eq, not_false_eq_true, decide_true]
      simpa using hurl
  simp only [Function.comp_def] at hcongr ⊢
  rw [hcongr]
  exact hlen

theorem encodeUrl_eq_nil_iff (hb : bio.Standard) {s : Bytes} : encodeUrl bio s = [] ↔ s = [] := by
  constructor
  · intro h
    have hlen := length_encodeUrl hb s
    rw [h] at hlen
    exact List.length_eq_zero_iff.mp (by simpa using hlen)
  · rintro rfl
    simp [encodeUrl, encode, hb.write_eq, Base64.encode, toUrl]

/-- A character of an encoding at its position, after `_to_url` and `_from_url`. -/
def restored (pos : Nat) (c : Byte) : Byte := if c = 43 ∨ c = 47 then (if pos = 45 then 43 else 47) else c

private theorem symbol_plain_all : ∀ n : Fin 62, Base64.symbol n ≠ 43 ∧ Base64.symbol n ≠ 47 := by
  decide

private theorem symbol_url_all : ∀ n : Fin 64, Base64.symbol n ≠ 45 ∧ Base64.symbol n ≠ 95 := by
  decide

private theorem url_restored (pos : Nat) {c : Byte} (hminus : c ≠ 45) (hunder : c ≠ 95) :
    (fun d : Byte => if d = 45 ∨ d = 95 then (if pos = 45 then (43 : Byte) else 47) else d)
      (if c = 43 then 45 else if c = 47 then 95 else c) = restored pos c := by
  unfold restored
  by_cases hplus : c = 43
  · simp [hplus]
  · by_cases hslash : c = 47
    · simp [hslash]
    · simp [hplus, hslash, hminus, hunder]

theorem exchanges_restored : Base64.Exchanges restored where
  low i n hn := by
    obtain ⟨hplus, hslash⟩ := symbol_plain_all ⟨n, hn⟩
    exact if_neg (not_or.mpr ⟨hplus, hslash⟩)
  high i n hlow hhigh := by
    have hsymbol : Base64.symbol n = 43 ∨ Base64.symbol n = 47 := by
      obtain rfl | rfl : n = 62 ∨ n = 63 := by omega
      · exact .inl rfl
      · exact .inr rfl
    rw [restored, if_pos hsymbol]
    split
    · exact ⟨62, le_rfl, by omega, rfl⟩
    · exact ⟨63, by omega, by omega, rfl⟩
  pad _ := rfl

/-- What `decode_url` hands to the decoder: the padding is back, and the characters are restored
by position. -/
theorem fromUrl_encodeUrl (hb : bio.Standard) (s : Bytes) :
    fromUrl (encodeUrl bio s) = (Base64.encode s).mapIdx restored := by
  obtain ⟨ns, k, heq, hns, hk, hlen⟩ := Base64.encode_eq_append s
  have hsymbols : toUrl (Base64.encode s) =
      (ns.map Base64.symbol).map fun c => if c = 43 then 45 else if c = 47 then 95 else c := by
    rw [toUrl, heq, List.map_append, List.filter_append, List.map_replicate,
      List.filter_eq_self.mpr, List.filter_eq_nil_iff.mpr, List.append_nil]
    · intro c hc
      obtain rfl := List.eq_of_mem_replicate hc
      decide
    · intro c hc
      obtain ⟨d, hd, rfl⟩ := List.mem_map.mp hc
      obtain ⟨n, hn, rfl⟩ := List.mem_map.mp hd
      simpa using (urlChar_all ⟨n, hns n hn⟩).1
  have hplain : ((ns.map Base64.symbol).map fun c => if c = 43 then 45 else if c = 47 then 95 else c).mapIdx
      (fun pos c => if c = 45 ∨ c = 95 then (if pos = 45 then (43 : Byte) else 47) else c) =
      (ns.map Base64.symbol).mapIdx restored := by
    refine List.ext_getElem? fun i => ?_
    simp only [List.getElem?_mapIdx, List.getElem?_map]
    cases hi : ns[i]? with
    | none => rfl
    | some n =>
      obtain ⟨hminus, hunder⟩ := symbol_url_all ⟨n, hns n (List.mem_of_getElem? hi)⟩
      exact congrArg some (url_restored i hminus hunder)
  have hpad : (List.replicate k Base64.pad).mapIdx (fun i => restored (i + (ns.map Base64.symbol).length)) =
      List.replicate k 61 := by
    rw [List.mapIdx_eq_iff]
    intro i
    rw [List.getElem?_replicate, List.getElem?_replicate]
    split <;> rfl
  unfold fromUrl encodeUrl encode
  rw [hb.write_eq, hsymbols, hplain, heq, List.mapIdx_append, hpad]
  dsimp only
  rw [List.length_mapIdx, List.length_map]
  by_cases hfull : ns.length % 4 = 0
  · obtain rfl : k = 0 := by omega
    rw [if_neg (not_not.mpr hfull), List.replicate_zero, List.append_nil]
  · obtain rfl : k = 4 - ns.length % 4 := by omega
    rw [if_pos hfull]

/-- The encoding has `+` at no index but 45, and no `/` there. -/
def Restorable (s : Bytes) : Prop :=
  ∀ p ∈ (Base64.encode s).zipIdx, (p.1 = 43 → p.2 = 45) ∧ (p.1 = 47 → p.2 ≠ 45)

instance (s : Bytes) : Decidable (Restorable s) := List.decidableBAll _ _

theorem restored_eq_iff (pos : Nat) (c : Byte) : restored pos c = c ↔ (c = 43 → pos = 45) ∧ (c = 47 → pos ≠ 45) := by
  unfold restored
  by_cases hplus : c = 43
  · subst hplus
    by_cases hpos : pos = 45 <;> simp [hpos]
  · by_cases hslash : c = 47
    · subst hslash
      by_cases hpos : pos = 45 <;> simp [hpos]
    · simp [hplus, hslash]

/-- Whatever was encoded, something is decoded. -/
theorem decodeUrl_encodeUrl (hb : bio.Standard) (s : Bytes) :
    ∃ s', decodeUrl bio (encodeUrl bio s) = .ok s' ∧ Base64.encode s' = (Base64.encode s).mapIdx restored := by
  obtain ⟨s', hs'⟩ := exchanges_restored.encode s
  refine ⟨s', ?_, hs'⟩
  rw [decodeUrl, fromUrl_encodeUrl hb, decode, ← hs', ← hb.write_eq, hb.read_write]

/-- URL-safe base64 round trip. `_from_url` picks the character by the position it found, so the
text comes back exactly when its encoding is restorable. -/
theorem url_round_trip_iff (hb : bio.Standard) (s : Bytes) :
    decodeUrl bio (encodeUrl bio s) = .ok s ↔ Restorable s := by
  obtain ⟨s', hdecode, hs'⟩ := decodeUrl_encodeUrl hb s
  have hsame : (Base64.encode s).mapIdx restored = Base64.encode s ↔ Restorable s := by
    rw [List.mapIdx_eq_iff]
    constructor
    · intro h p hp
      have hi := h p.2
      rw [List.mem_zipIdx_iff_getElem?.mp hp] at hi
      exact (restored_eq_iff p.2 p.1).mp (Option.some.inj hi).symm
    · intro h i
      cases hi : (Base64.encode s)[i]? with
      | none => rfl
      | some c =>
        have hmem : (c, i) ∈ (Base64.encode s).zipIdx := List.mem_zipIdx_iff_getElem?.mpr hi
        exact congrArg some ((restored_eq_iff i c).mpr (h _ hmem)).symm
  rw [hdecode, ← hsame, ← hs', Base64.encode_injective.eq_iff, Except.ok.injEq]

/-- Without `+` and `/` the text comes back. -/
theorem url_round_trip_hello :
    decodeUrl Base64Filter.reference (encodeUrl Base64Filter.reference (lit "helloworld")) = .ok (lit "helloworld") :=
  (url_round_trip_iff Base64Filter.reference_standard _).mpr (by decide)

/-- One byte whose encoding starts with `+`. -/
theorem url_round_trip_plus :
    decodeUrl Base64Filter.reference (encodeUrl Base64Filter.reference [248]) = .ok [252] ∧
    decodeUrl Base64Filter.reference (encodeUrl Base64Filter.reference [248]) ≠ .ok [248] := by
  decide

end Jericho.Crypt
