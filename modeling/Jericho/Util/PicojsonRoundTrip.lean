import Jericho.Util.Picojson

/-! What picojson writes it reads back, as far as its depth limit goes. -/
namespace Jericho.Util.Picojson
open StdText JsonTree

variable {i : Input} {c : Byte} {cs t : Bytes}

namespace Input

theorem getc_cons (h : i.ahead = c :: t) :
    ∃ i', i.getc = (some c, i') ∧ i'.ahead = t ∧ i'.ungetc.ahead = c :: t := by
  unfold getc
  rw [h]
  exact ⟨_, rfl, rfl, rfl⟩

theorem getc_nil (h : i.ahead = []) : ∃ i', i.getc = (none, i') ∧ i'.ungetc.ahead = [] := by
  unfold getc
  rw [h]
  exact ⟨_, rfl, rfl⟩

/-- What is ahead does not start with a blank. -/
def Solid (t : Bytes) : Prop := ∀ c ∈ t.head?, blank c = false

theorem solid_cons (h : blank c = false) : Solid (c :: t) := by
  intro x hx
  obtain rfl := Option.some.inj hx
  exact h

theorem skipLoop_spec {ws : Bytes} (hws : ∀ c ∈ ws, blank c = true) (ht : Solid t) {rounds : Nat}
    (hrounds : ws.length < rounds) (h : i.ahead = ws ++ t) : (skipLoop rounds i).ahead = t := by
  induction ws generalizing i rounds with
  | nil =>
    obtain ⟨rounds, rfl⟩ : ∃ r, rounds = r + 1 := ⟨rounds - 1, by simp at hrounds; omega⟩
    unfold skipLoop
    cases t with
    | nil =>
      obtain ⟨i', hi', hback⟩ := getc_nil h
      rw [hi']
      exact hback
    | cons c t =>
      obtain ⟨i', hi', -, hback⟩ := getc_cons h
      rw [hi']
      dsimp only
      rw [ht c rfl]
      exact hback
  | cons w ws ih =>
    obtain ⟨rounds, rfl⟩ : ∃ r, rounds = r + 1 := ⟨rounds - 1, by simp at hrounds; omega⟩
    obtain ⟨hw, hws⟩ := List.forall_mem_cons.mp hws
    obtain ⟨i', hi', hahead, -⟩ := getc_cons h
    unfold skipLoop
    rw [hi']
    dsimp only
    rw [if_pos hw]
    exact ih hws (by simpa using hrounds) hahead

theorem skipWs_spec {ws : Bytes} (hws : ∀ c ∈ ws, blank c = true) (ht : Solid t) (h : i.ahead = ws ++ t) :
    i.skipWs.ahead = t := by
  refine skipLoop_spec hws ht ?_ h
  rw [h, List.length_append]
  omega

theorem expect_hit {ws : Bytes} (hws : ∀ c ∈ ws, blank c = true) (hc : blank c = false) (h : i.ahead = ws ++ c :: t) :
    ∃ i', i.expect c = (true, i') ∧ i'.ahead = t := by
  obtain ⟨i', hi', hahead, -⟩ := getc_cons (skipWs_spec hws (solid_cons hc) h)
  unfold expect
  rw [hi']
  dsimp only
  rw [if_pos rfl]
  exact ⟨i', rfl, hahead⟩

theorem expect_miss {ws : Bytes} (hws : ∀ c ∈ ws, blank c = true) (hc : blank c = false) (h : i.ahead = ws ++ c :: t)
    {e : Byte} (hne : c ≠ e) : ∃ i', i.expect e = (false, i') ∧ i'.ahead = c :: t := by
  obtain ⟨i', hi', -, hback⟩ := getc_cons (skipWs_spec hws (solid_cons hc) h)
  unfold expect
  rw [hi']
  dsimp only
  rw [if_neg hne]
  exact ⟨_, rfl, hback⟩

theorem matchText_spec {pattern : Bytes} (h : i.ahead = pattern ++ t) :
    ∃ i', i.matchText pattern = (true, i') ∧ i'.ahead = t := by
  induction pattern generalizing i with
  | nil => exact ⟨i, rfl, h⟩
  | cons p pattern ih =>
    obtain ⟨i', hi', hahead, -⟩ := getc_cons h
    unfold matchText
    rw [hi']
    dsimp only
    rw [if_pos rfl]
    exact ih hahead

end Input

open Input

theorem parseNumber_spec (hcs : ∀ c ∈ cs, numberChar c = true) (ht : ∀ c ∈ t.head?, numberChar c = false) {rounds : Nat}
    (hrounds : cs.length < rounds) (numStr : Bytes) (h : i.ahead = cs ++ t) :
    ∃ i', parseNumber rounds numStr i = (numStr ++ cs, i') ∧ i'.ahead = t := by
  induction cs generalizing i rounds numStr with
  | nil =>
    obtain ⟨rounds, rfl⟩ : ∃ r, rounds = r + 1 := ⟨rounds - 1, by simp at hrounds; omega⟩
    rw [List.append_nil]
    unfold parseNumber
    cases t with
    | nil =>
      obtain ⟨i', hi', hback⟩ := getc_nil h
      rw [hi']
      exact ⟨_, rfl, hback⟩
    | cons c t =>
      obtain ⟨i', hi', -, hback⟩ := getc_cons h
      rw [hi']
      dsimp only
      rw [ht c rfl]
      exact ⟨_, rfl, hback⟩
  | cons c cs ih =>
    obtain ⟨rounds, rfl⟩ : ∃ r, rounds = r + 1 := ⟨rounds - 1, by simp at hrounds; omega⟩
    obtain ⟨hc, hcs⟩ := List.forall_mem_cons.mp hcs
    obtain ⟨i', hi', hahead, -⟩ := getc_cons h
    unfold parseNumber
    rw [hi']
    dsimp only
    rw [if_pos hc, List.append_cons numStr c cs]
    exact ih hcs (by simpa using hrounds) (numStr ++ [c]) hahead

theorem hexValue_digit : ∀ n : Fin 16,
    hexValue (if n.val < 10 then UInt8.ofNat (48 + n) else UInt8.ofNat (87 + n)) = some n.val := by
  decide

/-- How a character of a string is spelled. -/
inductive Spelled (c : Byte) : Bytes → Prop
  | plain (hcontrol : ¬ c < 32) (hquote : c ≠ 34) (hslash : c ≠ 92) : Spelled c [c]
  | letter {e : Byte} (h : unescape e = some c) : Spelled c [92, e]
  | hex {x y : Byte} (hc : c.toNat < 128) (hx : hexValue x = some (c.toNat / 16)) (hy : hexValue y = some (c.toNat % 16)) :
    Spelled c [92, 117, 48, 48, x, y]

theorem spelled_serializeChar (c : Byte) : Spelled c (serializeChar c) := by
  unfold serializeChar
  split_ifs with hself hb hf hn hr ht hcontrol
  · exact .letter (if_pos hself)
  · exact .letter (by rw [hb]; rfl)
  · exact .letter (by rw [hf]; rfl)
  · exact .letter (by rw [hn]; rfl)
  · exact .letter (by rw [hr]; rfl)
  · exact .letter (by rw [ht]; rfl)
  · have hlow : c.toNat < 128 := by
      rcases hcontrol with h | h
      · have h' : c.toNat < 32 := UInt8.lt_iff_toNat_lt.mp h
        omega
      · rw [h]
        decide
    exact .hex hlow (hexValue_digit ⟨c.toNat / 16, by omega⟩) (hexValue_digit ⟨c.toNat % 16, by omega⟩)
  · push Not at hself hcontrol
    exact .plain hcontrol.1 hself.1 hself.2.1

theorem getc_eq (h : i.ahead = c :: t) : ∃ i', i.getc = (some c, i') ∧ i'.ahead = t := by
  obtain ⟨i', hi', hahead, -⟩ := getc_cons h
  exact ⟨i', hi', hahead⟩

/-- Four digits. -/
theorem parseQuadhex_spec {x y : Byte} {m n : Nat} (hx : hexValue x = some m) (hy : hexValue y = some n)
    (h : i.ahead = 48 :: 48 :: x :: y :: t) : ∃ i', parseQuadhex i = (some (m * 16 + n), i') ∧ i'.ahead = t := by
  obtain ⟨i₁, h₁, hahead₁⟩ := getc_eq h
  obtain ⟨i₂, h₂, hahead₂⟩ := getc_eq hahead₁
  obtain ⟨i₃, h₃, hahead₃⟩ := getc_eq hahead₂
  obtain ⟨i₄, h₄, hahead₄⟩ := getc_eq hahead₃
  have hzero : hexValue 48 = some 0 := rfl
  refine ⟨i₄, ?_, hahead₄⟩
  simp only [parseQuadhex, quadhexLoop, h₁, h₂, h₃, h₄, hzero, hx, hy, Nat.zero_mul, Nat.zero_add]

/-- A character is read from its spelling. -/
theorem parseString_char {text : Bytes} (hspelled : Spelled c text) (rounds : Nat) (out : Bytes) (h : i.ahead = text ++ t) :
    ∃ i', parseString (rounds + 1) out i = parseString rounds (out ++ [c]) i' ∧ i'.ahead = t := by
  cases hspelled with
  | plain hcontrol hquote hslash =>
    obtain ⟨i₁, h₁, hahead₁⟩ := getc_eq h
    refine ⟨i₁, ?_, hahead₁⟩
    rw [parseString, h₁]
    dsimp only
    rw [if_neg hcontrol, if_neg hquote, if_neg hslash]
  | @letter e hletter =>
    obtain ⟨i₁, h₁, hahead₁⟩ := getc_eq h
    obtain ⟨i₂, h₂, hahead₂⟩ := getc_eq hahead₁
    refine ⟨i₂, ?_, hahead₂⟩
    rw [parseString, h₁]
    dsimp only
    rw [if_neg (by decide), if_neg (by decide), if_pos rfl, h₂]
    dsimp only
    rw [hletter]
  | @hex x y hc hx hy =>
    obtain ⟨i₁, h₁, hahead₁⟩ := getc_eq h
    obtain ⟨i₂, h₂, hahead₂⟩ := getc_eq hahead₁
    obtain ⟨i₃, h₃, hahead₃⟩ := parseQuadhex_spec hx hy hahead₂
    have hvalue : c.toNat / 16 * 16 + c.toNat % 16 = c.toNat := Nat.div_add_mod' _ _
    have hutf8 : utf8 c.toNat = [c] := by
      unfold utf8
      rw [if_pos hc, UInt8.ofNat_toNat]
    have hcode : parseCodepoint i₂ = (some [c], i₃) := by
      unfold parseCodepoint
      rw [h₃, hvalue]
      dsimp only
      rw [if_neg (by omega), hutf8]
    refine ⟨i₃, ?_, hahead₃⟩
    rw [parseString, h₁]
    dsimp only
    rw [if_neg (by decide), if_neg (by decide), if_pos rfl, h₂]
    dsimp only
    rw [show unescape 117 = none from rfl]
    dsimp only
    rw [if_pos rfl, hcode]

/-- A string is read up to its closing quote. -/
theorem parseString_spec (s out : Bytes) {rounds : Nat} (hrounds : s.length < rounds)
    (h : i.ahead = s.flatMap serializeChar ++ 34 :: t) :
    ∃ i', parseString rounds out i = .ok (some (out ++ s), i') ∧ i'.ahead = t := by
  induction s generalizing i rounds out with
  | nil =>
    obtain ⟨rounds, rfl⟩ : ∃ r, rounds = r + 1 := ⟨rounds - 1, by simp at hrounds; omega⟩
    obtain ⟨i', hi', hahead⟩ := getc_eq h
    refine ⟨i', ?_, hahead⟩
    rw [parseString, hi', List.append_nil]
    rfl
  | cons c s ih =>
    obtain ⟨rounds, rfl⟩ : ∃ r, rounds = r + 1 := ⟨rounds - 1, by simp at hrounds; omega⟩
    rw [List.flatMap_cons, List.append_assoc] at h
    obtain ⟨i₁, h₁, hahead₁⟩ := parseString_char (spelled_serializeChar c) rounds out h
    rw [h₁, List.append_cons out c s]
    exact ih (out ++ [c]) (by simpa using hrounds) hahead₁

theorem length_serializeChar_pos (c : Byte) : 0 < (serializeChar c).length := by
  cases hc : serializeChar c with
  | nil =>
    have hspelled := spelled_serializeChar c
    rw [hc] at hspelled
    cases hspelled
  | cons x xs => exact Nat.succ_pos _

theorem length_le_flatMap (s : Bytes) : s.length ≤ (s.flatMap serializeChar).length := by
  induction s with
  | nil => exact Nat.le_refl 0
  | cons c s ih =>
    have hpos := length_serializeChar_pos c
    rw [List.flatMap_cons, List.length_append, List.length_cons]
    omega

/-- A string behind its opening quote, with the rounds that are given to it. -/
theorem parseString_serializeStr {s : Bytes} (h : i.ahead = s.flatMap serializeChar ++ 34 :: t) :
    ∃ i', parseString (i.ahead.length + 1) [] i = .ok (some s, i') ∧ i'.ahead = t := by
  refine parseString_spec s [] ?_ h
  have hlength := length_le_flatMap s
  rw [h, List.length_append]
  omega

mutual

/-- The depth that a context must have left to read a value. Only arrays use it up; an object needs
that some is left. -/
def need : Json Bytes → Nat
  | .array elements => elementsNeed elements + 1
  | .object fields => max 1 (fieldsNeed fields)
  | _ => 0

def elementsNeed : List (Json Bytes) → Nat
  | [] => 0
  | v :: vs => max (need v) (elementsNeed vs)

def fieldsNeed : List (Bytes × Json Bytes) → Nat
  | [] => 0
  | f :: fs => max (need f.2) (fieldsNeed fs)

end

theorem elementsNeed_le_iff {vs : List (Json Bytes)} {n : Nat} : elementsNeed vs ≤ n ↔ ∀ v ∈ vs, need v ≤ n := by
  induction vs with
  | nil => simp [elementsNeed]
  | cons v vs ih => rw [elementsNeed, Nat.max_le, ih, List.forall_mem_cons]

theorem fieldsNeed_le_iff {fs : List (Bytes × Json Bytes)} {n : Nat} :
    fieldsNeed fs ≤ n ↔ ∀ f ∈ fs, need f.2 ≤ n := by
  induction fs with
  | nil => simp [fieldsNeed]
  | cons f fs ih => rw [fieldsNeed, Nat.max_le, ih, List.forall_mem_cons]

/-- A value that can be written: its numbers are doubles, and its fields are in the order of a map. -/
structure Printable (d : Numbers) (v : Json Bytes) : Prop where
  doubles : ∀ n ∈ v.numbers, d.double n
  ordered : v.ordered = true

variable {d : Numbers} {v : Json Bytes}

theorem Printable.element {elements : List (Json Bytes)} (h : Printable d (.array elements)) (hv : v ∈ elements) :
    Printable d v where
  doubles n hn := h.doubles n (Json.mem_elementsNumbers.mpr ⟨v, hv, hn⟩)
  ordered := Json.ordered_array.mp h.ordered v hv

theorem Printable.field {fields : List (Bytes × Json Bytes)} (h : Printable d (.object fields)) {f : Bytes × Json Bytes}
    (hf : f ∈ fields) : Printable d f.2 where
  doubles n hn := h.doubles n (Json.mem_fieldsNumbers.mpr ⟨f, hf, hn⟩)
  ordered := (Json.ordered_object.mp h.ordered).2 f hf

/-- What stands behind a value: it does not go on with a number. -/
def Ends (t : Bytes) : Prop := ∀ c ∈ t.head?, numberChar c = false

theorem ends_cons (h : numberChar c = false) : Ends (c :: t) := by
  intro x hx
  obtain rfl := Option.some.inj hx
  exact h

/-- The blanks between two values. -/
def Blanks (ws : Bytes) : Prop := ∀ c ∈ ws, blank c = true

theorem blanks_nil : Blanks [] := fun _ hc => absurd hc List.not_mem_nil

theorem Blanks.append {ws us : Bytes} (hws : Blanks ws) (hus : Blanks us) : Blanks (ws ++ us) := by
  intro c hc
  exact (List.mem_append.mp hc).elim (hws c) (hus c)

theorem blanks_breakText (indent : Int) : Blanks (breakText indent) := by
  intro c hc
  unfold breakText at hc
  split at hc
  · rcases List.mem_cons.mp hc with rfl | hc
    · rfl
    · rw [List.eq_of_mem_replicate hc]
      rfl
  · exact absurd hc List.not_mem_nil

theorem blank_not_number (h : blank c = true) : numberChar c = false := by
  unfold blank at h
  simp only [Bool.or_eq_true, decide_eq_true_eq] at h
  rcases h with ((rfl | rfl) | rfl) | rfl <;> rfl

theorem Blanks.ends {ws : Bytes} (hws : Blanks ws) (h : numberChar c = false) : Ends (ws ++ c :: t) := by
  cases ws with
  | nil => exact ends_cons h
  | cons w ws => exact ends_cons (blank_not_number (hws w List.mem_cons_self))

theorem deeper_ne_zero {indent : Int} (h : -1 ≤ indent) : deeper indent ≠ 0 ∧ -1 ≤ deeper indent := by
  unfold deeper
  split <;> omega

/-- The first character that is not a blank. -/
theorem getc_skipWs {ws : Bytes} (hws : Blanks ws) (hc : blank c = false) (h : i.ahead = ws ++ c :: t) :
    ∃ i', i.skipWs.getc = (some c, i') ∧ i'.ahead = t ∧ i'.ungetc.ahead = c :: t :=
  getc_cons (skipWs_spec hws (solid_cons hc) h)

theorem numberStart_spec (h : numberStart c = true) : blank c = false ∧ c ≠ 93 ∧
    c ≠ 110 ∧ c ≠ 102 ∧ c ≠ 116 ∧ c ≠ 34 ∧ c ≠ 91 ∧ c ≠ 123 := by
  unfold numberStart isdigit at h
  simp only [Bool.or_eq_true, Bool.and_eq_true, decide_eq_true_eq] at h
  have hlow : 45 ≤ c.toNat ∧ c.toNat ≤ 57 := by
    rcases h with h | rfl
    · have h₁ : 48 ≤ c.toNat := UInt8.le_iff_toNat_le.mp h.1
      have h₂ : c.toNat ≤ 57 := UInt8.le_iff_toNat_le.mp h.2
      omega
    · decide
  have hne : ∀ e : Byte, ¬ (45 ≤ e.toNat ∧ e.toNat ≤ 57) → c ≠ e := by
    rintro e he rfl
    exact he hlow
  refine ⟨?_, hne _ (by decide), hne _ (by decide), hne _ (by decide), hne _ (by decide), hne _ (by decide),
    hne _ (by decide), hne _ (by decide)⟩
  unfold blank
  simp only [Bool.or_eq_false_iff, decide_eq_false_iff_not]
  exact ⟨⟨⟨hne _ (by decide), hne _ (by decide)⟩, hne _ (by decide)⟩, hne _ (by decide)⟩

/-- No value starts with a blank or with the end of an array. -/
theorem valueText_head (hd : d.Exact) (hv : Printable d v) (indent : Int) :
    ∃ c cs, valueText d indent v = c :: cs ∧ blank c = false ∧ c ≠ 93 := by
  cases v with
  | null => exact ⟨110, _, by rw [valueText]; rfl, rfl, by decide⟩
  | bool b =>
    cases b with
    | true => exact ⟨116, _, by rw [valueText]; rfl, rfl, by decide⟩
    | false => exact ⟨102, _, by rw [valueText]; rfl, rfl, by decide⟩
  | number n =>
    obtain ⟨c, cs, hprint, hstart⟩ := hd.start n (hv.doubles n (List.mem_singleton_self n))
    exact ⟨c, cs, by rw [valueText, hprint], (numberStart_spec hstart).1, (numberStart_spec hstart).2.1⟩
  | string s => exact ⟨34, _, by rw [valueText]; rfl, rfl, by decide⟩
  | array elements => exact ⟨91, _, by rw [valueText]; rfl, rfl, by decide⟩
  | object fields => exact ⟨123, _, by rw [valueText]; rfl, rfl, by decide⟩

/-- A value is read from its text, with what a context has left. -/
def Reads (d : Numbers) (v : Json Bytes) : Prop :=
  ∀ (indent : Int) (ws t : Bytes) (rounds depths : Nat) (i : Input), -1 ≤ indent → Blanks ws → Ends t →
    i.ahead = ws ++ (valueText d indent v ++ t) → 2 * (valueText d indent v).length ≤ rounds →
    ∃ i', parseValue d rounds depths i = .ok (if need v ≤ depths then some v else none, i') ∧
      (need v ≤ depths → i'.ahead = t)

theorem reads_literal {pattern : Bytes} (hc : blank c = false) (htext : ∀ indent, valueText d indent v = c :: pattern)
    (hneed : need v = 0)
    (hparse : ∀ rounds depths (i i' : Input), i.skipWs.getc = (some c, i') →
      parseValue d (rounds + 1) depths i = .ok (checked v (i'.matchText pattern))) : Reads d v := by
  intro indent ws t rounds depths i _ hws _ h hrounds
  rw [htext] at h hrounds
  rw [List.cons_append] at h
  obtain ⟨rounds, rfl⟩ : ∃ r, rounds = r + 1 := ⟨rounds - 1, by simp at hrounds; omega⟩
  obtain ⟨i₁, h₁, hahead₁, -⟩ := getc_skipWs hws hc h
  obtain ⟨i₂, h₂, hahead₂⟩ := matchText_spec hahead₁
  refine ⟨i₂, ?_, fun _ => hahead₂⟩
  rw [hparse rounds depths i i₁ h₁, h₂, hneed, if_pos (Nat.zero_le _)]
  rfl

theorem reads_null : Reads d .null := by
  have htext : ∀ indent, valueText d indent .null = 110 :: lit "ull" := by
    intro indent
    rw [valueText]
    rfl
  refine reads_literal (by rfl) htext (by simp [need]) ?_
  intro rounds depths i i' h
  rw [parseValue, h]
  rfl

theorem reads_bool (b : Bool) : Reads d (.bool b) := by
  cases b with
  | true =>
    have htext : ∀ indent, valueText d indent (.bool true) = 116 :: lit "rue" := by
      intro indent
      rw [valueText]
      rfl
    refine reads_literal (by rfl) htext (by simp [need]) ?_
    intro rounds depths i i' h
    rw [parseValue, h]
    rfl
  | false =>
    have htext : ∀ indent, valueText d indent (.bool false) = 102 :: lit "alse" := by
      intro indent
      rw [valueText]
      rfl
    refine reads_literal (by rfl) htext (by simp [need]) ?_
    intro rounds depths i i' h
    rw [parseValue, h]
    rfl

theorem reads_string (s : Bytes) : Reads d (.string s) := by
  intro indent ws t rounds depths i _ hws _ h hrounds
  have htext : valueText d indent (.string s) = 34 :: (s.flatMap serializeChar ++ [34]) := by rw [valueText]; rfl
  rw [htext] at h hrounds
  rw [List.cons_append] at h
  obtain ⟨rounds, rfl⟩ : ∃ r, rounds = r + 1 := ⟨rounds - 1, by simp at hrounds; omega⟩
  obtain ⟨i₁, h₁, hahead₁, -⟩ := getc_skipWs hws rfl h
  rw [List.append_assoc] at hahead₁
  obtain ⟨i₂, h₂, hahead₂⟩ := parseString_serializeStr hahead₁
  refine ⟨i₂, ?_, fun _ => hahead₂⟩
  have hneed : need (.string s) = 0 := by simp [need]
  rw [parseValue, h₁, hneed, if_pos (Nat.zero_le _)]
  dsimp only
  rw [if_neg (by decide), if_neg (by decide), if_neg (by decide), if_pos rfl, h₂]
  rfl

theorem reads_number (hd : d.Exact) {n : ℚ} (hn : d.double n) : Reads d (.number n) := by
  intro indent ws t rounds depths i _ hws hends h hrounds
  obtain ⟨c, cs, hprint, hstart⟩ := hd.start n hn
  have htext : valueText d indent (.number n) = c :: cs := by rw [valueText, hprint]
  have hchars : ∀ x ∈ c :: cs, numberChar x = true := hprint ▸ hd.chars n hn
  rw [htext] at h hrounds
  rw [List.cons_append] at h
  obtain ⟨rounds, rfl⟩ : ∃ r, rounds = r + 1 := ⟨rounds - 1, by simp at hrounds; omega⟩
  obtain ⟨hblank, -, h₁', h₂', h₃', h₄', h₅', h₆'⟩ := numberStart_spec hstart
  obtain ⟨i₁, h₁, hahead₁, hback⟩ := getc_skipWs hws hblank h
  have hback' : i₁.ungetc.ahead = (c :: cs) ++ t := hback
  have hround : (c :: cs).length < i₁.ungetc.ahead.length + 1 := by
    rw [hback', List.length_append]
    omega
  obtain ⟨i₂, h₂, hahead₂⟩ := parseNumber_spec hchars hends hround [] hback'
  refine ⟨i₂, ?_, fun _ => hahead₂⟩
  have hneed : need (.number n) = 0 := by simp [need]
  rw [parseValue, h₁, hneed, if_pos (Nat.zero_le _)]
  dsimp only
  rw [if_neg h₁', if_neg h₂', if_neg h₃', if_neg h₄', if_neg h₅', if_neg h₆', if_pos hstart, h₂]
  dsimp only
  rw [List.nil_append, ← hprint, hd.read_print n hn]

theorem elementsText_next {indent : Int} (hindent : indent ≠ 0) (first : Bool) (v : Json Bytes) (vs : List (Json Bytes)) :
    elementsText d indent first (v :: vs) =
      (if first then [] else [44]) ++ (breakText indent ++ (valueText d indent v ++ elementsText d indent false vs)) := by
  rw [elementsText, lineEnd, if_neg hindent]
  simp only [List.append_nil, List.append_assoc]

/-- The elements of an array, from the first to the bracket. -/
theorem parseItems_spec {indent : Int} (hindent : indent ≠ 0 ∧ -1 ≤ indent) {close : Bytes} (hclose : Blanks close)
    {vs : List (Json Bytes)} (hvs : ∀ w ∈ v :: vs, Reads d w) {ws : Bytes} (hws : Blanks ws) {rounds depths : Nat}
    (items : List (Json Bytes))
    (h : i.ahead = ws ++ (valueText d indent v ++ (elementsText d indent false vs ++ (close ++ 93 :: t))))
    (hrounds : 2 * ((valueText d indent v).length + (elementsText d indent false vs).length) < rounds) :
    ∃ i', parseItems d rounds depths items i =
        .ok (if elementsNeed (v :: vs) ≤ depths then some (items ++ v :: vs) else none, i') ∧
      (elementsNeed (v :: vs) ≤ depths → i'.ahead = t) := by
  induction vs generalizing v ws rounds items i with
  | nil =>
    obtain ⟨rounds, rfl⟩ : ∃ r, rounds = r + 1 := ⟨rounds - 1, by omega⟩
    have hv := hvs v List.mem_cons_self
    have hempty : elementsText d indent false [] = [] := by rw [elementsText]
    rw [hempty, List.nil_append] at h
    obtain ⟨i₁, h₁, hahead₁⟩ := hv indent ws _ rounds depths i hindent.2 hws (hclose.ends rfl) h (by omega)
    have hneed : elementsNeed [v] = need v := by simp [elementsNeed]
    rw [hneed, parseItems, h₁]
    dsimp only [bind, Except.bind]
    by_cases hdeep : need v ≤ depths
    · obtain ⟨i₂, h₂, hahead₂⟩ := expect_miss hclose rfl (hahead₁ hdeep) (e := 44) (by decide)
      obtain ⟨i₃, h₃, hahead₃⟩ := expect_hit blanks_nil (i := i₂) (t := t) rfl hahead₂
      rw [if_pos hdeep, if_pos hdeep]
      dsimp only
      rw [h₂]
      dsimp only
      rw [h₃]
      exact ⟨i₃, rfl, fun _ => hahead₃⟩
    · rw [if_neg hdeep, if_neg hdeep]
      exact ⟨i₁, rfl, fun h => absurd h hdeep⟩
  | cons w vs ih =>
    obtain ⟨rounds, rfl⟩ : ∃ r, rounds = r + 1 := ⟨rounds - 1, by omega⟩
    obtain ⟨hv, hvs⟩ := List.forall_mem_cons.mp hvs
    rw [elementsText_next hindent.1] at h hrounds
    simp only [Bool.false_eq_true, if_false, List.length_append, List.length_cons, List.length_nil] at hrounds
    have hrest : (if false = true then [] else [44]) ++ (breakText indent ++ (valueText d indent w ++
        elementsText d indent false vs)) ++ (close ++ 93 :: t) = 44 :: (breakText indent ++ (valueText d indent w ++
        (elementsText d indent false vs ++ (close ++ 93 :: t)))) := by
      simp
    rw [hrest] at h
    obtain ⟨i₁, h₁, hahead₁⟩ := hv indent ws _ rounds depths i hindent.2 hws (ends_cons rfl) h (by omega)
    have hneed : elementsNeed (v :: w :: vs) = max (need v) (elementsNeed (w :: vs)) := by rw [elementsNeed]
    rw [hneed, parseItems, h₁]
    dsimp only [bind, Except.bind]
    by_cases hdeep : need v ≤ depths
    · obtain ⟨i₂, h₂, hahead₂⟩ := expect_hit blanks_nil rfl (hahead₁ hdeep)
      have hfewer : 2 * ((valueText d indent w).length + (elementsText d indent false vs).length) < rounds := by omega
      obtain ⟨i₃, h₃, hahead₃⟩ := ih hvs (blanks_breakText indent) (items ++ [v]) hahead₂ hfewer
      rw [if_pos hdeep]
      dsimp only
      rw [h₂]
      dsimp only
      refine ⟨i₃, h₃.trans ?_, fun h => hahead₃ (le_trans (le_max_right _ _) h)⟩
      have hmax : max (need v) (elementsNeed (w :: vs)) ≤ depths ↔ elementsNeed (w :: vs) ≤ depths := by omega
      simp only [hmax, List.append_assoc, List.singleton_append]
    · rw [if_neg hdeep, if_neg (by omega)]
      exact ⟨i₁, rfl, fun h => absurd (le_trans (le_max_left _ _) h) hdeep⟩

theorem reads_array (hd : d.Exact) {elements : List (Json Bytes)} (hprint : Printable d (.array elements))
    (h : ∀ w ∈ elements, Reads d w) : Reads d (.array elements) := by
  intro indent ws t rounds depths i hindent hws _ hi hrounds
  have htext : valueText d indent (.array elements) = 91 :: (elementsText d (deeper indent) true elements ++
      ((if elements.isEmpty then [] else breakText indent) ++ [93])) := by
    rw [valueText, List.append_assoc]
    rfl
  rw [htext] at hi hrounds
  rw [List.cons_append] at hi
  obtain ⟨rounds, rfl⟩ : ∃ r, rounds = r + 1 := ⟨rounds - 1, by simp at hrounds; omega⟩
  obtain ⟨i₁, h₁, hahead₁, -⟩ := getc_skipWs hws rfl hi
  have hneed : need (.array elements) = elementsNeed elements + 1 := by rw [need]
  rw [hneed, parseValue, h₁]
  dsimp only
  rw [if_neg (by decide), if_neg (by decide), if_neg (by decide), if_neg (by decide), if_pos rfl]
  by_cases hzero : depths = 0
  · rw [if_pos hzero, if_neg (by omega)]
    exact ⟨i₁, rfl, by omega⟩
  rw [if_neg hzero]
  cases elements with
  | nil =>
    have hahead : i₁.ahead = [] ++ 93 :: t := by
      rw [hahead₁, elementsText]
      rfl
    obtain ⟨i₂, h₂, hahead₂⟩ := expect_hit blanks_nil rfl hahead
    rw [h₂, if_pos (by simp [elementsNeed]; omega)]
    exact ⟨i₂, rfl, fun _ => hahead₂⟩
  | cons v vs =>
    have hdeep := deeper_ne_zero hindent
    obtain ⟨c, cs, hhead, hblank, hne⟩ := valueText_head hd (hprint.element List.mem_cons_self) (deeper indent)
    rw [elementsText_next hdeep.1] at hahead₁ hrounds
    simp only [if_true, List.nil_append, List.isEmpty_cons, Bool.false_eq_true, if_false, List.append_assoc] at hahead₁
    simp only [if_true, List.length_cons, List.length_append, List.length_nil] at hrounds
    have hfirst := hahead₁
    rw [hhead, List.cons_append] at hfirst
    obtain ⟨i₂, h₂, hahead₂⟩ := expect_miss (blanks_breakText (deeper indent)) hblank hfirst hne
    rw [← List.cons_append, ← hhead] at hahead₂
    have hround : 2 * ((valueText d (deeper indent) v).length + (elementsText d (deeper indent) false vs).length) < rounds := by
      omega
    obtain ⟨i₃, h₃, hahead₃⟩ := @parseItems_spec _ _ _ _ _ hdeep _ (blanks_breakText indent) vs h _ blanks_nil _ (depths - 1)
      [] hahead₂ hround
    rw [h₂]
    dsimp only [bind, Except.bind]
    rw [h₃]
    refine ⟨i₃, ?_, fun h => hahead₃ (by omega)⟩
    by_cases hfit : elementsNeed (v :: vs) ≤ depths - 1
    · rw [if_pos hfit, if_pos (by omega)]
      rfl
    · rw [if_neg hfit, if_neg (by omega)]
      rfl

/-- A field with a later key than all others comes last. -/
theorem insertField_last {key : Bytes} {fields : List (Bytes × Json Bytes)} (h : ∀ f ∈ fields, f.1 < key) (v : Json Bytes) :
    insertField key v fields = fields ++ [(key, v)] := by
  induction fields with
  | nil => rfl
  | cons f fs ih =>
    obtain ⟨hf, hfs⟩ := List.forall_mem_cons.mp h
    have hne : key ≠ f.1 := by
      rintro rfl
      exact List.lt_irrefl _ hf
    rw [insertField, if_neg (List.lt_asymm hf), if_neg hne, ih hfs]
    rfl

/-- A field as it stands between a comma and the next one. -/
def fieldText (d : Numbers) (indent : Int) (f : Bytes × Json Bytes) : Bytes :=
  serializeStr f.1 ++ (58 :: ((if indent ≠ -1 then [32] else []) ++ valueText d indent f.2))

theorem fieldsText_next {indent : Int} (hindent : indent ≠ 0) (first : Bool) (f : Bytes × Json Bytes)
    (fs : List (Bytes × Json Bytes)) :
    fieldsText d indent first (f :: fs) =
      (if first then [] else [44]) ++ (breakText indent ++ (fieldText d indent f ++ fieldsText d indent false fs)) := by
  rw [fieldsText, lineEnd, if_neg hindent, fieldText]
  simp only [List.append_nil, List.nil_append, List.append_assoc, List.cons_append]

theorem serializeStr_append (s : Bytes) : serializeStr s ++ t = 34 :: (s.flatMap serializeChar ++ 34 :: t) := by
  unfold serializeStr
  simp

/-- A field, from its opening quote to the end of its value. -/
theorem parseField_spec {indent : Int} (hindent : -1 ≤ indent) {f : Bytes × Json Bytes} (hf : Reads d f.2)
    {ws : Bytes} (hws : Blanks ws) (ht : Ends t) {rounds depths : Nat} (h : i.ahead = ws ++ (fieldText d indent f ++ t))
    (hrounds : 2 * (fieldText d indent f).length ≤ rounds) :
    ∃ i₁ i₂ i₃ i₄, i.expect 34 = (true, i₁) ∧ parseString (i₁.ahead.length + 1) [] i₁ = .ok (some f.1, i₂) ∧
      i₂.expect 58 = (true, i₃) ∧ parseValue d rounds depths i₃ = .ok (if need f.2 ≤ depths then some f.2 else none, i₄) ∧
      (need f.2 ≤ depths → i₄.ahead = t) := by
  rw [fieldText, List.append_assoc, serializeStr_append] at h
  rw [fieldText, List.length_append, List.length_cons, List.length_append] at hrounds
  obtain ⟨i₁, h₁, hahead₁⟩ := expect_hit hws rfl h
  obtain ⟨i₂, h₂, hahead₂⟩ := parseString_serializeStr hahead₁
  rw [List.cons_append] at hahead₂
  obtain ⟨i₃, h₃, hahead₃⟩ := expect_hit blanks_nil rfl hahead₂
  rw [List.append_assoc] at hahead₃
  have hspace : Blanks (if indent ≠ -1 then [32] else []) := by
    intro c hc
    split at hc
    · obtain rfl := List.mem_singleton.mp hc
      rfl
    · exact absurd hc List.not_mem_nil
  obtain ⟨i₄, h₄, hahead₄⟩ := hf indent _ t rounds depths i₃ hindent hspace ht hahead₃ (by omega)
  exact ⟨i₁, i₂, i₃, i₄, h₁, h₂, h₃, h₄, hahead₄⟩

/-- The fields of an object, from the first to the brace. -/
theorem parseFields_spec {indent : Int} (hindent : indent ≠ 0 ∧ -1 ≤ indent) {close : Bytes} (hclose : Blanks close)
    {f : Bytes × Json Bytes} {fs : List (Bytes × Json Bytes)} (hfs : ∀ g ∈ f :: fs, Reads d g.2) {ws : Bytes}
    (hws : Blanks ws) {rounds depths : Nat} (fields : List (Bytes × Json Bytes))
    (hordered : ((fields ++ f :: fs).map Prod.fst).Pairwise (· < ·))
    (h : i.ahead = ws ++ (fieldText d indent f ++ (fieldsText d indent false fs ++ (close ++ 125 :: t))))
    (hrounds : 2 * ((fieldText d indent f).length + (fieldsText d indent false fs).length) < rounds) :
    ∃ i', parseFields d rounds depths fields i =
        .ok (if fieldsNeed (f :: fs) ≤ depths then some (fields ++ f :: fs) else none, i') ∧
      (fieldsNeed (f :: fs) ≤ depths → i'.ahead = t) := by
  induction fs generalizing f ws rounds fields i with
  | nil =>
    obtain ⟨rounds, rfl⟩ : ∃ r, rounds = r + 1 := ⟨rounds - 1, by omega⟩
    have hempty : fieldsText d indent false [] = [] := by rw [fieldsText]
    rw [hempty, List.nil_append] at h
    have hround : 2 * (fieldText d indent f).length ≤ rounds := by omega
    obtain ⟨i₁, i₂, i₃, i₄, h₁, h₂, h₃, h₄, hahead₄⟩ := parseField_spec (d := d) hindent.2 (hfs f List.mem_cons_self) hws
      (hclose.ends rfl) h hround
    have hneed : fieldsNeed [f] = need f.2 := by simp [fieldsNeed]
    have hlast : insertField f.1 f.2 fields = fields ++ [f] := by
      refine insertField_last ?_ f.2
      intro g hg
      rw [List.map_append] at hordered
      exact (List.pairwise_append.mp hordered).2.2 g.1 (List.mem_map_of_mem hg) f.1 (List.mem_singleton_self f.1)
    rw [hneed, parseFields, h₁]
    dsimp only [bind, Except.bind]
    rw [h₂]
    dsimp only
    rw [h₃]
    dsimp only
    rw [h₄]
    dsimp only
    by_cases hdeep : need f.2 ≤ depths
    · obtain ⟨i₅, h₅, hahead₅⟩ := expect_miss hclose rfl (hahead₄ hdeep) (e := 44) (by decide)
      obtain ⟨i₆, h₆, hahead₆⟩ := expect_hit blanks_nil rfl hahead₅
      rw [if_pos hdeep, if_pos hdeep]
      dsimp only
      rw [h₅, hlast]
      dsimp only
      rw [h₆]
      exact ⟨i₆, rfl, fun _ => hahead₆⟩
    · rw [if_neg hdeep, if_neg hdeep]
      exact ⟨i₄, rfl, fun h => absurd h hdeep⟩
  | cons g fs ih =>
    obtain ⟨rounds, rfl⟩ : ∃ r, rounds = r + 1 := ⟨rounds - 1, by omega⟩
    obtain ⟨hf, hfs⟩ := List.forall_mem_cons.mp hfs
    rw [fieldsText_next hindent.1] at h hrounds
    simp only [Bool.false_eq_true, if_false, List.length_append, List.length_cons, List.length_nil] at hrounds
    have hrest : (if false = true then [] else [44]) ++ (breakText indent ++ (fieldText d indent g ++
        fieldsText d indent false fs)) ++ (close ++ 125 :: t) = 44 :: (breakText indent ++ (fieldText d indent g ++
        (fieldsText d indent false fs ++ (close ++ 125 :: t)))) := by
      simp
    rw [hrest] at h
    have hround : 2 * (fieldText d indent f).length ≤ rounds := by omega
    obtain ⟨i₁, i₂, i₃, i₄, h₁, h₂, h₃, h₄, hahead₄⟩ := parseField_spec (d := d) hindent.2 hf hws (ends_cons rfl) h
      hround
    have hneed : fieldsNeed (f :: g :: fs) = max (need f.2) (fieldsNeed (g :: fs)) := by rw [fieldsNeed]
    have hlast : insertField f.1 f.2 fields = fields ++ [f] := by
      refine insertField_last ?_ f.2
      intro x hx
      rw [List.map_append] at hordered
      exact (List.pairwise_append.mp hordered).2.2 x.1 (List.mem_map_of_mem hx) f.1 List.mem_cons_self
    rw [hneed, parseFields, h₁]
    dsimp only [bind, Except.bind]
    rw [h₂]
    dsimp only
    rw [h₃]
    dsimp only
    rw [h₄]
    dsimp only
    by_cases hdeep : need f.2 ≤ depths
    · obtain ⟨i₅, h₅, hahead₅⟩ := expect_hit blanks_nil rfl (hahead₄ hdeep)
      have hfewer : 2 * ((fieldText d indent g).length + (fieldsText d indent false fs).length) < rounds := by omega
      rw [List.append_cons] at hordered
      obtain ⟨i₆, h₆, hahead₆⟩ := ih hfs (blanks_breakText indent) (fields ++ [f]) hordered hahead₅ hfewer
      rw [if_pos hdeep]
      dsimp only
      rw [h₅, hlast]
      dsimp only
      refine ⟨i₆, h₆.trans ?_, fun h => hahead₆ (le_trans (le_max_right _ _) h)⟩
      have hmax : max (need f.2) (fieldsNeed (g :: fs)) ≤ depths ↔ fieldsNeed (g :: fs) ≤ depths := by omega
      simp only [hmax, List.append_assoc, List.singleton_append]
    · rw [if_neg hdeep, if_neg (by omega)]
      exact ⟨i₄, rfl, fun h => absurd (le_trans (le_max_left _ _) h) hdeep⟩

theorem reads_object {fields : List (Bytes × Json Bytes)} (hprint : Printable d (.object fields))
    (h : ∀ f ∈ fields, Reads d f.2) : Reads d (.object fields) := by
  intro indent ws t rounds depths i hindent hws _ hi hrounds
  have htext : valueText d indent (.object fields) = 123 :: (fieldsText d (deeper indent) true fields ++
      ((if fields.isEmpty then [] else breakText indent) ++ [125])) := by
    rw [valueText, List.append_assoc]
    rfl
  rw [htext] at hi hrounds
  rw [List.cons_append] at hi
  obtain ⟨rounds, rfl⟩ : ∃ r, rounds = r + 1 := ⟨rounds - 1, by simp at hrounds; omega⟩
  obtain ⟨i₁, h₁, hahead₁, -⟩ := getc_skipWs hws rfl hi
  have hneed : need (.object fields) = max 1 (fieldsNeed fields) := by rw [need]
  rw [hneed, parseValue, h₁]
  dsimp only
  rw [if_neg (by decide), if_neg (by decide), if_neg (by decide), if_neg (by decide), if_neg (by decide), if_pos rfl]
  by_cases hzero : depths = 0
  · rw [if_pos hzero, if_neg (by omega)]
    exact ⟨i₁, rfl, by omega⟩
  rw [if_neg hzero]
  cases fields with
  | nil =>
    have hahead : i₁.ahead = [] ++ 125 :: t := by
      rw [hahead₁, fieldsText]
      rfl
    obtain ⟨i₂, h₂, hahead₂⟩ := expect_hit blanks_nil rfl hahead
    rw [h₂, if_pos (by simp [fieldsNeed]; omega)]
    exact ⟨i₂, rfl, fun _ => hahead₂⟩
  | cons f fs =>
    have hdeep := deeper_ne_zero hindent
    rw [fieldsText_next hdeep.1] at hahead₁ hrounds
    simp only [if_true, List.nil_append, List.isEmpty_cons, Bool.false_eq_true, if_false, List.append_assoc] at hahead₁
    simp only [if_true, List.length_cons, List.length_append, List.length_nil] at hrounds
    have hquote := hahead₁
    rw [fieldText, List.append_assoc, serializeStr_append] at hquote
    obtain ⟨i₂, h₂, hahead₂⟩ := expect_miss (blanks_breakText (deeper indent)) rfl hquote (e := 125) (by decide)
    rw [← serializeStr_append, ← List.append_assoc, ← fieldText] at hahead₂
    have hround : 2 * ((fieldText d (deeper indent) f).length + (fieldsText d (deeper indent) false fs).length) < rounds := by
      omega
    obtain ⟨i₃, h₃, hahead₃⟩ := @parseFields_spec _ _ _ _ hdeep _ (blanks_breakText indent) f fs h _ blanks_nil _ depths
      [] (Json.ordered_object.mp hprint.ordered).1 hahead₂ hround
    rw [h₂]
    dsimp only [bind, Except.bind]
    rw [h₃]
    refine ⟨i₃, ?_, fun h => hahead₃ (by omega)⟩
    by_cases hfit : fieldsNeed (f :: fs) ≤ depths
    · rw [if_pos hfit, if_pos (by omega)]
      rfl
    · rw [if_neg hfit, if_neg (by omega)]
      rfl

/-- Every value that can be written is read from its text. -/
theorem reads (hd : d.Exact) (hv : Printable d v) : Reads d v := by
  induction v using Json.induction with
  | null => exact reads_null
  | bool b => exact reads_bool b
  | number n => exact reads_number hd (hv.doubles n (List.mem_singleton_self n))
  | string s => exact reads_string s
  | array elements ih => exact reads_array hd hv fun w hw => ih w hw (hv.element hw)
  | object fields ih => exact reads_object hv fun f hf => ih f hf (hv.field hf)

/-- The numbers of a program that only uses the integers of an `int`. -/
def integers : Numbers where
  double n := n.den = 1 ∧ inInt n.num
  print n := toText n.num
  read s :=
    match stoi s with
    | .ok n => if toText n = s then .finite n else .partly
    | .error _ => .partly

theorem toText_head (n : Int) : ∃ c cs, toText n = c :: cs ∧ numberStart c = true := by
  unfold toText
  split
  · exact ⟨45, _, rfl, rfl⟩
  · cases hcs : decimal n.natAbs with
    | nil => exact absurd hcs (decimal_ne_nil _)
    | cons c cs =>
      have hdigit := isdigit_of_mem_decimal (hcs ▸ List.mem_cons_self : c ∈ decimal n.natAbs)
      refine ⟨c, cs, rfl, ?_⟩
      unfold numberStart
      rw [hdigit]
      rfl

theorem inInt_of_stoi {s : Bytes} {n : Int} (h : stoi s = .ok n) : inInt n := by
  unfold stoi at h
  dsimp only at h
  split_ifs at h <;> cases h <;> assumption

theorem integers_exact : integers.Exact where
  read_print n hn := by
    have hread : integers.read (integers.print n) = .finite n.num := by
      simp only [integers]
      rw [stoi_toText hn.2]
      dsimp only
      rw [if_pos rfl]
    rw [hread, Rat.den_eq_one_iff n |>.mp hn.1]
  chars n _ c hc := by
    by_contra hnumber
    simp only [numberChar, Bool.not_eq_true, Bool.or_eq_false_iff, decide_eq_false_iff_not] at hnumber
    obtain ⟨⟨⟨⟨⟨hdigit, -⟩, hsign⟩, -⟩, -⟩, -⟩ := hnumber
    exact notMem_toText hdigit hsign n.num hc
  start n _ := toText_head n.num
  double s n h := by
    simp only [integers] at h
    split at h
    · rename_i m hm
      split at h
      · cases h
        exact ⟨rfl, inInt_of_stoi hm⟩
      · cases h
    · cases h

/-- A value comes back from its text if the context goes deep enough, with or without indentation. If not,
there is an error. -/
theorem parse_serialize (hd : d.Exact) (hv : Printable d v) (prettify : Bool) :
    ∃ err, parse d (serialize d prettify v) = .ok (if need v ≤ defaultMaxDepths then some v else none, err) ∧
      (err = [] ↔ need v ≤ defaultMaxDepths) := by
  have hindent : (-1 : Int) ≤ if prettify then 0 else -1 := by
    split <;> omega
  have hend : Ends (lineEnd (if prettify then 0 else -1)) := by
    cases prettify with
    | true => exact ends_cons rfl
    | false => exact fun _ h => nomatch h
  have hlength : 2 * (valueText d (if prettify then 0 else -1) v).length ≤ 2 * (serialize d prettify v).length + 1 := by
    unfold serialize
    rw [List.length_append]
    omega
  obtain ⟨i', hi', -⟩ := reads hd hv _ [] _ _ defaultMaxDepths { ahead := serialize d prettify v } hindent blanks_nil
    hend rfl hlength
  unfold parse
  rw [hi']
  by_cases hdeep : need v ≤ defaultMaxDepths
  · rw [if_pos hdeep]
    exact ⟨[], rfl, iff_of_true rfl hdeep⟩
  · rw [if_neg hdeep]
    refine ⟨_, rfl, iff_of_false ?_ hdeep⟩
    intro h
    exact List.cons_ne_nil _ _ h

/-- An array with a quote and a control character in it. -/
theorem parse_serialize_array : ∃ err,
    parse integers (serialize integers true (.array [.number (-12), .string [34, 7], .null])) =
      .ok (if need (.array [.number (-12), .string [34, 7], .null]) ≤ defaultMaxDepths then
        some (.array [.number (-12), .string [34, 7], .null]) else none, err) ∧
      (err = [] ↔ need (.array [.number (-12), .string [34, 7], .null]) ≤ defaultMaxDepths) := by
  refine parse_serialize integers_exact ⟨?_, rfl⟩ true
  intro n hn
  obtain rfl : n = -12 := by simpa [Json.numbers, Json.elementsNumbers] using hn
  exact ⟨rfl, by decide⟩

end Jericho.Util.Picojson
