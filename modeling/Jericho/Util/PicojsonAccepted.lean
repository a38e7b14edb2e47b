import Jericho.Util.PicojsonRoundTrip

/-! Whatever text picojson is given, its rounds are enough for it, and a value it accepts is one that it
writes and reads back. -/
namespace Jericho.Util.Picojson
open StdText JsonTree

namespace Input
variable {i i' : Input} {c : Byte}

theorem length_getc (h : i.getc = (some c, i')) :
    i'.ahead.length + 1 = i.ahead.length ∧ i'.ungetc.ahead.length = i.ahead.length := by
  cases hahead : i.ahead with
  | nil =>
    unfold getc at h
    rw [hahead] at h
    cases h
  | cons x xs =>
    unfold getc at h
    rw [hahead] at h
    cases h
    exact ⟨rfl, rfl⟩

theorem length_getc_none (h : i.getc = (none, i')) :
    i'.ahead.length ≤ i.ahead.length ∧ i'.ungetc.ahead.length ≤ i.ahead.length := by
  cases hahead : i.ahead with
  | nil =>
    unfold getc at h
    rw [hahead] at h
    cases h
    exact ⟨Nat.le_refl _, Nat.le_refl _⟩
  | cons x xs =>
    unfold getc at h
    rw [hahead] at h
    cases h

/-- Whether a character was got or not. -/
theorem length_getc_le {o : Option Byte} (h : i.getc = (o, i')) :
    i'.ahead.length ≤ i.ahead.length ∧ i'.ungetc.ahead.length ≤ i.ahead.length := by
  cases o with
  | none => exact length_getc_none h
  | some c =>
    have hlength := length_getc h
    omega

theorem length_skipLoop (rounds : Nat) (i : Input) : (skipLoop rounds i).ahead.length ≤ i.ahead.length := by
  induction rounds generalizing i with
  | zero => exact Nat.le_refl _
  | succ rounds ih =>
    unfold skipLoop
    split
    · rename_i c i' h
      have hlength := length_getc h
      split
      · have hrest := ih i'
        omega
      · omega
    · rename_i i' h
      exact (length_getc_none h).2

theorem length_skipWs (i : Input) : i.skipWs.ahead.length ≤ i.ahead.length := length_skipLoop _ i

theorem length_expect {r : Bool} (h : i.expect c = (r, i')) :
    i'.ahead.length + (if r then 1 else 0) ≤ i.ahead.length := by
  have hskip := length_skipWs i
  unfold expect at h
  split at h
  · rename_i x i'' hget
    have hlength := length_getc hget
    split at h
    · cases h
      simp only [if_true]
      omega
    · cases h
      simp only [Bool.false_eq_true, if_false]
      omega
  · rename_i i'' hget
    have hlength := length_getc_none hget
    cases h
    simp only [Bool.false_eq_true, if_false]
    omega

theorem length_expect_snd (i : Input) (c : Byte) : (i.expect c).2.ahead.length ≤ i.ahead.length := by
  have hexpect : i.expect c = ((i.expect c).1, (i.expect c).2) := rfl
  have hlength := length_expect hexpect
  omega

theorem length_matchText (pattern : Bytes) (i : Input) : (i.matchText pattern).2.ahead.length ≤ i.ahead.length := by
  induction pattern generalizing i with
  | nil => exact Nat.le_refl _
  | cons p pattern ih =>
    unfold matchText
    split
    · rename_i c i' h
      have hlength := length_getc h
      split
      · have hrest := ih i'
        omega
      · exact (length_getc_le h).2
    · rename_i i' h
      exact (length_getc_none h).2

end Input

open Input

theorem length_quadhexLoop {rounds uniCh : Nat} {i i' : Input} {o : Option Nat} (h : quadhexLoop rounds uniCh i = (o, i')) :
    i'.ahead.length ≤ i.ahead.length := by
  induction rounds generalizing uniCh i with
  | zero =>
    cases h
    exact Nat.le_refl _
  | succ rounds ih =>
    unfold quadhexLoop at h
    split at h
    · rename_i i₁ hget
      cases h
      exact (length_getc_none hget).1
    · rename_i c i₁ hget
      have hlength := length_getc hget
      split at h
      · have hrest := ih h
        omega
      · cases h
        omega

theorem length_parseCodepoint {i i' : Input} {o : Option Bytes} (h : parseCodepoint i = (o, i')) :
    i'.ahead.length ≤ i.ahead.length := by
  unfold parseCodepoint at h
  split at h
  · rename_i i₁ hquad
    cases h
    exact length_quadhexLoop hquad
  · rename_i uniCh i₁ hquad
    have h₁ := length_quadhexLoop hquad
    split at h
    · split at h
      · cases h
        exact h₁
      · split at h
        · rename_i i₂ hget₂
          have h₂ := length_getc_le hget₂
          split at h
          · rename_i i₃ hget₃
            have h₃ := length_getc_le hget₃
            split at h
            · rename_i second i₄ hquad₄
              have h₄ := length_quadhexLoop hquad₄
              split at h <;> cases h <;> omega
            · rename_i i₄ hquad₄
              have h₄ := length_quadhexLoop hquad₄
              cases h
              omega
          · rename_i i₃ _ hget₃
            have h₃ := length_getc_le hget₃
            cases h
            omega
        · rename_i i₂ _ hget₂
          have h₂ := length_getc_le hget₂
          cases h
          omega
    · cases h
      exact h₁

/-- What a step of the parser may end in: a result that satisfies `P`, if there is one, with no more than
`n` characters ahead, or the exception of a number that overflows. -/
def Gives {α : Type} (P : α → Prop) (n : Nat) : Exec (Option α × Input) → Prop
  | .ok (a, i) => i.ahead.length ≤ n ∧ ∀ x ∈ a, P x
  | .error e => e = .runtimeError

section Gives
variable {α β : Type} {P : α → Prop} {Q : β → Prop} {m n : Nat} {i : Input}

theorem gives_none (h : i.ahead.length ≤ n) : Gives P n (.ok (none, i)) :=
  ⟨h, fun _ hx => nomatch hx⟩

theorem gives_some {a : α} (h : i.ahead.length ≤ n) (ha : P a) : Gives P n (.ok (some a, i)) :=
  ⟨h, fun _ hx => Option.some.inj hx ▸ ha⟩

theorem gives_checked {a : α} {r : Bool × Input} (h : r.2.ahead.length ≤ n) (ha : P a) :
    Gives P n (.ok (checked a r)) := by
  obtain ⟨r, i⟩ := r
  cases r with
  | true => exact gives_some h ha
  | false => exact gives_none h

theorem Gives.mono {x : Exec (Option α × Input)} (h : Gives P m x) (hmn : m ≤ n) : Gives P n x := by
  cases x with
  | error e => exact h
  | ok r => exact ⟨le_trans h.1 hmn, h.2⟩

theorem Gives.bind {x : Exec (Option α × Input)} {f : Option α × Input → Exec (Option β × Input)} (h : Gives P m x)
    (hf : ∀ a i, i.ahead.length ≤ m → (∀ y ∈ a, P y) → Gives Q n (f (a, i))) : Gives Q n (x >>= f) := by
  cases x with
  | error e => exact h
  | ok r => exact hf r.1 r.2 h.1 h.2

theorem gives_map {a : Option α} {f : α → β} (h : i.ahead.length ≤ n) (ha : ∀ y ∈ a, Q (f y)) :
    Gives Q n (.ok (a.map f, i)) := by
  cases a with
  | none => exact gives_none h
  | some y => exact gives_some h (ha y rfl)

end Gives

/-- Each round of a string takes a character. -/
theorem parseString_gives {rounds : Nat} (out : Bytes) {i : Input} (h : i.ahead.length < rounds) :
    Gives (fun _ => True) i.ahead.length (parseString rounds out i) := by
  induction rounds generalizing out i with
  | zero => exact absurd h (Nat.not_lt_zero _)
  | succ rounds ih =>
    unfold parseString
    split
    · rename_i i₁ hget
      exact gives_none (length_getc_none hget).2
    · rename_i ch i₁ hget
      have h₁ := length_getc hget
      split
      · exact gives_none (by omega)
      split
      · exact gives_some (by omega) trivial
      split
      · split
        · rename_i i₂ hget₂
          have h₂ := length_getc_none hget₂
          exact gives_none (by omega)
        · rename_i ch i₂ hget₂
          have h₂ := length_getc hget₂
          split
          · exact (ih _ (by omega)).mono (by omega)
          split
          · split
            · rename_i bytes i₃ hcode
              have h₃ := length_parseCodepoint hcode
              exact (ih _ (by omega)).mono (by omega)
            · rename_i i₃ hcode
              have h₃ := length_parseCodepoint hcode
              exact gives_none (by omega)
          · exact gives_none (by omega)
      · exact (ih _ (by omega)).mono (by omega)

theorem length_parseNumber (rounds : Nat) (numStr : Bytes) (i : Input) :
    (parseNumber rounds numStr i).2.ahead.length ≤ i.ahead.length := by
  induction rounds generalizing numStr i with
  | zero => exact Nat.le_refl _
  | succ rounds ih =>
    unfold parseNumber
    split
    · rename_i ch i₁ hget
      have h₁ := length_getc hget
      split
      · have hrest := ih (numStr ++ [ch]) i₁
        omega
      · exact (length_getc_le hget).2
    · rename_i i₁ hget
      exact (length_getc_none hget).2

/-- A value that is written and read within a depth. -/
structure Good (d : Numbers) (depths : Nat) (v : Json Bytes) : Prop extends Printable d v where
  deep : need v ≤ depths

/-- The fields of an object under construction. -/
structure GoodFields (d : Numbers) (depths : Nat) (fields : List (Bytes × Json Bytes)) : Prop where
  keys : (fields.map Prod.fst).Pairwise (· < ·)
  good : ∀ f ∈ fields, Good d depths f.2

variable {d : Numbers} {depths : Nat} {v : Json Bytes} {fields : List (Bytes × Json Bytes)}

theorem good_array {elements : List (Json Bytes)} (h : ∀ v ∈ elements, Good d (depths - 1) v) (hdepths : depths ≠ 0) :
    Good d depths (.array elements) where
  doubles n hn := by
    obtain ⟨v, hv, hn⟩ := Json.mem_elementsNumbers.mp hn
    exact (h v hv).doubles n hn
  ordered := Json.ordered_array.mpr fun v hv => (h v hv).ordered
  deep := by
    have hneed := elementsNeed_le_iff.mpr fun v hv => (h v hv).deep
    rw [need]
    omega

theorem good_object (h : GoodFields d depths fields) (hdepths : depths ≠ 0) : Good d depths (.object fields) where
  doubles n hn := by
    obtain ⟨f, hf, hn⟩ := Json.mem_fieldsNumbers.mp hn
    exact (h.good f hf).doubles n hn
  ordered := Json.ordered_object.mpr ⟨h.keys, fun f hf => (h.good f hf).ordered⟩
  deep := by
    have hneed := fieldsNeed_le_iff.mpr fun f hf => (h.good f hf).deep
    rw [need]
    omega

theorem mem_insertField {key : Bytes} {f : Bytes × Json Bytes} (h : f ∈ insertField key v fields) :
    f = (key, v) ∨ f ∈ fields := by
  induction fields with
  | nil => exact .inl (List.mem_singleton.mp h)
  | cons g fs ih =>
    unfold insertField at h
    split_ifs at h
    · exact List.mem_cons.mp h
    · exact (List.mem_cons.mp h).imp_right (List.mem_cons_of_mem _)
    · rcases List.mem_cons.mp h with rfl | h
      · exact .inr List.mem_cons_self
      · exact (ih h).imp_right (List.mem_cons_of_mem _)

/-- A map stays in order. -/
theorem insertField_keys (key : Bytes) (v : Json Bytes) (h : (fields.map Prod.fst).Pairwise (· < ·)) :
    ((insertField key v fields).map Prod.fst).Pairwise (· < ·) := by
  induction fields with
  | nil => exact List.pairwise_singleton _ _
  | cons g fs ih =>
    obtain ⟨hfirst, hrest⟩ := List.pairwise_cons.mp h
    unfold insertField
    split_ifs with hlt heq
    · refine List.pairwise_cons.mpr ⟨?_, h⟩
      intro k hk
      rcases List.mem_cons.mp hk with rfl | hk
      · exact hlt
      · exact List.lt_trans hlt (hfirst k hk)
    · rw [heq]
      exact h
    · refine List.pairwise_cons.mpr ⟨?_, ih hrest⟩
      intro k hk
      obtain ⟨f, hf, rfl⟩ := List.mem_map.mp hk
      rcases mem_insertField hf with rfl | hf
      · exact Std.lt_of_le_of_ne hlt (Ne.symm heq)
      · exact hfirst f.1 (List.mem_map_of_mem hf)

theorem GoodFields.insertField (h : GoodFields d depths fields) (key : Bytes) (hv : Good d depths v) :
    GoodFields d depths (insertField key v fields) where
  keys := insertField_keys key v h.keys
  good f hf := by
    rcases mem_insertField hf with rfl | hf
    · exact hv
    · exact h.good f hf

/-- The three loops with this many rounds left. -/
structure Sound (d : Numbers) (rounds : Nat) : Prop where
  value : ∀ (depths : Nat) (i : Input), 2 * i.ahead.length + 1 ≤ rounds →
    Gives (Good d depths) i.ahead.length (parseValue d rounds depths i)
  items : ∀ (depths : Nat) (items : List (Json Bytes)) (i : Input), 2 * i.ahead.length + 2 ≤ rounds →
    (∀ v ∈ items, Good d depths v) →
    Gives (fun vs => ∀ v ∈ vs, Good d depths v) i.ahead.length (parseItems d rounds depths items i)
  fields : ∀ (depths : Nat) (fields : List (Bytes × Json Bytes)) (i : Input), 2 * i.ahead.length + 2 ≤ rounds →
    GoodFields d depths fields → Gives (GoodFields d depths) i.ahead.length (parseFields d rounds depths fields i)

variable {rounds : Nat} {i : Input}

theorem parseValue_gives (hread : ∀ s n, d.read s = .finite n → d.double n) (h : Sound d rounds)
    (hrounds : 2 * i.ahead.length + 1 ≤ rounds + 1) :
    Gives (Good d depths) i.ahead.length (parseValue d (rounds + 1) depths i) := by
  have hskip := length_skipWs i
  rw [parseValue]
  split
  · rename_i i₁ hget
    have h₁ := length_getc_none hget
    exact gives_none (by omega)
  · rename_i ch i₁ hget
    have h₁ := length_getc hget
    have hmatch : ∀ pattern, (i₁.matchText pattern).2.ahead.length ≤ i.ahead.length := by
      intro pattern
      have h₂ := length_matchText pattern i₁
      omega
    split
    · exact gives_checked (hmatch _) ⟨⟨by simp [Json.numbers], rfl⟩, by simp [need]⟩
    split
    · exact gives_checked (hmatch _) ⟨⟨by simp [Json.numbers], rfl⟩, by simp [need]⟩
    split
    · exact gives_checked (hmatch _) ⟨⟨by simp [Json.numbers], rfl⟩, by simp [need]⟩
    split
    · refine (parseString_gives [] (Nat.lt_succ_self _)).bind fun a i₂ h₂ _ => ?_
      exact gives_map (by omega) fun s _ => ⟨⟨by simp [Json.numbers], rfl⟩, by simp [need]⟩
    split
    · split
      · exact gives_none (by omega)
      · rename_i hdepths
        split
        · rename_i i₂ hexpect
          have h₂ := length_expect hexpect
          exact gives_some (by omega) (good_array (fun _ hv => absurd hv List.not_mem_nil) hdepths)
        · rename_i i₂ hexpect
          have h₂ : i₂.ahead.length ≤ i₁.ahead.length := length_expect hexpect
          refine (h.items (depths - 1) [] i₂ (by omega) fun _ hv => absurd hv List.not_mem_nil).bind ?_
          intro a i₃ h₃ ha
          exact gives_map (by omega) fun vs hvs => good_array (ha vs hvs) hdepths
    split
    · split
      · exact gives_none (by omega)
      · rename_i hdepths
        have hnone : GoodFields d depths [] := ⟨List.Pairwise.nil, fun _ hf => absurd hf List.not_mem_nil⟩
        split
        · rename_i i₂ hexpect
          have h₂ := length_expect hexpect
          exact gives_some (by omega) (good_object hnone hdepths)
        · rename_i i₂ hexpect
          have h₂ : i₂.ahead.length ≤ i₁.ahead.length := length_expect hexpect
          refine (h.fields depths [] i₂ (by omega) hnone).bind ?_
          intro a i₃ h₃ ha
          exact gives_map (by omega) fun fs hfs => good_object (ha fs hfs) hdepths
    split
    · dsimp only
      have h₂ := length_parseNumber (i₁.ungetc.ahead.length + 1) [] i₁.ungetc
      split
      · rename_i n hfinite
        refine gives_some (by omega) ⟨⟨?_, rfl⟩, by simp [need]⟩
        intro m hm
        rw [Json.numbers, List.mem_singleton] at hm
        exact hm ▸ hread _ n hfinite
      · rfl
      · exact gives_none (by omega)
    · exact gives_none (by omega)

theorem parseItems_gives (h : Sound d rounds) {items : List (Json Bytes)} (hrounds : 2 * i.ahead.length + 2 ≤ rounds + 1)
    (hitems : ∀ v ∈ items, Good d depths v) :
    Gives (fun vs => ∀ v ∈ vs, Good d depths v) i.ahead.length (parseItems d (rounds + 1) depths items i) := by
  rw [parseItems]
  refine (h.value depths i (by omega)).bind ?_
  intro a i₁ h₁ ha
  cases a with
  | none => exact gives_none h₁
  | some v =>
    have hmore : ∀ w ∈ items ++ [v], Good d depths w := by
      intro w hw
      rcases List.mem_append.mp hw with hw | hw
      · exact hitems w hw
      · rw [List.mem_singleton.mp hw]
        exact ha v rfl
    dsimp only
    split
    · rename_i i₂ hexpect
      have h₂ : i₂.ahead.length + 1 ≤ i₁.ahead.length := length_expect hexpect
      exact (h.items depths _ i₂ (by omega) hmore).mono (by omega)
    · rename_i i₂ hexpect
      have h₂ : i₂.ahead.length ≤ i₁.ahead.length := length_expect hexpect
      have h₃ := length_expect_snd i₂ 93
      exact gives_checked (by omega) hmore

theorem parseFields_gives (h : Sound d rounds) (hrounds : 2 * i.ahead.length + 2 ≤ rounds + 1)
    (hfields : GoodFields d depths fields) :
    Gives (GoodFields d depths) i.ahead.length (parseFields d (rounds + 1) depths fields i) := by
  rw [parseFields]
  split
  · rename_i i₁ hexpect
    exact gives_none (length_expect hexpect)
  · rename_i i₁ hexpect
    have h₁ : i₁.ahead.length + 1 ≤ i.ahead.length := length_expect hexpect
    refine (parseString_gives [] (Nat.lt_succ_self _)).bind fun key i₂ h₂ _ => ?_
    cases key with
    | none => exact gives_none (by omega)
    | some key =>
      dsimp only
      split
      · rename_i i₃ hcolon
        have h₃ : i₃.ahead.length ≤ i₂.ahead.length := length_expect hcolon
        exact gives_none (by omega)
      · rename_i i₃ hcolon
        have h₃ : i₃.ahead.length + 1 ≤ i₂.ahead.length := length_expect hcolon
        refine (h.value depths i₃ (by omega)).bind ?_
        intro a i₄ h₄ ha
        cases a with
        | none => exact gives_none (by dsimp only; omega)
        | some v =>
          have hmore := hfields.insertField key (ha v rfl)
          dsimp only
          split
          · rename_i i₅ hcomma
            have h₅ : i₅.ahead.length + 1 ≤ i₄.ahead.length := length_expect hcomma
            exact (h.fields depths _ i₅ (by omega) hmore).mono (by omega)
          · rename_i i₅ hcomma
            have h₅ : i₅.ahead.length ≤ i₄.ahead.length := length_expect hcomma
            have h₆ := length_expect_snd i₅ 125
            exact gives_checked (by omega) hmore

theorem sound (hread : ∀ s n, d.read s = .finite n → d.double n) (rounds : Nat) : Sound d rounds := by
  induction rounds with
  | zero =>
    refine ⟨?_, ?_, ?_⟩
    · intro depths i h
      omega
    · intro depths items i h
      omega
    · intro depths fields i h
      omega
  | succ rounds ih =>
    refine ⟨?_, ?_, ?_⟩
    · intro depths i h
      exact parseValue_gives hread ih h
    · intro depths items i h hitems
      exact parseItems_gives ih h hitems
    · intro depths fields i h hfields
      exact parseFields_gives ih h hfields

/-- Whatever it is given, picojson throws because a number overflows, or tells of an error, or gives a
value; and that value, written again in either way, is read back. -/
theorem parse_accepted (hd : d.Exact) (s : Bytes) : parse d s = .error .runtimeError ∨
    (∃ err, parse d s = .ok (none, err) ∧ err ≠ []) ∨
    ∃ v, parse d s = .ok (some v, []) ∧ ∀ prettify, parse d (serialize d prettify v) = .ok (some v, []) := by
  have hvalue := (sound hd.double (2 * s.length + 1)).value defaultMaxDepths { ahead := s } (Nat.le_refl _)
  unfold parse
  cases hparse : parseValue d (2 * s.length + 1) defaultMaxDepths { ahead := s } with
  | error e =>
    rw [hparse] at hvalue
    exact .inl (congrArg _ hvalue)
  | ok r =>
    rw [hparse] at hvalue
    obtain ⟨a, i⟩ := r
    cases a with
    | none => exact .inr (.inl ⟨_, rfl, List.cons_ne_nil _ _⟩)
    | some v =>
      have hgood := hvalue.2 v rfl
      refine .inr (.inr ⟨v, rfl, ?_⟩)
      intro prettify
      obtain ⟨err, herr, hiff⟩ := parse_serialize hd hgood.toPrintable prettify
      rw [if_pos hgood.deep, hiff.mpr hgood.deep] at herr
      exact herr

/-- A text whose object has a key twice. -/
theorem parse_accepted_twice : parse integers (lit "\x7b\"b\":1, \"a\":[], \"b\":2\x7d") = .error .runtimeError ∨
    (∃ err, parse integers (lit "\x7b\"b\":1, \"a\":[], \"b\":2\x7d") = .ok (none, err) ∧ err ≠ []) ∨
    ∃ v, parse integers (lit "\x7b\"b\":1, \"a\":[], \"b\":2\x7d") = .ok (some v, []) ∧
      ∀ prettify, parse integers (serialize integers prettify v) = .ok (some v, []) :=
  parse_accepted integers_exact _

end Jericho.Util.Picojson
