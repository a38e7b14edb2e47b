import Mathlib.Data.List.TakeWhile
import Mathlib.Data.Nat.Digits.Lemmas
import Mathlib.Tactic

/-! Byte strings with the C and C++ library functions that read and write numbers
in them. A call that throws, or whose behaviour is undefined, is a `Fault`. -/
namespace StdText

abbrev Byte := UInt8
abbrev Bytes := List Byte

/-- The bytes of an ASCII literal. -/
def lit (s : String) : Bytes := s.toList.map (fun c => UInt8.ofNat c.toNat)

/-- What a `char*` reader sees: everything before the first NUL. -/
def cstr (s : Bytes) : Bytes := s.takeWhile (· ≠ 0)

theorem cstr_isPrefix (s : Bytes) : cstr s <+: s := List.takeWhile_prefix _

theorem cstr_length_le (s : Bytes) : (cstr s).length ≤ s.length := (cstr_isPrefix s).length_le

theorem zero_notMem_cstr (s : Bytes) : (0 : Byte) ∉ cstr s := by
  intro h
  simpa using List.mem_takeWhile_imp h

theorem cstr_eq_self_iff {s : Bytes} : cstr s = s ↔ (0 : Byte) ∉ s := by
  constructor
  · intro h
    rw [← h]
    exact zero_notMem_cstr s
  · intro h
    rw [cstr, List.takeWhile_eq_self_iff]
    intro c hc
    simpa using fun hz : c = 0 => h (hz ▸ hc)

theorem cstr_length_eq_iff {s : Bytes} : (cstr s).length = s.length ↔ (0 : Byte) ∉ s := by
  rw [← cstr_eq_self_iff]
  constructor
  · exact fun h => (cstr_isPrefix s).eq_of_length h
  · exact fun h => congrArg List.length h

@[simp] theorem cstr_cstr (s : Bytes) : cstr (cstr s) = cstr s :=
  cstr_eq_self_iff.mpr (zero_notMem_cstr s)

/-- A NUL written after a NUL-free text ends what a reader sees. -/
theorem cstr_append_zero {s : Bytes} (h : (0 : Byte) ∉ s) (t : Bytes) : cstr (s ++ 0 :: t) = s := by
  rw [cstr, List.takeWhile_append_of_pos]
  · simp
  · intro c hc
    simpa using fun hz : c = 0 => h (hz ▸ hc)

theorem cstr_append {s : Bytes} (h : (0 : Byte) ∉ s) (t : Bytes) : cstr (s ++ t) = s ++ cstr t := by
  rw [cstr, List.takeWhile_append_of_pos]
  · rfl
  · intro c hc
    simpa using fun hz : c = 0 => h (hz ▸ hc)

theorem cstr_append_of_mem {s : Bytes} (h : (0 : Byte) ∈ s) (t : Bytes) : cstr (s ++ t) = cstr s := by
  induction s with
  | nil => simp at h
  | cons c s ih =>
    by_cases hc : c = 0
    · simp [cstr, hc]
    · have hs : (0 : Byte) ∈ s := by simpa [Ne.symm hc] using h
      simpa [cstr, hc] using ih hs

/-- Why a call does not return normally. -/
inductive Fault where
  | invalidArgument
  | outOfRange
  | lengthError
  | logicError
  | runtimeError
  | undefined
  deriving DecidableEq, Repr

abbrev Exec := Except Fault

instance {α : Type*} [DecidableEq α] : DecidableEq (Exec α) := fun a b =>
  match a, b with
  | .error e, .error f => decidable_of_iff (e = f) (by simp)
  | .ok x, .ok y => decidable_of_iff (x = y) (by simp)
  | .error _, .ok _ => .isFalse (by simp)
  | .ok _, .error _ => .isFalse (by simp)

theorem bind_eq_ok {α β : Type} {x : Exec α} {f : α → Exec β} {b : β} :
    (x >>= f) = .ok b ↔ ∃ a, x = .ok a ∧ f a = .ok b := by
  cases x with
  | error e => simp [bind, Except.bind]
  | ok a => simp [bind, Except.bind]

theorem map_eq_ok {α β : Type*} {x : Exec α} {f : α → β} {b : β} :
    x.map f = .ok b ↔ ∃ a, x = .ok a ∧ f a = b := by
  cases x with
  | error e => simp [Except.map]
  | ok a => simp [Except.map]

theorem bind_return {α β : Type} (x : Exec α) (f : α → β) : (do let a ← x; return f a) = x.map f := by
  cases x <;> rfl

theorem mapM_cons_ok {α β : Type} {f : α → Exec β} {a : α} {as : List α} {bs : List β}
    (h : (a :: as).mapM f = .ok bs) : ∃ b bs', f a = .ok b ∧ as.mapM f = .ok bs' ∧ bs = b :: bs' := by
  rw [List.mapM_cons] at h
  obtain ⟨b, hb, h⟩ := bind_eq_ok.mp h
  obtain ⟨bs', hbs, h⟩ := bind_eq_ok.mp h
  exact ⟨b, bs', hb, hbs, (Except.ok.inj h).symm⟩

/-- What a loop returned for each of its inputs. -/
theorem forall₂_of_mapM {α β : Type} {f : α → Exec β} {as : List α} {bs : List β} (h : as.mapM f = .ok bs) :
    List.Forall₂ (fun a b => f a = .ok b) as bs := by
  induction as generalizing bs with
  | nil =>
    obtain rfl := Except.ok.inj h
    exact .nil
  | cons a as ih =>
    obtain ⟨b, bs', hb, hbs, rfl⟩ := mapM_cons_ok h
    exact .cons hb (ih hbs)

/-- A property that every round of a loop keeps. -/
theorem foldlM_ok {α β : Type} {P : β → Prop} {f : β → α → Exec β} {l : List α}
    (hstep : ∀ b b' a, a ∈ l → P b → f b a = .ok b' → P b') {b b' : β} (h : l.foldlM f b = .ok b') (hb : P b) :
    P b' := by
  induction l generalizing b with
  | nil =>
    obtain rfl := Except.ok.inj h
    exact hb
  | cons a l ih =>
    obtain ⟨b₁, h₁, h⟩ := bind_eq_ok.mp h
    refine ih (fun c c' x hx => hstep c c' x (List.mem_cons_of_mem a hx)) h ?_
    exact hstep b b₁ a List.mem_cons_self hb h₁

/-- A piece between separators is a part of the whole. -/
theorem sublist_of_mem_splitOn {α : Type*} [DecidableEq α] {a : α} {l piece : List α} (h : piece ∈ l.splitOn a) :
    piece.Sublist l := by
  induction l generalizing piece with
  | nil =>
    obtain rfl := List.mem_singleton.mp h
    exact List.Sublist.refl _
  | cons x l ih =>
    obtain ⟨first, rest, hl⟩ := List.exists_cons_of_ne_nil (List.splitOn_ne_nil a l)
    rw [List.splitOn_cons_eq_if_modifyHead, hl] at h
    rw [hl] at ih
    split_ifs at h with hx
    · rcases List.mem_cons.mp h with rfl | h
      · exact List.nil_sublist _
      · exact (ih h).cons x
    · rcases List.mem_cons.mp h with rfl | h
      · exact (ih List.mem_cons_self).cons_cons x
      · exact (ih (List.mem_cons_of_mem first h)).cons x

/-- What a piece between separators holds, the whole holds. -/
theorem mem_of_mem_splitOn {α : Type*} [DecidableEq α] {a c : α} {l piece : List α} (h : piece ∈ l.splitOn a)
    (hc : c ∈ piece) : c ∈ l :=
  (sublist_of_mem_splitOn h).mem hc

/-- A piece between separators holds none. -/
theorem notMem_of_mem_splitOn {α : Type*} [DecidableEq α] {a : α} {l piece : List α} (h : piece ∈ l.splitOn a) :
    a ∉ piece := by
  induction l generalizing piece with
  | nil =>
    obtain rfl := List.mem_singleton.mp h
    exact List.not_mem_nil
  | cons x l ih =>
    rw [List.splitOn_cons_eq_if_modifyHead] at h
    split_ifs at h with hx
    · rcases List.mem_cons.mp h with rfl | h
      · exact List.not_mem_nil
      · exact ih h
    · obtain ⟨first, rest, hl⟩ := List.exists_cons_of_ne_nil (List.splitOn_ne_nil a l)
      rw [hl] at ih h
      rcases List.mem_cons.mp h with rfl | h
      · rw [List.mem_cons, not_or]
        exact ⟨fun heq => hx (beq_iff_eq.mpr heq.symm), ih List.mem_cons_self⟩
      · exact ih (List.mem_cons_of_mem first h)

def isspace (c : Byte) : Bool := c = 32 || (9 ≤ c && c ≤ 13)
def isdigit (c : Byte) : Bool := 48 ≤ c && c ≤ 57

/-- The value of a run of decimal digits. -/
def digitsValue (ds : Bytes) : Nat := ds.foldl (fun acc c => acc * 10 + (c.toNat - 48)) 0

/-- `int` has 32 bits. -/
def inInt (n : Int) : Prop := -2^31 ≤ n ∧ n < 2^31

instance (n : Int) : Decidable (inInt n) := by unfold inInt; infer_instance

/-- `++` on an `int` counter -/
def increment (n : Int) : Exec Int := if inInt (n + 1) then .ok (n + 1) else .error .undefined

theorem inInt_nat {n : Nat} : inInt n ↔ n < 2 ^ 31 := by
  unfold inInt
  omega

/-- A number stored in an `int`. -/
def asInt (n : Int) : Int := Int.bmod n (2 ^ 32)

theorem asInt_sub (a b : Int) : asInt (asInt a - b) = asInt (a - b) := Int.bmod_sub_bmod

theorem asInt_nat (n : Nat) :
    (asInt n < 0 ↔ 2 ^ 31 ≤ n % 2 ^ 32) ∧ (n % 2 ^ 32 < 2 ^ 31 → asInt n = (n % 2 ^ 32 : Nat)) := by
  unfold asInt
  rw [Int.bmod_def]
  constructor
  · split_ifs <;> omega
  · intro hsmall
    rw [if_pos (by omega)]
    omega

theorem asInt_small {n : Nat} (h : n < 2 ^ 31) : asInt n = n := by
  have hmod : n % 2 ^ 32 = n := Nat.mod_eq_of_lt (h.trans (by decide))
  rw [(asInt_nat n).2 (hmod.trans_lt h), hmod]

/-- `std::stoi`: blanks, a sign, at least one digit; what follows is ignored. -/
def stoi (s : Bytes) : Exec Int :=
  let t := s.dropWhile isspace
  let negative := t.head? = some 45
  let u := if t.head? = some 45 ∨ t.head? = some 43 then t.tail else t
  let ds := u.takeWhile isdigit
  if ds = [] then .error .invalidArgument
  else
    let v : Int := if negative then -(digitsValue ds) else digitsValue ds
    if inInt v then .ok v else .error .outOfRange

/-- The value of a digit of a base. Letters count from ten. -/
def digitOf (c : Byte) : Nat :=
  if isdigit c then c.toNat - 48
  else if 97 ≤ c && c ≤ 122 then c.toNat - 87
  else if 65 ≤ c && c ≤ 90 then c.toNat - 55
  else 36

/-- The value of a run of digits of a base. -/
def numeral (base : Nat) (ds : Bytes) : Nat := ds.foldl (fun acc c => acc * base + digitOf c) 0

/-- `strtol` to a `long` of 64 bits: blanks, a sign, for base 16 a `0x`, digits; without a digit it is zero. -/
def strtol (base : Nat) (s : Bytes) : Int :=
  let t := s.dropWhile isspace
  let u := if t.head? = some 45 ∨ t.head? = some 43 then t.tail else t
  let digits := if base = 16 ∧ (u.take 2 = lit "0x" ∨ u.take 2 = lit "0X") then u.drop 2 else u
  let n : Int := numeral base (digits.takeWhile (digitOf · < base))
  if t.head? = some 45 then max (-2 ^ 63) (-n) else min (2 ^ 63 - 1) n

theorem digitOf_lt {c : Byte} (h : digitOf c < 16) :
    isspace c = false ∧ c ≠ 45 ∧ c ≠ 43 ∧ c ≠ 120 ∧ c ≠ 88 ∧ c ≠ 13 ∧ c ≠ 0 := by
  simp only [digitOf, isdigit, isspace, Bool.and_eq_true, decide_eq_true_eq, Bool.or_eq_false_iff,
    decide_eq_false_iff_not, Bool.and_eq_false_iff, UInt8.le_iff_toNat_le, ← UInt8.toNat_inj,
    UInt8.toNat_ofNat, ne_eq] at h ⊢
  split_ifs at h <;> omega

/-- The digits at the start of a text, up to a line end. -/
theorem strtol_digits {base : Nat} {ds rest : Bytes} (hbase : base ≤ 16) (hne : ds ≠ [])
    (hds : ∀ c ∈ ds, digitOf c < base) (hrest : rest = [] ∨ rest.head? = some 13) :
    strtol base (ds ++ rest) = min (2 ^ 63 - 1) (numeral base ds : Int) := by
  obtain ⟨c, more, rfl⟩ := List.exists_cons_of_ne_nil hne
  obtain ⟨hspace, hminus, hplus, -⟩ := digitOf_lt ((hds c List.mem_cons_self).trans_le hbase)
  have hnox : ¬ (base = 16 ∧ ((c :: (more ++ rest)).take 2 = lit "0x" ∨ (c :: (more ++ rest)).take 2 = lit "0X")) := by
    rintro ⟨-, hx⟩
    have hsecond : (more ++ rest).head? = some 120 ∨ (more ++ rest).head? = some 88 := by
      rw [List.take_succ_cons, List.take_one] at hx
      rcases hx with hx | hx
      · exact .inl (Option.toList_eq_singleton_iff.mp (List.cons.inj hx).2)
      · exact .inr (Option.toList_eq_singleton_iff.mp (List.cons.inj hx).2)
    cases more with
    | nil =>
      rw [List.nil_append] at hsecond
      rcases hrest with rfl | hrest
      · simp at hsecond
      · rw [hrest] at hsecond
        revert hsecond
        decide
    | cons d more =>
      obtain ⟨-, -, -, hx, hX, -⟩ := digitOf_lt ((hds d (by simp)).trans_le hbase)
      rcases hsecond with h | h
      · exact hx (Option.some.inj h)
      · exact hX (Option.some.inj h)
  have htake : (c :: (more ++ rest)).takeWhile (digitOf · < base) = c :: more := by
    rw [← List.cons_append, List.takeWhile_append_of_pos fun d hd => decide_eq_true (hds d hd)]
    rcases hrest with rfl | hrest
    · exact List.append_nil _
    · obtain ⟨tail, rfl⟩ := List.head?_eq_some_iff.mp hrest
      have hcr : ¬ decide (digitOf 13 < base) = true := fun h =>
        (digitOf_lt ((of_decide_eq_true h).trans_le hbase)).2.2.2.2.2.1 rfl
      have hstop : (13 :: tail).takeWhile (digitOf · < base) = [] := List.takeWhile_cons_of_neg hcr
      rw [hstop, List.append_nil]
  unfold strtol
  rw [List.cons_append, List.dropWhile_cons_of_neg (by simp [hspace])]
  have hneg : ¬ (c :: (more ++ rest)).head? = some 45 := fun h => hminus (Option.some.inj h)
  have hsign : ¬ ((c :: (more ++ rest)).head? = some 45 ∨ (c :: (more ++ rest)).head? = some 43) := fun h =>
    h.elim hneg fun h => hplus (Option.some.inj h)
  simp only [if_neg hsign, if_neg hnox, if_neg hneg, htake]

/-- The decimal text of a natural number. -/
def decimal (n : Nat) : Bytes :=
  if n = 0 then [48] else (Nat.digits 10 n).reverse.map (fun d => UInt8.ofNat (48 + d))

/-- `std::to_string` of an integer. -/
def toText (n : Int) : Bytes := if n < 0 then 45 :: decimal n.natAbs else decimal n.natAbs

private theorem digit_byte {d : Nat} (h : d < 10) :
    isdigit (UInt8.ofNat (48 + d)) = true ∧ (UInt8.ofNat (48 + d)).toNat - 48 = d := by
  interval_cases d <;> decide

theorem decimal_ne_nil (n : Nat) : decimal n ≠ [] := by
  unfold decimal
  split
  · simp
  · rename_i h
    simpa using Nat.digits_ne_nil_iff_ne_zero.mpr h

theorem isdigit_of_mem_decimal {n : Nat} {c : Byte} (h : c ∈ decimal n) : isdigit c = true := by
  unfold decimal at h
  split at h
  · obtain rfl := List.mem_singleton.mp h
    decide
  · obtain ⟨d, hd, rfl⟩ := List.mem_map.mp h
    exact (digit_byte (Nat.digits_lt_base (by omega) (List.mem_reverse.mp hd))).1

theorem digitsValue_decimal (n : Nat) : digitsValue (decimal n) = n := by
  unfold decimal
  split
  · rename_i h
    rw [h]
    decide
  · have key : ∀ ds : List Nat, (∀ d ∈ ds, d < 10) →
        digitsValue (ds.reverse.map (fun d => UInt8.ofNat (48 + d))) = Nat.ofDigits 10 ds := by
      intro ds
      induction ds with
      | nil => intro _; rfl
      | cons d ds ih =>
        intro hds
        have hd := (digit_byte (hds d (by simp))).2
        have := ih (fun e he => hds e (by simp [he]))
        simp only [digitsValue] at this ⊢
        rw [List.reverse_cons, List.map_append, List.foldl_append, this, Nat.ofDigits_cons]
        simp only [List.map_cons, List.map_nil, List.foldl_cons, List.foldl_nil, hd]
        ring
    rw [key _ (fun d hd => Nat.digits_lt_base (by omega) hd), Nat.ofDigits_digits]

theorem isspace_of_isdigit {c : Byte} (h : isdigit c = true) : isspace c = false ∧ c ≠ 45 ∧ c ≠ 43 := by
  simp only [isdigit, isspace, Bool.and_eq_true, decide_eq_true_eq, Bool.or_eq_false_iff,
    decide_eq_false_iff_not, Bool.and_eq_false_iff, UInt8.le_iff_toNat_le, ← UInt8.toNat_inj,
    UInt8.toNat_ofNat, ne_eq] at h ⊢
  omega

/-- Reading back the digits of an `int`. -/
theorem stoi_of_digits {s : Bytes} (hne : s ≠ []) (hd : ∀ c ∈ s, isdigit c = true)
    (hr : inInt (digitsValue s)) : stoi s = .ok (digitsValue s) := by
  obtain ⟨c, s, rfl⟩ := List.exists_cons_of_ne_nil hne
  obtain ⟨hs, hm, hp⟩ := isspace_of_isdigit (hd c (by simp))
  have htake : (c :: s).takeWhile isdigit = c :: s := List.takeWhile_eq_self_iff.mpr hd
  simp [stoi, hs, hm, hp, htake, hr]

/-- Reading back a decimal text in front of a line end. -/
theorem strtol_decimal {n : Nat} (h : n < 2 ^ 31) {rest : Bytes} (hrest : rest = [] ∨ rest.head? = some 13) :
    strtol 10 (decimal n ++ rest) = n := by
  have hdigit : ∀ c ∈ decimal n, digitOf c = c.toNat - 48 := fun c hc => if_pos (isdigit_of_mem_decimal hc)
  have hlt : ∀ c ∈ decimal n, digitOf c < 10 := by
    intro c hc
    have hd := isdigit_of_mem_decimal hc
    rw [hdigit c hc]
    simp only [isdigit, Bool.and_eq_true, decide_eq_true_eq, UInt8.le_iff_toNat_le, UInt8.toNat_ofNat] at hd
    omega
  have hvalue : numeral 10 (decimal n) = n := by
    refine Eq.trans ?_ (digitsValue_decimal n)
    exact List.foldl_ext _ _ _ fun acc c hc => congrArg (acc * 10 + ·) (hdigit c hc)
  rw [strtol_digits (by decide) (decimal_ne_nil n) hlt hrest, hvalue]
  omega

theorem stoi_decimal {n : Nat} (h : n < 2^31) : stoi (decimal n) = .ok n := by
  have hv := digitsValue_decimal n
  have := stoi_of_digits (decimal_ne_nil n) (fun c hc => isdigit_of_mem_decimal hc)
    (by rw [hv]; constructor <;> omega)
  rwa [hv] at this

/-- Reading back the text of an `int`. -/
theorem stoi_toText {n : Int} (h : inInt n) : stoi (toText n) = .ok n := by
  obtain ⟨hlo, hhi⟩ := h
  unfold toText
  split_ifs with hneg
  · have htake : (decimal n.natAbs).takeWhile isdigit = decimal n.natAbs :=
      List.takeWhile_eq_self_iff.mpr fun c hc => isdigit_of_mem_decimal hc
    have hblank : isspace 45 = false := rfl
    have hread : stoi (45 :: decimal n.natAbs) =
        if inInt (-(n.natAbs : Int)) then .ok (-(n.natAbs : Int)) else .error .outOfRange := by
      simp [stoi, hblank, htake, decimal_ne_nil, digitsValue_decimal]
    have hvalue : -(n.natAbs : Int) = n := by omega
    rw [hread, hvalue, if_pos ⟨hlo, hhi⟩]
  · rw [stoi_decimal (by omega)]
    exact congrArg Except.ok (by omega)

/-- Only digits stand in a decimal text. -/
theorem notMem_decimal {c : Byte} (h : isdigit c = false) (n : Nat) : c ∉ decimal n := by
  intro hmem
  rw [isdigit_of_mem_decimal hmem] at h
  cases h

theorem notMem_toText {c : Byte} (hdigit : isdigit c = false) (hsign : c ≠ 45) (n : Int) : c ∉ toText n := by
  unfold toText
  split_ifs
  · exact List.not_mem_cons_of_ne_of_not_mem hsign (notMem_decimal hdigit _)
  · exact notMem_decimal hdigit _

theorem decimal_injective {m n : Nat} (h : decimal m = decimal n) : m = n := by
  rw [← digitsValue_decimal m, h, digitsValue_decimal]

theorem toText_injective {m n : Int} (h : toText m = toText n) : m = n := by
  have hsign (a b : Nat) : decimal a ≠ 45 :: decimal b := by
    intro heq
    have hdigit : (45 : Byte) ∉ decimal a := notMem_decimal (by decide) a
    rw [heq] at hdigit
    exact hdigit List.mem_cons_self
  unfold toText at h
  split_ifs at h with hm hn hn
  · have habs := decimal_injective (List.cons_eq_cons.mp h).2
    omega
  · exact absurd h.symm (hsign _ _)
  · exact absurd h (hsign _ _)
  · have habs := decimal_injective h
    omega

/-- `printf`-style output of a format string with no arguments. A `%%` prints one
percent sign; any other conversion asks for an argument that was not passed. -/
def formatPlain : Bytes → Exec Bytes
  | [] => .ok []
  | [37] => .error .undefined
  | c :: d :: s =>
    if c = 37 then
      if d = 37 then (formatPlain s).map (37 :: ·) else .error .undefined
    else (formatPlain (d :: s)).map (c :: ·)
  | [c] => .ok [c]

theorem formatPlain_cons {c : Byte} (h : c ≠ 37) (s : Bytes) :
    formatPlain (c :: s) = (formatPlain s).map (c :: ·) := by
  cases s with
  | nil =>
    rw [formatPlain.eq_def]
    split <;> simp_all [formatPlain, Except.map]
  | cons d s => simp [formatPlain, h]

theorem formatPlain_of_notMem {s : Bytes} (h : (37 : Byte) ∉ s) : formatPlain s = .ok s := by
  induction s with
  | nil => rfl
  | cons c s ih =>
    obtain ⟨hc, hs⟩ : (37 : Byte) ≠ c ∧ (37 : Byte) ∉ s := by simpa using h
    rw [formatPlain_cons (Ne.symm hc), ih hs]
    rfl

/-- Formatting never makes a text longer, and a percent sign makes it shorter. -/
theorem formatPlain_length {s t : Bytes} (h : formatPlain s = .ok t) :
    t.length ≤ s.length ∧ ((37 : Byte) ∈ s → t.length < s.length) := by
  induction s using formatPlain.induct generalizing t with
  | case1 =>
    obtain rfl : [] = t := by simpa [formatPlain] using h
    simp
  | case2 => simp [formatPlain] at h
  | case3 s ih =>
    simp only [formatPlain, if_true] at h
    obtain ⟨u, hu, rfl⟩ := map_eq_ok.mp h
    have := (ih hu).1
    simp only [List.length_cons]
    omega
  | case4 d s hd => simp [formatPlain, hd] at h
  | case5 c d s hc ih =>
    rw [formatPlain_cons hc] at h
    obtain ⟨u, hu, rfl⟩ := map_eq_ok.mp h
    have := ih hu
    refine ⟨by simpa using this.1, fun hm => ?_⟩
    have hm' : (37 : Byte) ∈ d :: s := by
      rcases List.mem_cons.mp hm with rfl | hm
      · exact absurd rfl hc
      · exact hm
    simpa using this.2 hm'
  | case6 c hc =>
    have hc' : c ≠ 37 := fun he => hc (by simp [he])
    rw [formatPlain_cons hc'] at h
    obtain rfl : [c] = t := by simpa [formatPlain, Except.map] using h
    simpa using Ne.symm hc'

theorem mem_of_formatPlain {s t : Bytes} (h : formatPlain s = .ok t) : ∀ c ∈ t, c ∈ s := by
  induction s using formatPlain.induct generalizing t with
  | case1 =>
    obtain rfl : [] = t := by simpa [formatPlain] using h
    simp
  | case2 => simp [formatPlain] at h
  | case3 s ih =>
    simp only [formatPlain, if_true] at h
    obtain ⟨u, hu, rfl⟩ := map_eq_ok.mp h
    intro c hc
    rcases List.mem_cons.mp hc with rfl | hc
    · simp
    · simp [ih hu c hc]
  | case4 d s hd => simp [formatPlain, hd] at h
  | case5 c d s hc ih =>
    rw [formatPlain_cons hc] at h
    obtain ⟨u, hu, rfl⟩ := map_eq_ok.mp h
    intro e he
    rcases List.mem_cons.mp he with rfl | he
    · simp
    · exact List.mem_cons_of_mem _ (ih hu e he)
  | case6 c hc =>
    have hc' : c ≠ 37 := fun he => hc (by simp [he])
    rw [formatPlain_cons hc'] at h
    obtain rfl : [c] = t := by simpa [formatPlain, Except.map] using h
    simp

/-- Where no key stands twice, a key is looked up to what stands with it. -/
theorem lookup_eq_some_of_nodup {α β : Type*} [BEq α] [LawfulBEq α] {kvs : List (α × β)}
    (hkeys : (kvs.map Prod.fst).Nodup) {key : α} {val : β} : kvs.lookup key = some val ↔ (key, val) ∈ kvs := by
  induction kvs with
  | nil => simp
  | cons kv kvs ih =>
    obtain ⟨hnew, hkeys⟩ := List.nodup_cons.mp hkeys
    rw [List.lookup_cons, List.mem_cons]
    by_cases hkey : key = kv.1
    · have hother : (key, val) ∉ kvs := fun hmem => hnew (hkey ▸ List.mem_map_of_mem (f := Prod.fst) hmem)
      rw [beq_iff_eq.mpr hkey, or_iff_left hother, Option.some.injEq, Prod.ext_iff, eq_comm]
      exact (and_iff_right hkey).symm
    · have hhead : (key, val) ≠ kv := fun heq => hkey (congrArg Prod.fst heq)
      rw [beq_eq_false_iff_ne.mpr hkey, or_iff_right hhead]
      exact ih hkeys

end StdText
