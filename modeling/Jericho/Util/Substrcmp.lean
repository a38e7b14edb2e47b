import Mathlib.Data.Int.Order.Basic
import Mathlib.Data.List.Lex
import Jericho.Library.StdText

/-! `prizm::substrcmp`, the comparison that sorts the list of traced names. -/
namespace Jericho.Util
open StdText

/-- A `char` is signed. -/
def charVal (c : Byte) : Int := c.toInt8.toInt

/-- The inner loop returns from the function, or leaves the variables of the outer one. -/
inductive Compared where
  | returned (first second : Int)
  | looped (i result : Nat)

/-- The inner loop, over the characters of `s2` from `j` on. While they match it moves `i` itself. The counters are of
type `int`; `j` never gets ahead of `result`. -/
def innerCompare (s1 s2 : Bytes) : Bytes → Nat → Nat → Exec Compared
  | [], i, result => .ok (.looped i result)
  | c2 :: rest, i, result =>
    match s1[i]? with
    | none => .error .outOfRange
    | some c1 =>
      if c1 = c2 then
        if ¬ (inInt (result + 1) ∧ inInt (i + 1)) then .error .undefined
        else
          let result := result + 1
          if ¬ i < s1.length - 1 ∧ s2.length > i + 1 ∧ s2.take (i + 1) = s1 then .ok (.returned (-1) result)
          else
            let i := if i < s1.length - 1 then i + 1 else i
            if result = s2.length ∧ s1.length = s2.length then .ok (.returned 0 result)
            else if s1.take i = s2 then .ok (.returned 1 result)
            else innerCompare s1 s2 rest i result
      else if charVal c1 < charVal c2 then .ok (.returned (-1) result)
      else .ok (.returned 1 result)

/-- The outer loop. It goes round at most once for each character of `s1`. -/
def outerCompare (s1 s2 : Bytes) : Nat → Nat → Nat → Exec (Int × Int)
  | 0, _, result => .ok (-1, result)
  | rounds + 1, i, result =>
    if i < s1.length then
      match innerCompare s1 s2 s2 i result with
      | .error fault => .error fault
      | .ok (.returned first second) => .ok (first, second)
      | .ok (.looped i result) =>
        if inInt (i + 1) then outerCompare s1 s2 rounds (i + 1) result else .error .undefined
    else .ok (-1, result)

def substrcmp (s1 s2 : Bytes) : Exec (Int × Int) := outerCompare s1 s2 s1.length 0 0

/-- The values that are compared. -/
def chars (s : Bytes) : List Int := s.map charVal

/-- Minus one, zero or one as the first of two strings is less, equal or greater. -/
def lexSign (s1 s2 : Bytes) : Int :=
  if chars s1 < chars s2 then -1 else if chars s2 < chars s1 then 1 else 0

/-- The length of the longest common prefix. -/
def commonLength : Bytes → Bytes → Nat
  | a :: s, b :: t => if a = b then commonLength s t + 1 else 0
  | _, _ => 0

theorem charVal_injective : Function.Injective charVal := by
  intro a b h
  exact congrArg Int8.toUInt8 (Int8.toInt_inj.mp h)

theorem chars_injective : Function.Injective chars := charVal_injective.list_map

theorem chars_cons_lt_self (a : Byte) (s t : Bytes) : chars (a :: s) < chars (a :: t) ↔ chars s < chars t := by
  unfold chars
  rw [List.map_cons, List.map_cons, List.cons_lt_cons_iff]
  simp

theorem lexSign_cons_self (a : Byte) (s t : Bytes) : lexSign (a :: s) (a :: t) = lexSign s t :=
  if_congr (chars_cons_lt_self a s t) rfl (if_congr (chars_cons_lt_self a t s) rfl rfl)

theorem lexSign_cons_lt {a b : Byte} (h : charVal a < charVal b) (s t : Bytes) : lexSign (a :: s) (b :: t) = -1 :=
  if_pos (List.cons_lt_cons_iff.mpr (.inl h))

theorem lexSign_cons_gt {a b : Byte} (h : charVal b < charVal a) (s t : Bytes) : lexSign (a :: s) (b :: t) = 1 := by
  have hgt : chars (b :: t) < chars (a :: s) := List.cons_lt_cons_iff.mpr (.inl h)
  unfold lexSign
  rw [if_neg hgt.not_gt, if_pos hgt]

theorem lexSign_nil_cons (b : Byte) (t : Bytes) : lexSign [] (b :: t) = -1 := if_pos (List.nil_lt_cons _ _)

theorem lexSign_cons_nil (a : Byte) (s : Bytes) : lexSign (a :: s) [] = 1 := by
  have hgt : chars [] < chars (a :: s) := List.nil_lt_cons _ _
  unfold lexSign
  rw [if_neg hgt.not_gt, if_pos hgt]

theorem lexSign_eq_neg_one {s t : Bytes} : lexSign s t = -1 ↔ chars s < chars t := by
  unfold lexSign
  split_ifs <;> simp [*]

theorem lexSign_eq_zero {s t : Bytes} : lexSign s t = 0 ↔ s = t := by
  unfold lexSign
  split_ifs with hlt hgt
  · refine iff_of_false (by decide) ?_
    rintro rfl
    exact lt_irrefl _ hlt
  · refine iff_of_false (by decide) ?_
    rintro rfl
    exact lt_irrefl _ hgt
  · exact iff_of_true rfl (chars_injective (le_antisymm (not_lt.mp hgt) (not_lt.mp hlt)))

theorem lexSign_eq_one {s t : Bytes} : lexSign s t = 1 ↔ chars t < chars s := by
  unfold lexSign
  split_ifs with hlt hgt
  · exact iff_of_false (by decide) hlt.not_gt
  · exact iff_of_true rfl hgt
  · exact iff_of_false (by decide) hgt

/-- What a round does after a match, at the place up to which the strings agree: it returns at the end of a string,
and both indices advance otherwise. -/
theorem matched_eq (p : Bytes) (a : Byte) (s t : Bytes) (go : Nat → Exec Compared) :
    (if ¬ p.length < (p ++ a :: s).length - 1 ∧ (p ++ a :: t).length > p.length + 1 ∧
        (p ++ a :: t).take (p.length + 1) = p ++ a :: s then .ok (.returned (-1) (p.length + 1 : ℕ))
      else if p.length + 1 = (p ++ a :: t).length ∧ (p ++ a :: s).length = (p ++ a :: t).length then
        .ok (.returned 0 (p.length + 1 : ℕ))
      else if (p ++ a :: s).take (if p.length < (p ++ a :: s).length - 1 then p.length + 1 else p.length) =
        p ++ a :: t then .ok (.returned 1 (p.length + 1 : ℕ))
      else go (if p.length < (p ++ a :: s).length - 1 then p.length + 1 else p.length)) =
    if s = [] ∨ t = [] then .ok (.returned (lexSign s t) (p.length + 1 : ℕ)) else go (p.length + 1) := by
  have htake : ∀ r : Bytes, (p ++ a :: r).take (p.length + 1) = p ++ [a] := by simp [List.take_append]
  cases s with
  | nil =>
    have hlast : ¬ p.length < (p ++ [a]).length - 1 := by simp
    have hend : ([] : Bytes) = [] ∨ t = [] := .inl rfl
    rw [if_pos hend]
    cases t with
    | nil =>
      -- the strings end together
      rw [if_neg (by simp), if_pos (by simp), lexSign_eq_zero.mpr rfl]
    | cons c t =>
      -- the second string goes on
      rw [if_pos ⟨hlast, by simp, htake _⟩, lexSign_nil_cons]
  | cons d s =>
    have hmore : p.length < (p ++ a :: d :: s).length - 1 := by simp
    rw [if_neg (fun h => h.1 hmore), if_pos hmore]
    cases t with
    | nil =>
      -- the first string goes on
      rw [if_neg (by simp), if_pos (htake _), if_pos (.inr rfl), lexSign_cons_nil]
    | cons c t =>
      have hlonger : (p ++ a :: d :: s).take (p.length + 1) ≠ p ++ a :: c :: t := by
        rw [htake]
        simp
      rw [if_neg (by simp), if_neg hlonger, if_neg (by simp)]

theorem commonLength_cons_self (a : Byte) (s t : Bytes) : commonLength (a :: s) (a :: t) = commonLength s t + 1 :=
  if_pos rfl

theorem commonLength_cons_ne {a b : Byte} (h : a ≠ b) (s t : Bytes) : commonLength (a :: s) (b :: t) = 0 := if_neg h

theorem commonLength_nil {s t : Bytes} (h : s = [] ∨ t = []) : commonLength s t = 0 := by
  rcases h with rfl | rfl
  · rfl
  · cases s <;> rfl

/-- At a mismatch the characters decide. -/
theorem mismatch_eq {a b : Byte} (hab : a ≠ b) (s t : Bytes) (result : Nat) :
    (if charVal a < charVal b then .ok (.returned (-1) result) else .ok (.returned 1 result) : Exec Compared) =
      .ok (.returned (lexSign (a :: s) (b :: t)) result) := by
  by_cases hlt : charVal a < charVal b
  · rw [if_pos hlt, lexSign_cons_lt hlt]
  · have hgt : charVal b < charVal a :=
      lt_of_le_of_ne (not_lt.mp hlt) fun heq => hab (charVal_injective heq).symm
    rw [if_neg hlt, lexSign_cons_gt hgt]

/-- From a place up to which the strings agree the inner loop returns, unless their common prefix is longer
than an `int` can count. -/
theorem innerCompare_spec (p : Bytes) (a b : Byte) (s t : Bytes) (hp : p.length < 2 ^ 31) :
    innerCompare (p ++ a :: s) (p ++ b :: t) (b :: t) p.length p.length =
      if p.length + commonLength (a :: s) (b :: t) < 2 ^ 31 then
        .ok (.returned (lexSign (a :: s) (b :: t)) (p.length + commonLength (a :: s) (b :: t) : ℕ))
      else .error .undefined := by
  have hget : (p ++ a :: s)[p.length]? = some a := by simp
  unfold innerCompare
  rw [hget]
  dsimp only
  by_cases hab : a = b
  · subst hab
    rw [if_pos rfl, lexSign_cons_self, commonLength_cons_self]
    by_cases hfits : inInt ((p.length : Int) + 1)
    · rw [if_neg (not_not_intro ⟨hfits, hfits⟩),
        matched_eq p a s t fun i => innerCompare (p ++ a :: s) (p ++ a :: t) t i (p.length + 1)]
      unfold inInt at hfits
      by_cases hend : s = [] ∨ t = []
      · rw [if_pos hend, commonLength_nil hend, if_pos (by omega)]
      · obtain ⟨hs, ht⟩ := not_or.mp hend
        obtain ⟨d, s, rfl⟩ := List.exists_cons_of_ne_nil hs
        obtain ⟨c, t, rfl⟩ := List.exists_cons_of_ne_nil ht
        have hrest := innerCompare_spec (p ++ [a]) d c s t (by simp; omega)
        simp only [List.append_assoc, List.singleton_append, List.length_append, List.length_singleton] at hrest
        rw [if_neg hend, hrest, Nat.add_right_comm, Nat.add_assoc]
    · rw [if_pos (fun h => hfits h.1), if_neg]
      unfold inInt at hfits
      omega
  · rw [if_neg hab, mismatch_eq hab s t, commonLength_cons_ne hab, Nat.add_zero, if_pos hp]
termination_by s.length

/-- The comparison is that of the lexicographic order, with the length of the common prefix, as far as that is
counted. -/
theorem substrcmp_eq {s1 s2 : Bytes} (h1 : s1 ≠ []) (h2 : s2 ≠ []) :
    substrcmp s1 s2 =
      if commonLength s1 s2 < 2 ^ 31 then .ok (lexSign s1 s2, (commonLength s1 s2 : ℕ)) else .error .undefined := by
  obtain ⟨a, s, rfl⟩ := List.exists_cons_of_ne_nil h1
  obtain ⟨b, t, rfl⟩ := List.exists_cons_of_ne_nil h2
  have hinner := innerCompare_spec [] a b s t (by decide)
  rw [List.nil_append, List.nil_append, List.length_nil, Nat.zero_add] at hinner
  unfold substrcmp
  rw [List.length_cons]
  unfold outerCompare
  rw [if_pos (List.length_pos_of_ne_nil h1), hinner]
  split_ifs <;> rfl

end Jericho.Util
