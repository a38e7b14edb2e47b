import Jericho.Library.Base64

/-! The base64 encoder in C, which writes lines. -/
namespace Jericho.Crypt
open StdText

/-- The loop of `base64_encode`, three bytes a round, and what comes behind it. A line is broken at 72 characters,
and the last one is ended. -/
def base64Lines : Nat → Bytes → Bytes
  | lineLen, [] => if lineLen ≠ 0 then [10] else []
  | _, [a] => Base64.encode [a] ++ [10]
  | _, [a, b] => Base64.encode [a, b] ++ [10]
  | lineLen, a :: b :: c :: rest =>
    Base64.encode [a, b, c] ++
      if 72 ≤ lineLen + 4 then 10 :: base64Lines 0 rest else base64Lines (lineLen + 4) rest

/-- `base64_encode` -/
def base64Encode (src : Bytes) : Bytes := base64Lines 0 src

/-- What fits into one line is the encoding with a line feed. -/
theorem base64Lines_eq {lineLen : Nat} {src : Bytes} (hne : lineLen ≠ 0 ∨ src ≠ [])
    (h : lineLen + (Base64.encode src).length < 72) : base64Lines lineLen src = Base64.encode src ++ [10] := by
  induction src using Base64.encode.induct generalizing lineLen with
  | case1 =>
    have hline : lineLen ≠ 0 := hne.elim id (fun h => absurd rfl h)
    rw [base64Lines, if_pos hline]
    rfl
  | case2 a => rfl
  | case3 a b => rfl
  | case4 a b c rest ih =>
    have hencode : Base64.encode (a :: b :: c :: rest) = Base64.encode [a, b, c] ++ Base64.encode rest := rfl
    have hfour : (Base64.encode [a, b, c]).length = 4 := rfl
    rw [hencode, List.length_append, hfour] at h
    rw [base64Lines, if_neg (by omega), ih (.inl (by omega)) (by omega), hencode, List.append_assoc]

end Jericho.Crypt
