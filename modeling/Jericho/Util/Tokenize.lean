import Jericho.Library.Occurrence
import Jericho.Library.StdText

/-! The two `Jericho::tokenize`, one over a stream and one with two cursors. Their loops are given a
number of rounds, and have no result while these do not suffice. -/
namespace Jericho.Util
open StdText

/-- `std::getline` on what is left of a stream. It fails where no character is left, and takes the
delimiter with the line. -/
def getline (delim : Byte) (ss : Bytes) : Option (Bytes × Bytes) :=
  if ss = [] then none
  else some (ss.takeWhile (· ≠ delim), (ss.dropWhile (· ≠ delim)).drop 1)

def tokenizeCharLoop (delim : Byte) : Nat → Bytes → List Bytes → Option (List Bytes)
  | 0, _, _ => none
  | rounds + 1, ss, words =>
    match getline delim ss with
    | none => some words
    | some (word, ss) => tokenizeCharLoop delim rounds ss (if word ≠ [] then words ++ [word] else words)

/-- `tokenize(std::string, char)` -/
def tokenizeChar (rounds : Nat) (s : Bytes) (delim : Byte) : Option (List Bytes) :=
  tokenizeCharLoop delim rounds s []

/-- `find` from a position on; `none` is `npos`. -/
def findFrom (s pat : Bytes) (pos : Nat) : Option Nat :=
  if pos ≤ s.length then (Occurrence.find pat (s.drop pos)).map (pos + ·) else none

/-- `substr(last, next - last)`. If `next` is `npos`, the count is more than any string has left. -/
def substrTo (s : Bytes) (last : Nat) (next : Option Nat) : Exec Bytes :=
  if last ≤ s.length then
    .ok (match next with
      | some next => (s.drop last).take (next - last)
      | none => s.drop last)
  else .error .outOfRange

/-- The pieces with one more, unless it is empty. -/
def pushPiece (s : Bytes) (last : Nat) (next : Option Nat) (result : List Bytes) : Exec (List Bytes) := do
  let piece ← substrTo s last next
  return if piece ≠ [] then result ++ [piece] else result

def tokenizeStrLoop (s delim : Bytes) : Nat → Nat → List Bytes → Option (Exec (List Bytes))
  | 0, _, _ => none
  | rounds + 1, last, result =>
    match findFrom s delim last with
    | some next =>
      match pushPiece s last (some next) result with
      | .error fault => some (.error fault)
      | .ok result => tokenizeStrLoop s delim rounds (next + delim.length) result
    | none => some (pushPiece s last none result)

/-- `tokenize(std::string, std::string)` -/
def tokenizeStr (rounds : Nat) (s delim : Bytes) : Option (Exec (List Bytes)) :=
  tokenizeStrLoop s delim rounds 0 []

theorem pushPiece_eq {s : Bytes} {last : Nat} (h : last ≤ s.length) (next : Option Nat) (result : List Bytes) :
    pushPiece s last next result =
      .ok (result ++ [match next with
        | some next => (s.drop last).take (next - last)
        | none => s.drop last].filter (· ≠ [])) := by
  unfold pushPiece substrTo
  rw [if_pos h]
  cases next with
  | none => by_cases hne : s.drop last = [] <;> simp [hne, bind, Except.bind, pure, Except.pure]
  | some next =>
    by_cases hne : (s.drop last).take (next - last) = [] <;> simp [hne, bind, Except.bind, pure, Except.pure]

/-- With a delimiter the loop advances, and what it collects are the tokens of what it has passed. -/
theorem tokenizeStrLoop_eq {s delim : Bytes} (hd : delim ≠ []) {rounds last : Nat} (hlast : last ≤ s.length)
    (hrounds : s.length - last < rounds) (result : List Bytes) :
    tokenizeStrLoop s delim rounds last result = some (.ok (result ++ Occurrence.tokens delim (s.drop last))) := by
  have hpos := List.length_pos_iff.mpr hd
  induction rounds generalizing last result with
  | zero => omega
  | succ rounds ih =>
    unfold tokenizeStrLoop findFrom
    rw [if_pos hlast]
    cases hf : Occurrence.find delim (s.drop last) with
    | none =>
      rw [Option.map_none]
      dsimp only
      rw [pushPiece_eq hlast, Occurrence.tokens, Occurrence.split_of_notMem (Occurrence.find_eq_none_iff.mp hf)]
    | some n =>
      have hle := Occurrence.find_le hf
      rw [List.length_drop] at hle
      rw [Option.map_some]
      dsimp only
      rw [pushPiece_eq hlast]
      dsimp only
      rw [ih (by omega) (by omega), Nat.add_sub_cancel_left, Occurrence.tokens_of_find hd hf, List.drop_drop,
        List.append_assoc, Nat.add_assoc]
      by_cases hne : (s.drop last).take n = [] <;> simp [hne]

theorem tokenizeStr_eq {s delim : Bytes} (hd : delim ≠ []) {rounds : Nat} (h : s.length < rounds) :
    tokenizeStr rounds s delim = some (.ok (Occurrence.tokens delim s)) :=
  tokenizeStrLoop_eq hd (Nat.zero_le _) h []

/-- A line that is read is a token, unless it is empty. -/
theorem tokens_getline {delim : Byte} {ss word rest : Bytes} (h : getline delim ss = some (word, rest)) :
    Occurrence.tokens [delim] ss = [word].filter (· ≠ []) ++ Occurrence.tokens [delim] rest ∧
      rest.length < ss.length := by
  unfold getline at h
  split_ifs at h with hne
  obtain ⟨rfl, rfl⟩ := Prod.mk.inj (Option.some.inj h)
  by_cases hmem : delim ∈ ss
  · obtain ⟨a, b, rfl, ha⟩ := List.eq_append_cons_of_mem hmem
    have hall : ∀ c ∈ a, decide (c ≠ delim) = true := fun c hc => decide_eq_true fun heq => ha (heq ▸ hc)
    rw [List.takeWhile_append_of_pos hall, List.dropWhile_append_of_pos hall]
    simp [Occurrence.tokens_append_cons ha]
    omega
  · have hall : ∀ c ∈ ss, decide (c ≠ delim) = true := fun c hc => decide_eq_true fun heq => hmem (heq ▸ hc)
    rw [List.takeWhile_eq_self_iff.mpr hall, List.dropWhile_eq_nil_iff.mpr hall, Occurrence.tokens_of_notMem hmem]
    exact ⟨by simp [Occurrence.tokens_of_notMem], List.length_pos_iff.mpr hne⟩

theorem tokenizeCharLoop_eq {delim : Byte} {rounds : Nat} {ss : Bytes} (h : ss.length < rounds) (words : List Bytes) :
    tokenizeCharLoop delim rounds ss words = some (words ++ Occurrence.tokens [delim] ss) := by
  induction rounds generalizing ss words with
  | zero => omega
  | succ rounds ih =>
    unfold tokenizeCharLoop
    cases hline : getline delim ss with
    | none =>
      obtain rfl : ss = [] := by
        unfold getline at hline
        split_ifs at hline with hnil
        exact hnil
      simp [Occurrence.tokens_of_notMem]
    | some line =>
      obtain ⟨word, rest⟩ := line
      obtain ⟨htokens, hlt⟩ := tokens_getline hline
      dsimp only
      rw [ih (by omega), htokens, ← List.append_assoc]
      by_cases hne : word = [] <;> simp [hne]

/-- Both tokenizers end and return the non-empty pieces of the leftmost cut at the delimiter. -/
theorem tokenize_agree :
    (∀ s delim : Bytes, delim ≠ [] → ∃ pieces, Occurrence.Cut delim s pieces ∧ (∀ p ∈ pieces, ¬ delim <:+: p) ∧
      ∀ rounds, s.length < rounds → tokenizeStr rounds s delim = some (.ok (pieces.filter (· ≠ [])))) ∧
    ∀ (s : Bytes) (c : Byte), ∃ words, ∀ rounds, s.length < rounds →
      tokenizeChar rounds s c = some words ∧ tokenizeStr rounds s (List.replicate 1 c) = some (.ok words) := by
  constructor
  · intro s delim hd
    have hcut := Occurrence.cut_split hd s
    exact ⟨_, hcut, hcut.notInfix, fun rounds h => tokenizeStr_eq hd h⟩
  · intro s c
    refine ⟨Occurrence.tokens [c] s, fun rounds h => ⟨?_, ?_⟩⟩
    · exact tokenizeCharLoop_eq h []
    · exact tokenizeStr_eq (List.cons_ne_nil c []) h

/-- A text with delimiters in a row and at its end. -/
theorem tokenize_agree_path :
    ∃ pieces, Occurrence.Cut (lit "/") (lit "//cluster/a/") pieces ∧ (∀ p ∈ pieces, ¬ lit "/" <:+: p) ∧
      ∀ rounds, (lit "//cluster/a/").length < rounds →
        tokenizeStr rounds (lit "//cluster/a/") (lit "/") = some (.ok (pieces.filter (· ≠ []))) :=
  tokenize_agree.1 _ _ (by decide)

end Jericho.Util
