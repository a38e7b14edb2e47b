import Mathlib.Data.List.Sigma
import Jericho.Library.Occurrence

/-! Texts of pairs: pieces between separators, each cut at its first sign. -/
namespace QueryText
variable {α : Type*} [DecidableEq α] (sep sign : α)

/-- A piece cut at its first sign. -/
def pair (piece : List α) : Option (Sigma fun _ : List α => List α) :=
  if sign ∈ piece then some ⟨piece.takeWhile (· ≠ sign), (piece.dropWhile (· ≠ sign)).tail⟩ else none

/-- The pairs of a text. A piece without a sign is none. -/
def pairs (s : List α) : List (Sigma fun _ : List α => List α) := (s.splitOn sep).filterMap (pair sign)

theorem find_singleton (c : α) (s : List α) :
    Occurrence.find [c] s = if c ∈ s then some (s.takeWhile (· ≠ c)).length else none := by
  induction s with
  | nil => rfl
  | cons d s ih =>
    by_cases hd : d = c
    · subst hd
      have hfirst : Occurrence.find [d] (d :: s) = some 0 := Occurrence.find_eq_zero (List.prefix_append [d] s)
      rw [hfirst, if_pos List.mem_cons_self, List.takeWhile_cons_of_neg (by simp)]
      rfl
    · have hno : ¬ [c] <+: d :: s := by
        rintro ⟨t, ht⟩
        exact hd (List.cons.inj ht).1.symm
      have hmem : c ∈ d :: s ↔ c ∈ s := by simp [Ne.symm hd]
      rw [Occurrence.find_cons hno, ih, List.takeWhile_cons_of_pos (by simpa using hd)]
      simp only [hmem]
      split_ifs <;> rfl

omit [DecidableEq α] in
theorem take_takeWhile_length (p : α → Bool) (s : List α) : s.take (s.takeWhile p).length = s.takeWhile p := by
  have hcut : s.takeWhile p ++ s.dropWhile p = s := List.takeWhile_append_dropWhile
  exact (congrArg (List.take _) hcut.symm).trans List.take_left

omit [DecidableEq α] in
theorem drop_takeWhile_length (p : α → Bool) (s : List α) :
    s.drop ((s.takeWhile p).length + 1) = (s.dropWhile p).tail := by
  have hcut : s.takeWhile p ++ s.dropWhile p = s := List.takeWhile_append_dropWhile
  rw [← List.tail_drop]
  exact congrArg List.tail ((congrArg (List.drop _) hcut.symm).trans List.drop_left)

/-- A text that has the sign is cut in two by it. -/
theorem eq_cut {s : List α} (h : sign ∈ s) :
    s = s.takeWhile (· ≠ sign) ++ sign :: (s.dropWhile (· ≠ sign)).tail := by
  induction s with
  | nil => cases h
  | cons c s ih =>
    by_cases hc : c = sign
    · subst hc
      rw [List.takeWhile_cons_of_neg (by simp), List.dropWhile_cons_of_neg (by simp)]
      rfl
    · have hs : sign ∈ s := (List.mem_cons.mp h).resolve_left (Ne.symm hc)
      rw [List.takeWhile_cons_of_pos (by simpa using hc), List.dropWhile_cons_of_pos (by simpa using hc),
        List.cons_append, ← ih hs]

/-- The parts of a text that was put together around a sign. -/
theorem cut_append {a : List α} (h : sign ∉ a) (b : List α) :
    (a ++ sign :: b).takeWhile (· ≠ sign) = a ∧ ((a ++ sign :: b).dropWhile (· ≠ sign)).tail = b := by
  have ha : ∀ c ∈ a, decide (c ≠ sign) = true := fun c hc => decide_eq_true fun heq => h (heq ▸ hc)
  rw [List.takeWhile_append_of_pos ha, List.dropWhile_append_of_pos ha, List.takeWhile_cons_of_neg (by simp),
    List.dropWhile_cons_of_neg (by simp), List.append_nil]
  exact ⟨rfl, rfl⟩

/-- The cut by a search for the sign. -/
theorem pair_eq_find (piece : List α) :
    pair sign piece = (Occurrence.find [sign] piece).map fun p => ⟨piece.take p, piece.drop (p + 1)⟩ := by
  rw [find_singleton, pair]
  split_ifs
  · rw [Option.map_some, take_takeWhile_length, drop_takeWhile_length]
  · rfl

/-- Pieces with nothing in them make no difference. -/
theorem pairs_eq_nonempty (s : List α) :
    pairs sep sign s = ((s.splitOn sep).filter (· ≠ [])).filterMap (pair sign) := by
  unfold pairs
  rw [List.filterMap_filter]
  refine List.filterMap_congr fun piece _ => ?_
  by_cases hpiece : piece = []
  · subst hpiece
    rfl
  · rw [if_pos (by simpa using hpiece)]

/-- The text of some pieces, the last one without a separator behind it. -/
theorem eq_of_splitOn {s last : List α} {front : List (List α)} (h : s.splitOn sep = front ++ [last]) :
    s = front.flatMap (· ++ [sep]) ++ last := by
  have hjoin : ∀ front : List (List α), [sep].intercalate (front ++ [last]) = front.flatMap (· ++ [sep]) ++ last := by
    intro front
    induction front with
    | nil => exact List.append_nil last
    | cons piece front ih =>
      obtain ⟨next, rest, hrest⟩ := List.exists_cons_of_ne_nil (List.append_ne_nil_of_right_ne_nil front
        (List.cons_ne_nil last []))
      rw [hrest] at ih
      rw [List.cons_append, hrest, List.intercalate_cons_cons, ih, List.flatMap_cons]
      simp only [List.append_assoc]
  rw [← hjoin, ← h]
  exact (List.intercalate_splitOn sep).symm

end QueryText
