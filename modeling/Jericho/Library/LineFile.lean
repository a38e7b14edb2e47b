import Jericho.Library.Occurrence

/-! Texts in which every line has its end, and the search for a pattern that stays within a line. -/
namespace LineFile
open Occurrence
variable {α : Type*} {nl : α} {line : List α} {lines before : List (List α)}

/-- The lines, each with its end. -/
def text (nl : α) (lines : List (List α)) : List α := lines.flatMap fun line => line ++ [nl]

@[simp]
theorem text_nil : text nl [] = [] := rfl

theorem text_cons (line : List α) (lines : List (List α)) : text nl (line :: lines) = line ++ nl :: text nl lines := by
  rw [text, List.flatMap_cons, List.append_assoc]
  rfl

theorem text_append (before lines : List (List α)) : text nl (before ++ lines) = text nl before ++ text nl lines :=
  List.flatMap_append

theorem text_concat (lines : List (List α)) (line : List α) :
    text nl (lines ++ [line]) = text nl lines ++ line ++ [nl] := by
  rw [text_append, text_cons, text_nil, List.append_assoc]

theorem mem_text {x : α} (hx : x ≠ nl) : x ∈ text nl lines ↔ ∃ line ∈ lines, x ∈ line := by
  unfold text
  rw [List.mem_flatMap]
  refine exists_congr fun line => and_congr_right fun _ => ?_
  rw [List.mem_append, List.mem_singleton]
  exact or_iff_left hx

/-- A pattern does not reach over the end of a line. -/
theorem prefix_of_prefix_line {pat rest : List α} (hpat : nl ∉ pat) (h : pat <+: line ++ nl :: rest) :
    pat <+: line := by
  rcases Nat.lt_or_ge line.length pat.length with hlt | hle
  · have hthrough : line ++ [nl] <+: line ++ nl :: rest :=
      (List.prefix_append_right_inj line).mpr (List.cons_prefix_cons.mpr ⟨rfl, List.nil_prefix⟩)
    have hend : line ++ [nl] <+: pat := by
      refine List.prefix_of_prefix_length_le hthrough h ?_
      rw [List.length_append]
      exact hlt
    exact absurd (hend.subset (List.mem_append_right line (List.mem_singleton_self nl))) hpat
  · exact List.prefix_of_prefix_length_le h (List.prefix_append line _) hle

section Find
variable [DecidableEq α] {pat : List α} (hpat : nl ∉ pat)

include hpat

/-- A line without the pattern is passed over. -/
theorem find_line (hne : pat ≠ []) {line : List α} (hline : ¬ pat <:+: line) (rest : List α) :
    find pat (line ++ nl :: rest) = (find pat rest).map (· + (line.length + 1)) := by
  induction line with
  | nil =>
    refine find_cons fun hpre => hne ?_
    exact List.prefix_nil.mp (prefix_of_prefix_line hpat hpre)
  | cons c line ih =>
    have hpre : ¬ pat <+: c :: (line ++ nl :: rest) := fun h => hline (prefix_of_prefix_line hpat h).isInfix
    have hrest : ¬ pat <:+: line := fun h => hline (h.trans (List.suffix_cons c line).isInfix)
    rw [List.cons_append, find_cons hpre, ih hrest, Option.map_map]
    rfl

/-- Lines without the pattern are passed over. -/
theorem find_lines (hne : pat ≠ []) (hbefore : ∀ line ∈ before, ¬ pat <:+: line) (rest : List α) :
    find pat (text nl before ++ rest) = (find pat rest).map (· + (text nl before).length) := by
  induction before with
  | nil => exact Option.map_id'.symm
  | cons line before ih =>
    obtain ⟨hline, hbefore⟩ := List.forall_mem_cons.mp hbefore
    rw [text_cons, List.append_assoc, List.cons_append, find_line hpat hne hline, ih hbefore, Option.map_map]
    refine congrArg (fun f => (find pat rest).map f) (funext fun n => ?_)
    rw [List.length_append, List.length_cons]
    exact (Nat.add_assoc n _ _).trans (congrArg (n + ·) (Nat.add_left_comm _ _ _))

theorem find_none (hne : pat ≠ []) (hlines : ∀ line ∈ lines, ¬ pat <:+: line) : find pat (text nl lines) = none := by
  have h := find_lines hpat hne hlines []
  rw [List.append_nil] at h
  rw [h, Option.map_eq_none_iff, find_eq_none_iff, List.infix_nil]
  exact hne

/-- The pattern is found where its line starts. -/
theorem find_start (hne : pat ≠ []) (hbefore : ∀ line ∈ before, ¬ pat <:+: line) (rest : List α) :
    find pat (text nl before ++ (pat ++ rest)) = some (text nl before).length := by
  rw [find_lines hpat hne hbefore, find_eq_zero (List.prefix_append pat rest), Option.map_some, Nat.zero_add]

end Find

/-- The end of a line is found behind it. -/
theorem find_end [DecidableEq α] (hline : nl ∉ line) (rest : List α) :
    find [nl] (line ++ nl :: rest) = some line.length := by
  rw [find_append_of_notMem hline, find_eq_zero (List.cons_prefix_cons.mpr ⟨rfl, List.nil_prefix⟩), Option.map_some,
    Nat.zero_add]

end LineFile
