import Jericho.Library.Occurrence
import Mathlib.Data.List.Lemmas
import Mathlib.Tactic.SplitIfs

/-! Texts made of lines with a two-character line end between them, and searches that start at a line. -/
namespace TextLines
variable {α : Type*} [DecidableEq α] {cr lf : α}

/-- The lines with the line end between them. -/
def text (cr lf : α) (lines : List (List α)) : List α := [cr, lf].intercalate lines

omit [DecidableEq α] in
theorem text_cons_cons (first next : List α) (lines : List (List α)) :
    text cr lf (first :: next :: lines) = first ++ cr :: lf :: text cr lf (next :: lines) := by
  unfold text
  rw [List.intercalate_cons_cons, List.append_assoc]
  rfl

omit [DecidableEq α] in
theorem text_singleton (line : List α) : text cr lf [line] = line := List.intercalate_singleton

omit [DecidableEq α] in
theorem text_cons (line : List α) (lines : List (List α)) :
    ∃ rest, text cr lf (line :: lines) = line ++ rest ∧ (rest = [] ∨ rest.head? = some cr) := by
  cases lines with
  | nil => exact ⟨[], by rw [text_singleton, List.append_nil], .inl rfl⟩
  | cons next lines => exact ⟨_, text_cons_cons line next lines, .inr rfl⟩

omit [DecidableEq α] in
/-- A name without the line end starts a text if it starts its first line. -/
theorem prefix_text_iff {name : List α} (hname : cr ∉ name) (first : List α) (lines : List (List α)) :
    name <+: text cr lf (first :: lines) ↔ name <+: first := by
  cases lines with
  | nil => rw [text_singleton]
  | cons next lines =>
    rw [text_cons_cons]
    constructor
    · rintro ⟨t, ht⟩
      rcases List.append_eq_append_iff.mp ht with ⟨a, rfl, -⟩ | ⟨a, rfl, ha⟩
      · exact List.prefix_append name a
      · cases a with
        | nil => rw [List.append_nil]
        | cons c a =>
          obtain rfl := (List.cons.inj ha).1
          exact absurd (List.mem_append_right _ List.mem_cons_self) hname
    · exact fun h => h.trans (List.prefix_append _ _)

/-- A search for a name behind a line end finds the first line, after the very first, that starts with it. -/
theorem find_line {name : List α} (hcr : cr ≠ lf) (hname : cr ∉ name) (first : List α) (lines : List (List α))
    (hfree : ∀ line ∈ first :: lines, lf ∉ line) :
    (Occurrence.find (lf :: name) (text cr lf (first :: lines))).map
        (fun n => (text cr lf (first :: lines)).drop (n + 1)) =
      if lines.any (name.isPrefixOf ·) then some (text cr lf (lines.dropWhile (! name.isPrefixOf ·))) else none := by
  induction lines generalizing first with
  | nil =>
    have hnone : Occurrence.find (lf :: name) (text cr lf [first]) = none := by
      rw [text_singleton, Occurrence.find_eq_none_iff]
      exact fun hin => hfree first List.mem_cons_self (hin.subset List.mem_cons_self)
    rw [hnone]
    rfl
  | cons next lines ih =>
    have hskip : lf ∉ first ++ [cr] := by
      rw [List.mem_append, List.mem_singleton]
      rintro (h | h)
      · exact hfree first List.mem_cons_self h
      · exact hcr h.symm
    have htext : text cr lf (first :: next :: lines) = (first ++ [cr]) ++ lf :: text cr lf (next :: lines) := by
      rw [text_cons_cons, List.append_assoc]
      rfl
    have hdrop : ∀ n, ((first ++ [cr]) ++ lf :: text cr lf (next :: lines)).drop (n + (first ++ [cr]).length + 1) =
        (text cr lf (next :: lines)).drop n := by
      intro n
      have hcount : n + (first ++ [cr]).length + 1 = (first ++ [cr]).length + (n + 1) := by omega
      rw [hcount, List.drop_length_add_append]
      rfl
    rw [htext, Occurrence.find_append_of_notMem hskip, Option.map_map]
    by_cases hnext : name <+: next
    · have hfirst : lf :: name <+: lf :: text cr lf (next :: lines) :=
        List.cons_prefix_cons.mpr ⟨rfl, (prefix_text_iff hname next lines).mpr hnext⟩
      have hstop : (next :: lines).dropWhile (! name.isPrefixOf ·) = next :: lines :=
        List.dropWhile_cons_of_neg (by simpa using hnext)
      rw [Occurrence.find_eq_zero hfirst, if_pos (by simp [hnext]), hstop]
      exact congrArg some (hdrop 0)
    · have hlater : ¬ lf :: name <+: lf :: text cr lf (next :: lines) := fun h =>
        hnext ((prefix_text_iff hname next lines).mp (List.cons_prefix_cons.mp h).2)
      have hfalse : name.isPrefixOf next = false := by
        rw [← Bool.not_eq_true, List.isPrefixOf_iff_prefix]
        exact hnext
      have hpass : (next :: lines).dropWhile (! name.isPrefixOf ·) = lines.dropWhile (! name.isPrefixOf ·) :=
        List.dropWhile_cons_of_pos (by rw [hfalse]; rfl)
      have hany : (next :: lines).any (name.isPrefixOf ·) = lines.any (name.isPrefixOf ·) := by
        rw [List.any_cons, hfalse, Bool.false_or]
      have ih := ih next fun line hline => hfree line (List.mem_cons_of_mem first hline)
      rw [Occurrence.find_cons hlater, hpass, hany, ← ih, Option.map_map]
      congr 1
      funext n
      exact hdrop (n + 1)

/-- The blank line behind lines that are not empty. -/
theorem find_blank (hcr : cr ≠ lf) {first : List α} {lines : List (List α)}
    (hfree : ∀ line ∈ first :: lines, line ≠ [] ∧ cr ∉ line) (rest : List α) :
    Occurrence.find [cr, lf, cr, lf] (text cr lf (first :: lines) ++ [cr, lf, cr, lf] ++ rest) =
      some (text cr lf (first :: lines)).length := by
  induction lines generalizing first with
  | nil =>
    have hfirst := (hfree first List.mem_cons_self).2
    rw [text_singleton, List.append_assoc, Occurrence.find_append_of_notMem hfirst,
      Occurrence.find_eq_zero (List.prefix_append _ rest)]
    simp
  | cons next lines ih =>
    have hfirst := (hfree first List.mem_cons_self).2
    obtain ⟨hne, hnext⟩ := hfree next (by simp)
    have ih := ih fun line hline => hfree line (List.mem_cons_of_mem first hline)
    obtain ⟨c, more, hmore, hc⟩ : ∃ c more, text cr lf (next :: lines) ++ [cr, lf, cr, lf] ++ rest = c :: more ∧ c ≠ cr := by
      obtain ⟨c, line, rfl⟩ := List.exists_cons_of_ne_nil hne
      have hc : c ≠ cr := fun h => hnext (h ▸ List.mem_cons_self)
      cases lines with
      | nil => exact ⟨c, _, rfl, hc⟩
      | cons other lines =>
        rw [text_cons_cons]
        exact ⟨c, _, rfl, hc⟩
    rw [hmore] at ih
    have hatcr : ¬ [cr, lf, cr, lf] <+: cr :: lf :: c :: more := fun h =>
      hc (List.cons_prefix_cons.mp (List.cons_prefix_cons.mp (List.cons_prefix_cons.mp h).2).2).1.symm
    have hatlf : ¬ [cr, lf, cr, lf] <+: lf :: c :: more := fun h => hcr (List.cons_prefix_cons.mp h).1
    have htext : text cr lf (first :: next :: lines) ++ [cr, lf, cr, lf] ++ rest = first ++ cr :: lf :: c :: more := by
      rw [← hmore, text_cons_cons]
      simp only [List.append_assoc, List.cons_append]
    rw [htext, Occurrence.find_append_of_notMem hfirst, Occurrence.find_cons hatcr, Occurrence.find_cons hatlf, ih]
    simp only [Option.map_some, text_cons_cons, List.length_append, List.length_cons]
    congr 1
    omega

end TextLines
