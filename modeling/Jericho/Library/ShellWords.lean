import Jericho.Library.StdText

/-! The words of a command line that a POSIX shell only splits and unquotes. -/
namespace ShellWords
open StdText

/-- Where in a line the shell is. -/
inductive Mode where
  | plain
  | escape
  | single
  | double
  | doubleEscape

/-- The backslash that waits for the next character. -/
def Mode.pending : Mode → Bytes
  | .escape => [92]
  | .doubleEscape => [92]
  | _ => []

def blank (c : Byte) : Bool := c = 32 || c = 9

/-- The characters of operators, of expansions and of patterns, and the end of a line. -/
def active (c : Byte) : Bool := (lit "|&;<>()$*?[\n" ++ [96]).contains c

/-- The words of a line from some mode on, where a word may have been started, if there is nothing but words. -/
def read : Mode → Option Bytes → Bytes → Option (List Bytes)
  | .plain, word, [] => some word.toList
  | _, _, [] => none
  | .plain, word, c :: cs =>
    if blank c then (read .plain none cs).map (word.toList ++ ·)
    else if c = 39 then read .single (some (word.getD [])) cs
    else if c = 34 then read .double (some (word.getD [])) cs
    else if c = 92 then read .escape word cs
    else if c = 35 ∧ word = none then if cs.contains 10 then none else some []
    else if c = 126 ∧ word = none then none
    else if active c then none
    else read .plain (some (word.getD [] ++ [c])) cs
  | .escape, word, c :: cs =>
    if c = 10 then read .plain word cs else read .plain (some (word.getD [] ++ [c])) cs
  | .single, word, c :: cs =>
    if c = 39 then read .plain word cs else read .single (some (word.getD [] ++ [c])) cs
  | .double, word, c :: cs =>
    if c = 34 then read .plain word cs
    else if c = 92 then read .doubleEscape word cs
    else if c = 36 ∨ c = 96 then none
    else read .double (some (word.getD [] ++ [c])) cs
  | .doubleEscape, word, c :: cs =>
    if c = 36 ∨ c = 96 ∨ c = 34 ∨ c = 92 then read .double (some (word.getD [] ++ [c])) cs
    else if c = 10 then read .double word cs
    else read .double (some (word.getD [] ++ [92, c])) cs

/-- The words that start a compound command. -/
def reserved : List Bytes :=
  [lit "!", lit "\x7b", lit "\x7d", lit "case", lit "do", lit "done", lit "elif", lit "else", lit "esac", lit "fi",
    lit "for", lit "if", lit "in", lit "then", lit "until", lit "while"]

/-- The command and the arguments of a line that is a single simple command of literal words. -/
def simpleCommand (line : Bytes) : Option (List Bytes) :=
  match read .plain none line with
  | some (command :: args) => if reserved.contains command || command.contains 61 then none else some (command :: args)
  | _ => none

/-- A word is made of characters of the line: the shell here drops some and adds none. -/
theorem read_sublist {mode : Mode} {word : Option Bytes} {line : Bytes} {words : List Bytes}
    (h : read mode word line = some words) : words.flatten.Sublist (word.getD [] ++ (mode.pending ++ line)) := by
  induction line generalizing mode word words with
  | nil =>
    cases mode with
    | plain =>
      obtain rfl := Option.some.inj h
      cases word with
      | none => exact List.nil_sublist _
      | some word => simp [Mode.pending]
    | escape => cases h
    | single => cases h
    | double => cases h
    | doubleEscape => cases h
  | cons c line ih =>
    -- A character goes into the word, or it is dropped.
    have hnext {m : Mode} {w : Option Bytes} (h : read m w line = some words)
        (hsub : (w.getD [] ++ m.pending).Sublist (word.getD [] ++ (mode.pending ++ [c]))) :
        words.flatten.Sublist (word.getD [] ++ (mode.pending ++ c :: line)) := by
      have hrest := ih h
      rw [← List.append_assoc] at hrest
      refine hrest.trans (((List.append_sublist_append_right line).mpr hsub).trans ?_)
      rw [List.append_assoc, List.append_assoc]
      exact List.Sublist.refl _
    cases mode with
    | plain =>
      unfold read at h
      split_ifs at h with hblank hsingle hdouble hescape hcomment
      · obtain ⟨rest, hrest, rfl⟩ := Option.map_eq_some_iff.mp h
        have hsub := ih hrest
        rw [List.flatten_append]
        refine List.Sublist.append ?_ (hsub.trans (List.sublist_cons_self c line))
        cases word with
        | none => exact List.nil_sublist _
        | some word => simp
      · exact hnext h (by simp [Mode.pending])
      · exact hnext h (by simp [Mode.pending])
      · exact hnext h (by simp [Mode.pending, hescape])
      · obtain rfl := Option.some.inj h
        exact List.nil_sublist _
      · exact hnext h (by simp [Mode.pending])
    | escape =>
      unfold read at h
      split_ifs at h
      · exact hnext h (by simp [Mode.pending])
      · exact hnext h (by simp [Mode.pending])
    | single =>
      unfold read at h
      split_ifs at h
      · exact hnext h (by simp [Mode.pending])
      · exact hnext h (by simp [Mode.pending])
    | double =>
      unfold read at h
      split_ifs at h with hquote hescape
      · exact hnext h (by simp [Mode.pending])
      · exact hnext h (by simp [Mode.pending, hescape])
      · exact hnext h (by simp [Mode.pending])
    | doubleEscape =>
      unfold read at h
      split_ifs at h
      · exact hnext h (by simp [Mode.pending])
      · exact hnext h (by simp [Mode.pending])
      · exact hnext h (by simp [Mode.pending])

/-- What is made of the characters of the words is made of characters of the line. -/
theorem simpleCommand_sublist {line : Bytes} {words : List Bytes} (h : simpleCommand line = some words) :
    words.flatten.Sublist line := by
  have hread : read .plain none line = some words := by
    unfold simpleCommand at h
    split at h
    · rename_i command args hread
      split_ifs at h
      exact hread.trans h
    · cases h
  exact read_sublist hread

/-- A character that stands for itself. -/
def literal (c : Byte) : Bool :=
  !(blank c || active c || c = 39 || c = 34 || c = 92 || c = 35 || c = 126)

theorem read_literal {c : Byte} (h : literal c = true) (word : Option Bytes) (cs : Bytes) :
    read .plain word (c :: cs) = read .plain (some (word.getD [] ++ [c])) cs := by
  simp only [literal, Bool.not_eq_true', Bool.or_eq_false_iff, decide_eq_false_iff_not] at h
  obtain ⟨⟨⟨⟨⟨⟨hblank, hactive⟩, hsingle⟩, hdouble⟩, hescape⟩, hcomment⟩, htilde⟩ := h
  rw [read, hblank, if_neg Bool.false_ne_true, if_neg hsingle, if_neg hdouble, if_neg hescape,
    if_neg (fun h => hcomment h.1), if_neg (fun h => htilde h.1), hactive, if_neg Bool.false_ne_true]

/-- Literal characters are read into the word. -/
theorem read_word {w : Bytes} (hne : w ≠ []) (hw : ∀ c ∈ w, literal c = true) (word : Option Bytes) (cs : Bytes) :
    read .plain word (w ++ cs) = read .plain (some (word.getD [] ++ w)) cs := by
  induction w generalizing word with
  | nil => exact absurd rfl hne
  | cons c w ih =>
    obtain ⟨hc, hw⟩ := List.forall_mem_cons.mp hw
    rw [List.cons_append, read_literal hc]
    cases w with
    | nil => rfl
    | cons d w =>
      rw [ih (List.cons_ne_nil d w) hw, Option.getD_some, List.append_assoc]
      rfl

/-- Literal words with blanks between them are read as they are. -/
theorem read_words {words : List Bytes} (h : ∀ w ∈ words, w ≠ [] ∧ ∀ c ∈ w, literal c = true) :
    read .plain none ([32].intercalate words) = some words := by
  induction words with
  | nil => rfl
  | cons w words ih =>
    obtain ⟨⟨hne, hw⟩, hwords⟩ := List.forall_mem_cons.mp h
    cases words with
    | nil =>
      rw [List.intercalate_singleton, ← List.append_nil w, read_word hne hw]
      simp [read]
    | cons next words =>
      have hblank : read .plain (some w) (32 :: [32].intercalate (next :: words)) =
          (read .plain none ([32].intercalate (next :: words))).map ([w] ++ ·) := rfl
      rw [ih hwords] at hblank
      rw [List.intercalate_cons_cons, List.append_assoc, read_word hne hw]
      exact hblank

end ShellWords
