import Mathlib.Data.List.Basic
import Mathlib.Data.List.Infix
import Mathlib.Data.List.TakeWhile

/-! Tokens between delimiter characters, as repeated calls of a `strtok` cut them off, and the first of
them that contains a pattern. -/
namespace Strtok
variable {α : Type*} (delim : α → Bool)

/-- One call on the text that the last call has left: the token and what is left behind it. -/
def next (saved : List α) : Option (List α × List α) :=
  let text := saved.dropWhile delim
  if text = [] then none else some (text.takeWhile (!delim ·), (text.dropWhile (!delim ·)).drop 1)

/-- The tokens of so many calls. -/
def calls : Nat → List α → List (List α)
  | 0, _ => []
  | n + 1, saved =>
    match next delim saved with
    | none => []
    | some (token, saved) => token :: calls n saved

/-- All tokens. Each takes a character, so these calls are enough. -/
def tokens (text : List α) : List (List α) := calls delim text.length text

/-- The non-empty pieces between delimiters. -/
def pieces (text : List α) : List (List α) := (text.splitOnP delim).filter (· ≠ [])

variable {delim}

theorem pieces_append_cons {d : α} (hd : delim d = true) (a b : List α) :
    pieces delim (a ++ d :: b) = pieces delim a ++ pieces delim b := by
  unfold pieces
  rw [List.splitOnP_append_cons a b hd, List.filter_append]

theorem pieces_cons {d : α} (hd : delim d = true) (b : List α) : pieces delim (d :: b) = pieces delim b :=
  pieces_append_cons hd [] b

theorem pieces_of_free {a : List α} (ha : ∀ c ∈ a, delim c = false) : pieces delim a = [a].filter (· ≠ []) := by
  unfold pieces
  rw [List.splitOnP_eq_singleton (fun c hc => by simpa using ha c hc)]

theorem pieces_dropWhile (text : List α) : pieces delim (text.dropWhile delim) = pieces delim text := by
  induction text with
  | nil => rfl
  | cons c text ih =>
    by_cases hc : delim c = true
    · rw [List.dropWhile_cons_of_pos hc, ih, pieces_cons hc]
    · rw [List.dropWhile_cons_of_neg hc]

/-- What `decide` finds out about a given text. -/
theorem free_of_all {text : List α} (h : text.all (fun c => !delim c) = true) : ∀ c ∈ text, delim c = false := by
  intro c hc
  simpa using List.all_eq_true.mp h c hc

/-- A text is free of delimiters, or a first one ends its first piece. -/
theorem free_or_cut (delim : α → Bool) (text : List α) : (∀ c ∈ text, delim c = false) ∨
    ∃ a d b, text = a ++ d :: b ∧ (∀ c ∈ a, delim c = false) ∧ delim d = true := by
  induction text with
  | nil => exact .inl (by simp)
  | cons c text ih =>
    cases hc : delim c with
    | true => exact .inr ⟨[], c, text, rfl, by simp, hc⟩
    | false =>
      rcases ih with hfree | ⟨a, d, b, rfl, ha, hd⟩
      · exact .inl (List.forall_mem_cons.mpr ⟨hc, hfree⟩)
      · exact .inr ⟨c :: a, d, b, rfl, List.forall_mem_cons.mpr ⟨hc, ha⟩, hd⟩

/-- A call gives the first piece and leaves the others. -/
theorem pieces_next {saved token rest : List α} (h : next delim saved = some (token, rest)) :
    pieces delim saved = token :: pieces delim rest ∧ rest.length < saved.length := by
  have hle : (saved.dropWhile delim).length ≤ saved.length := (List.dropWhile_sublist _).length_le
  unfold next at h
  dsimp only at h
  split_ifs at h with hne
  obtain ⟨rfl, rfl⟩ := Prod.mk.inj (Option.some.inj h)
  rw [← pieces_dropWhile saved]
  have hhead : delim ((saved.dropWhile delim).head hne) = false := List.head_dropWhile_not delim hne
  generalize htext : saved.dropWhile delim = text at *
  rcases free_or_cut delim text with hfree | ⟨a, d, b, rfl, ha, hd⟩
  · have hall : ∀ c ∈ text, (!delim c) = true := fun c hc => by rw [hfree c hc]; rfl
    rw [List.takeWhile_eq_self_iff.mpr hall, List.dropWhile_eq_nil_iff.mpr hall, pieces_of_free hfree]
    refine ⟨by simp [hne, pieces], ?_⟩
    exact (List.length_pos_iff.mpr hne).trans_le hle
  · have hall : ∀ c ∈ a, (!delim c) = true := fun c hc => by rw [ha c hc]; rfl
    have hane : a ≠ [] := by
      rintro rfl
      simp [hd] at hhead
    rw [List.takeWhile_append_of_pos hall, List.dropWhile_append_of_pos hall, pieces_append_cons hd, pieces_of_free ha]
    simp only [List.length_append, List.length_cons] at hle
    have hlen := List.length_pos_iff.mpr hane
    refine ⟨by simp [hd, hane], ?_⟩
    simp [hd]
    omega

theorem calls_eq {n : Nat} {text : List α} (h : text.length ≤ n) : calls delim n text = pieces delim text := by
  induction n generalizing text with
  | zero =>
    obtain rfl := List.length_eq_zero_iff.mp (Nat.le_zero.mp h)
    rfl
  | succ n ih =>
    unfold calls
    cases hnext : next delim text with
    | none =>
      have hnil : text.dropWhile delim = [] := by
        unfold next at hnext
        dsimp only at hnext
        split_ifs at hnext with hnil
        exact hnil
      rw [← pieces_dropWhile, hnil]
      rfl
    | some cut =>
      obtain ⟨token, rest⟩ := cut
      obtain ⟨hpieces, hlt⟩ := pieces_next hnext
      dsimp only
      rw [ih (by omega), hpieces]

theorem tokens_eq (text : List α) : tokens delim text = pieces delim text := calls_eq le_rfl

/-- A piece of a text stands between delimiters or at its ends. -/
structure IsPiece (delim : α → Bool) (text before piece after : List α) : Prop where
  split : text = before ++ (piece ++ after)
  free : ∀ c ∈ piece, delim c = false
  left : before = [] ∨ ∃ b d, before = b ++ [d] ∧ delim d = true
  right : after = [] ∨ ∃ d a, after = d :: a ∧ delim d = true

/-- The first piece of a text that contains a pattern. -/
def FirstWith (delim : α → Bool) (pat text piece : List α) : Prop :=
  ∃ before after, IsPiece delim text before piece after ∧ ¬ pat <:+: before ∧ pat <:+: piece

/-- A pattern does not reach over a character that it has not. -/
theorem infix_append_cons {d : α} {pat : List α} (hd : d ∉ pat) (a b : List α) :
    pat <:+: a ++ d :: b ↔ pat <:+: a ∨ pat <:+: b := by
  constructor
  · rintro ⟨s, t, h⟩
    rcases List.append_eq_append_iff.mp h with ⟨e, ha, -⟩ | ⟨e, hs, ht⟩
    · exact .inl ⟨s, e, ha.symm⟩
    · cases e with
      | nil => exact .inl ⟨s, [], by simpa using hs⟩
      | cons x e =>
        obtain ⟨rfl, rfl⟩ := List.cons.inj ht
        rcases List.append_eq_append_iff.mp hs with ⟨f, -, hf⟩ | ⟨f, -, hf⟩
        · exact absurd (by simp [hf]) hd
        · cases f with
          | nil => exact absurd (by rw [List.nil_append] at hf; simp [← hf]) hd
          | cons y f =>
            obtain ⟨-, rfl⟩ := List.cons.inj hf
            exact .inr ⟨f, t, rfl⟩
  · rintro (h | h)
    · exact h.trans (List.prefix_append a _).isInfix
    · exact h.trans ((List.suffix_cons d b).trans (List.suffix_append a _)).isInfix

theorem infix_of_mem_pieces {text piece : List α} (h : piece ∈ pieces delim text) : piece <:+: text := by
  induction hn : text.length using Nat.strong_induction_on generalizing text with
  | _ n ih =>
    subst hn
    rcases free_or_cut delim text with hfree | ⟨a, d, b, rfl, ha, hd⟩
    · rw [pieces_of_free hfree] at h
      obtain rfl := List.mem_singleton.mp (List.mem_of_mem_filter h)
      exact List.infix_rfl
    · rw [pieces_append_cons hd, pieces_of_free ha] at h
      rcases List.mem_append.mp h with h | h
      · obtain rfl := List.mem_singleton.mp (List.mem_of_mem_filter h)
        exact (List.prefix_append piece _).isInfix
      · have hrest := ih b.length (by simp; omega) h rfl
        exact hrest.trans ((List.suffix_cons d b).trans (List.suffix_append a _)).isInfix

theorem IsPiece.pieces_eq {text before piece after : List α} (h : IsPiece delim text before piece after)
    (hne : piece ≠ []) : pieces delim text = pieces delim before ++ piece :: pieces delim after := by
  have hright : pieces delim (piece ++ after) = piece :: pieces delim after := by
    have hpiece : pieces delim piece = [piece] := by rw [pieces_of_free h.free]; simp [hne]
    rcases h.right with rfl | ⟨d, a, rfl, hd⟩
    · rw [List.append_nil, hpiece]
      rfl
    · rw [pieces_append_cons hd, pieces_cons hd, hpiece]
      rfl
  rw [h.split, ← hright]
  rcases h.left with rfl | ⟨b, d, rfl, hd⟩
  · rfl
  · have hnil : pieces delim ([] : List α) = [] := rfl
    rw [List.append_assoc, List.singleton_append, pieces_append_cons hd, pieces_append_cons hd, hnil, List.append_nil]

section Find
variable {pat : List α} (hpat : pat ≠ []) (hfree : ∀ c ∈ pat, delim c = false)
include hpat hfree

/-- A text with the pattern has a first piece with it. -/
theorem exists_firstWith {text : List α} (h : pat <:+: text) : ∃ piece, FirstWith delim pat text piece := by
  have hnil : ¬ pat <:+: [] := fun hin => hpat (List.infix_nil.mp hin)
  induction hn : text.length using Nat.strong_induction_on generalizing text with
  | _ n ih =>
    subst hn
    rcases free_or_cut delim text with hall | ⟨a, d, b, rfl, ha, hd⟩
    · exact ⟨text, [], [], ⟨(List.append_nil text).symm, hall, .inl rfl, .inl rfl⟩, hnil, h⟩
    · have hdpat : d ∉ pat := fun hm => by simp [hfree d hm] at hd
      by_cases hin : pat <:+: a
      · exact ⟨a, [], d :: b, ⟨rfl, ha, .inl rfl, .inr ⟨d, b, rfl, hd⟩⟩, hnil, hin⟩
      · have hb := ((infix_append_cons hdpat a b).mp h).resolve_left hin
        obtain ⟨piece, before, after, hpiece, hbefore, hwith⟩ := ih b.length (by simp; omega) hb rfl
        refine ⟨piece, a ++ d :: before, after, ⟨?_, hpiece.free, .inr ?_, hpiece.right⟩, ?_, hwith⟩
        · rw [hpiece.split, List.append_assoc]
          rfl
        · rcases hpiece.left with rfl | ⟨b', d', rfl, hd'⟩
          · exact ⟨a, d, rfl, hd⟩
          · exact ⟨a ++ d :: b', d', by simp, hd'⟩
        · rw [infix_append_cons hdpat]
          exact not_or.mpr ⟨hin, hbefore⟩

omit hfree in
theorem FirstWith.find {contains : List α → Bool} (hcontains : ∀ s, contains s = true ↔ pat <:+: s)
    {text piece : List α} (h : FirstWith delim pat text piece) :
    (pieces delim text).find? contains = some piece := by
  obtain ⟨before, after, hpiece, hbefore, hwith⟩ := h
  have hne : piece ≠ [] := by
    rintro rfl
    exact hpat (List.infix_nil.mp hwith)
  have hnone : (pieces delim before).find? contains = none := by
    rw [List.find?_eq_none]
    intro p hp hc
    exact hbefore (((hcontains p).mp hc).trans (infix_of_mem_pieces hp))
  rw [hpiece.pieces_eq hne, List.find?_append, hnone, Option.none_or,
    List.find?_cons_of_pos ((hcontains piece).mpr hwith)]

/-- The search for a token with the pattern finds the first piece with it. -/
theorem find_pieces_iff {contains : List α → Bool} (hcontains : ∀ s, contains s = true ↔ pat <:+: s)
    {text piece : List α} :
    (pieces delim text).find? contains = some piece ↔ FirstWith delim pat text piece := by
  constructor
  · intro h
    have hwith := (hcontains piece).mp (List.find?_some h)
    have hin := hwith.trans (infix_of_mem_pieces (List.mem_of_find?_eq_some h))
    obtain ⟨piece', hfirst⟩ := exists_firstWith hpat hfree hin
    rw [hfirst.find hpat hcontains] at h
    rwa [Option.some.inj h] at hfirst
  · exact fun h => h.find hpat hcontains

end Find
end Strtok
