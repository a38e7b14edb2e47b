import Mathlib.Data.List.Basic
import Mathlib.Data.List.TakeDrop

/-! Replacing pieces of a text, each at its own place. The places are those of the original text,
so the result does not depend on the order of the edits. -/
namespace Splice
variable {α : Type}

/-- A piece of a text, by its position and length, and what it becomes. -/
structure Edit (α : Type) where
  pos : Nat
  len : Nat
  repl : List α

def editAt (es : List (Edit α)) (i : Nat) : Option (Edit α) := es.find? (·.pos = i)

/-- The text from a position on, where some characters still belong to an edited piece. -/
def renderFrom (es : List (Edit α)) : Nat → Nat → List α → List α
  | _, _, [] => []
  | i, skip + 1, _ :: s => renderFrom es (i + 1) skip s
  | i, 0, c :: s =>
    match editAt es i with
    | some e => e.repl ++ renderFrom es (i + 1) (e.len - 1) s
    | none => c :: renderFrom es (i + 1) 0 s

/-- A text with its edited pieces replaced and all other characters as they are. -/
def render (es : List (Edit α)) (text : List α) : List α := renderFrom es 0 0 text

/-- Where a position of the text is after the edits before it. -/
def place (es : List (Edit α)) (text : List α) (pos : Nat) : Nat := (render es (text.take pos)).length

/-- Pieces that have no character in common. -/
def Apart (d e : Edit α) : Prop := d.pos + d.len ≤ e.pos ∨ e.pos + e.len ≤ d.pos

instance (d e : Edit α) : Decidable (Apart d e) := inferInstanceAs (Decidable (_ ∨ _))

/-- A piece of a text. -/
structure Edit.Fits (e : Edit α) (text piece : List α) : Prop where
  nonempty : 0 < e.len
  length : piece.length = e.len
  split : ∃ u v, text = u ++ piece ++ v ∧ u.length = e.pos

theorem editAt_eq_none {es : List (Edit α)} {i : Nat} (h : ∀ d ∈ es, d.pos ≠ i) : editAt es i = none := by
  unfold editAt
  rw [List.find?_eq_none]
  intro d hd
  simpa using h d hd

theorem editAt_append {es : List (Edit α)} (e : Edit α) (i : Nat) :
    editAt (es ++ [e]) i = (editAt es i).or (if e.pos = i then some e else none) := by
  unfold editAt
  rw [List.find?_append]
  by_cases h : e.pos = i <;> simp [h]

theorem renderFrom_none {es : List (Edit α)} {i : Nat} (h : editAt es i = none) (c : α) (s : List α) :
    renderFrom es i 0 (c :: s) = c :: renderFrom es (i + 1) 0 s := by
  rw [renderFrom, h]

theorem renderFrom_some {es : List (Edit α)} {i : Nat} {e : Edit α} (h : editAt es i = some e) (c : α) (s : List α) :
    renderFrom es i 0 (c :: s) = e.repl ++ renderFrom es (i + 1) (e.len - 1) s := by
  rw [renderFrom, h]

/-- Only the edits in a stretch of text matter for it. -/
theorem renderFrom_congr {es es' : List (Edit α)} {i skip : Nat} {s : List α}
    (h : ∀ j, i ≤ j → j < i + s.length → editAt es j = editAt es' j) :
    renderFrom es i skip s = renderFrom es' i skip s := by
  induction s generalizing i skip with
  | nil => cases skip <;> rfl
  | cons c s ih =>
    have hnext : ∀ k, renderFrom es (i + 1) k s = renderFrom es' (i + 1) k s := by
      intro k
      apply ih
      intro j hj hlt
      apply h j (by omega)
      rw [List.length_cons]
      omega
    cases skip with
    | succ skip => exact hnext skip
    | zero =>
      have hsame := h i (Nat.le_refl i) (by rw [List.length_cons]; omega)
      cases hat : editAt es' i with
      | none => rw [renderFrom_none hat, renderFrom_none (hsame.trans hat), hnext]
      | some e => rw [renderFrom_some hat, renderFrom_some (hsame.trans hat), hnext]

/-- No edit reaches over the position. -/
def Ends (es : List (Edit α)) (i : Nat) : Prop := ∀ d ∈ es, d.pos < i → 0 < d.len ∧ d.pos + d.len ≤ i

theorem Ends.concat {es : List (Edit α)} {e : Edit α} {i : Nat} (h : Ends es i)
    (he : e.pos < i → 0 < e.len ∧ e.pos + e.len ≤ i) : Ends (es ++ [e]) i := by
  intro d hd hlt
  rcases List.mem_append.mp hd with hd | hd
  · exact h d hd hlt
  · obtain rfl := List.mem_singleton.mp hd
    exact he hlt

/-- No edit reaches over the end of a stretch. -/
theorem renderFrom_append {es : List (Edit α)} {i skip : Nat} {u : List α} (hskip : skip ≤ u.length)
    (h : Ends es (i + u.length)) (w : List α) :
    renderFrom es i skip (u ++ w) = renderFrom es i skip u ++ renderFrom es (i + u.length) 0 w := by
  induction u generalizing i skip with
  | nil =>
    obtain rfl := Nat.le_zero.mp hskip
    rfl
  | cons c u ih =>
    have hlen : i + (c :: u).length = i + 1 + u.length := by
      rw [List.length_cons]
      omega
    rw [hlen] at h ⊢
    cases skip with
    | succ skip =>
      rw [List.length_cons] at hskip
      exact ih (by omega) h
    | zero =>
      rw [List.cons_append]
      cases hat : editAt es i with
      | none => rw [renderFrom_none hat, renderFrom_none hat, ih (Nat.zero_le _) h, List.cons_append]
      | some e =>
        have hpos : e.pos = i := by
          have hfound := List.find?_some hat
          simpa using hfound
        have hend := h e (List.mem_of_find?_eq_some hat) (by omega)
        rw [renderFrom_some hat, renderFrom_some hat, ih (by omega) h, List.append_assoc]

/-- A stretch without edits stays as it is. -/
theorem renderFrom_plain {es : List (Edit α)} {i : Nat} {s : List α}
    (h : ∀ d ∈ es, ¬ (i ≤ d.pos ∧ d.pos < i + s.length)) : renderFrom es i 0 s = s := by
  induction s generalizing i with
  | nil => rfl
  | cons c s ih =>
    rw [List.length_cons] at h
    have hnone : editAt es i = none := editAt_eq_none fun d hd heq => h d hd (by omega)
    rw [renderFrom_none hnone, ih fun d hd hin => h d hd (by omega)]

/-- The rest of an edited piece is dropped. -/
theorem renderFrom_skip {es : List (Edit α)} {i : Nat} {s : List α} : renderFrom es i s.length s = [] := by
  induction s generalizing i with
  | nil => rfl
  | cons c s ih => exact ih

theorem editAt_concat_of_ne {es : List (Edit α)} {e : Edit α} {j : Nat} (hj : j ≠ e.pos) :
    editAt (es ++ [e]) j = editAt es j := by
  rw [editAt_append, if_neg (Ne.symm hj), Option.or_none]

/-- An edit that is found at its place is made there. -/
theorem renderFrom_edit {es : List (Edit α)} {e : Edit α} {piece : List α} (hat : editAt es e.pos = some e)
    (hlength : piece.length = e.len) (hpos : 0 < e.len) (hends : Ends es (e.pos + e.len)) (v : List α) :
    renderFrom es e.pos 0 (piece ++ v) = e.repl ++ renderFrom es (e.pos + e.len) 0 v := by
  obtain ⟨c, rest, rfl⟩ := List.exists_cons_of_length_pos (hlength ▸ hpos)
  rw [List.length_cons] at hlength
  have hend : e.pos + e.len = e.pos + 1 + rest.length := by omega
  have hskip : e.len - 1 = rest.length := by omega
  rw [hend] at hends ⊢
  rw [List.cons_append, renderFrom_some hat, hskip, renderFrom_append (Nat.le_refl _) hends, renderFrom_skip,
    List.nil_append]

/-- One more edit, apart from the others, replaces its piece at its place and nothing else. -/
theorem render_append {es : List (Edit α)} {e : Edit α} {text piece : List α} (hfits : e.Fits text piece)
    (hes : ∀ d ∈ es, 0 < d.len ∧ Apart d e) :
    ∃ a b, a.length = place es text e.pos ∧ render es text = a ++ piece ++ b ∧
      render (es ++ [e]) text = a ++ e.repl ++ b := by
  obtain ⟨u, v, rfl, hu⟩ := hfits.split
  have hpiece := hfits.length
  have hpos := hfits.nonempty
  have hbefore : Ends es e.pos := by
    intro d hd hlt
    obtain ⟨hlen, hapart⟩ := hes d hd
    refine ⟨hlen, ?_⟩
    rcases hapart with h | h <;> omega
  have hinside : ∀ d ∈ es, ¬ (e.pos ≤ d.pos ∧ d.pos < e.pos + e.len) := by
    rintro d hd ⟨hge, hlt⟩
    obtain ⟨hlen, hapart⟩ := hes d hd
    rcases hapart with h | h <;> omega
  have hover : Ends es (e.pos + e.len) := by
    intro d hd hlt
    have hlow : d.pos < e.pos := by
      by_contra hge
      exact hinside d hd ⟨by omega, hlt⟩
    have := hbefore d hd hlow
    omega
  have hstart : 0 + u.length = e.pos := (Nat.zero_add _).trans hu
  refine ⟨render es u, renderFrom es (e.pos + e.len) 0 v, ?_, ?_, ?_⟩
  · unfold place
    rw [List.append_assoc, ← hu, List.take_left]
  · have hplain : renderFrom es e.pos 0 piece = piece := renderFrom_plain (hpiece.symm ▸ hinside)
    unfold render
    rw [List.append_assoc, renderFrom_append (Nat.zero_le _) (hstart ▸ hbefore), hstart,
      renderFrom_append (Nat.zero_le _) (hpiece.symm ▸ hover), hplain, hpiece, List.append_assoc]
  · have hat : editAt (es ++ [e]) e.pos = some e := by
      have hnone : editAt es e.pos = none := editAt_eq_none fun d hd heq => hinside d hd ⟨by omega, by omega⟩
      rw [editAt_append, hnone, if_pos rfl]
      rfl
    have hnew : Ends (es ++ [e]) e.pos := hbefore.concat fun hlt => absurd hlt (Nat.lt_irrefl _)
    have hbehind : Ends (es ++ [e]) (e.pos + e.len) := hover.concat fun _ => ⟨hpos, Nat.le_refl _⟩
    have hrest : renderFrom (es ++ [e]) (e.pos + e.len) 0 v = renderFrom es (e.pos + e.len) 0 v :=
      renderFrom_congr fun j hj _ => editAt_concat_of_ne (by omega)
    unfold render
    rw [List.append_assoc, renderFrom_append (Nat.zero_le _) (hstart ▸ hnew), hstart,
      renderFrom_edit hat hpiece hpos hbehind, hrest, List.append_assoc]
    congr 1
    exact renderFrom_congr fun j _ hj => editAt_concat_of_ne (by omega)

end Splice
