import Mathlib.Algebra.BigOperators.Group.List.Basic
import Mathlib.Algebra.Order.Ring.Int
import Mathlib.Data.List.Pairwise
import Jericho.Library.Splice

/-! Edits made in one pass over a text, with a cursor that moves behind each of them. Behind the
cursor the pass copies what is left of the text, so that only edits in ascending order are made right. -/
namespace Splice
variable {α : Type}

/-- What is copied up to an edit: the text from the cursor on, all of it if the edit stands before the cursor. -/
def copied (text : List α) (cursor pos : Nat) : List α :=
  if cursor ≤ pos then (text.drop cursor).take (pos - cursor) else text.drop cursor

/-- The edits in the order given, and the rest of the text. -/
def pass (text : List α) : List (Edit α) → Nat → List α
  | [], cursor => text.drop cursor
  | e :: es, cursor => copied text cursor e.pos ++ e.repl ++ pass text es (e.pos + e.len)

/-- An edit of a piece of a text of some length. -/
def Edit.Inside (e : Edit α) (length : Nat) : Prop := 0 < e.len ∧ e.pos + e.len ≤ length

/-- Each edit stands behind those before it. -/
def Ascending (es : List (Edit α)) : Prop := es.Pairwise fun d e => d.pos + d.len ≤ e.pos

theorem Apart.symm {d e : Edit α} (h : Apart d e) : Apart e d := Or.symm h

theorem editAt_eq_some_iff {es : List (Edit α)} (h : es.Pairwise fun d e => d.pos ≠ e.pos) {i : Nat} {e : Edit α} :
    editAt es i = some e ↔ e ∈ es ∧ e.pos = i := by
  constructor
  · intro hfind
    have hpos := List.find?_some hfind
    exact ⟨List.mem_of_find?_eq_some hfind, by simpa using hpos⟩
  · rintro ⟨hmem, hpos⟩
    cases hfind : editAt es i with
    | none =>
      have hno := List.find?_eq_none.mp hfind e hmem
      simp [hpos] at hno
    | some d =>
      have hd := List.find?_some hfind
      have hdmem := List.mem_of_find?_eq_some hfind
      by_contra hne
      have hsymm : Std.Symm fun d e : Edit α => d.pos ≠ e.pos := ⟨fun _ _ h => h.symm⟩
      refine h.forall hmem hdmem (fun heq => hne (congrArg some heq.symm)) (hpos.trans ?_)
      exact (of_decide_eq_true hd).symm

theorem pos_ne_of_apart {es : List (Edit α)} {n : Nat} (hin : ∀ e ∈ es, e.Inside n) (h : es.Pairwise Apart) :
    es.Pairwise fun d e => d.pos ≠ e.pos := by
  refine h.imp_of_mem fun {d e} hd he hapart heq => ?_
  have hdlen := (hin d hd).1
  have helen := (hin e he).1
  rcases hapart with h | h <;> omega

/-- The order in which the edits are listed does not matter for the result that is meant. -/
theorem render_congr {es es' : List (Edit α)} (h : es.Pairwise fun d e => d.pos ≠ e.pos)
    (h' : es'.Pairwise fun d e => d.pos ≠ e.pos) (hmem : ∀ e, e ∈ es ↔ e ∈ es') (text : List α) :
    render es text = render es' text := by
  apply renderFrom_congr
  intro j _ _
  ext e
  rw [editAt_eq_some_iff h, editAt_eq_some_iff h', hmem]

/-- Edits in ascending order are made right. -/
theorem pass_ascending {es : List (Edit α)} {text : List α} (hin : ∀ e ∈ es, e.Inside text.length)
    (hasc : Ascending es) {cursor : Nat} (hcursor : ∀ e ∈ es, cursor ≤ e.pos) :
    pass text es cursor = renderFrom es cursor 0 (text.drop cursor) := by
  induction es generalizing cursor with
  | nil => exact (renderFrom_plain fun _ h => absurd h List.not_mem_nil).symm
  | cons e es ih =>
    obtain ⟨⟨hlen, hend⟩, hins⟩ := List.forall_mem_cons.mp hin
    obtain ⟨hbehind, hasc⟩ := List.pairwise_cons.mp hasc
    have hat := hcursor e List.mem_cons_self
    -- The text from the cursor on is what is copied, the piece, and the rest.
    have hsplit : text.drop cursor =
        copied text cursor e.pos ++ ((text.drop e.pos).take e.len ++ text.drop (e.pos + e.len)) := by
      have hdrop : text.drop e.pos = (text.drop cursor).drop (e.pos - cursor) := by
        rw [List.drop_drop]
        congr 1
        omega
      rw [copied, if_pos hat, ← List.drop_drop, List.take_append_drop, hdrop, List.take_append_drop]
    have hcopied : (copied text cursor e.pos).length = e.pos - cursor := by
      rw [copied, if_pos hat, List.length_take, List.length_drop]
      omega
    have hpiece : ((text.drop e.pos).take e.len).length = e.len := by
      rw [List.length_take, List.length_drop]
      omega
    have hfirst : editAt (e :: es) e.pos = some e := by
      unfold editAt
      rw [List.find?_cons_of_pos]
      simp
    have hlater : ∀ d ∈ e :: es, e.pos ≤ d.pos := by
      refine List.forall_mem_cons.mpr ⟨Nat.le_refl _, fun d hd => ?_⟩
      have := hbehind d hd
      omega
    have hends : Ends (e :: es) (e.pos + e.len) := by
      refine List.forall_mem_cons.mpr ⟨fun _ => ⟨hlen, Nat.le_refl _⟩, fun d hd hlt => ?_⟩
      have := hbehind d hd
      omega
    have hrest : renderFrom (e :: es) (e.pos + e.len) 0 (text.drop (e.pos + e.len)) =
        renderFrom es (e.pos + e.len) 0 (text.drop (e.pos + e.len)) := by
      apply renderFrom_congr
      intro j hj _
      unfold editAt
      rw [List.find?_cons_of_neg]
      simp
      omega
    have hpos : cursor + (e.pos - cursor) = e.pos := by omega
    rw [pass, hsplit, renderFrom_append (Nat.zero_le _), renderFrom_plain, hcopied, hpos,
      renderFrom_edit hfirst hpiece hlen hends, hrest, ih hins hasc hbehind, List.append_assoc]
    · intro d hd hbetween
      have := hlater d hd
      omega
    · intro d hd hlt
      have := hlater d hd
      omega

/-- What a text gains in length by an edit. -/
def Edit.gain (e : Edit α) : Int := e.repl.length - e.len

/-- What is copied once more than it should be. -/
def excess (length : Nat) : List (Edit α) → Nat → Nat
  | [], _ => 0
  | e :: es, cursor => (if cursor ≤ e.pos then 0 else length - e.pos) + excess length es (e.pos + e.len)

theorem pass_length {es : List (Edit α)} {text : List α} (hin : ∀ e ∈ es, e.Inside text.length) {cursor : Nat}
    (hcursor : cursor ≤ text.length) :
    ((pass text es cursor).length : Int) =
      text.length - cursor + (es.map Edit.gain).sum + excess text.length es cursor := by
  induction es generalizing cursor with
  | nil =>
    rw [pass, List.length_drop, List.map_nil, List.sum_nil, excess]
    omega
  | cons e es ih =>
    obtain ⟨⟨hlen, hend⟩, hrest⟩ := List.forall_mem_cons.mp hin
    have hih := ih hrest hend
    rw [pass, List.length_append, List.length_append, List.map_cons, List.sum_cons, excess, copied, Edit.gain]
    split_ifs with hat
    · rw [List.length_take, List.length_drop]
      omega
    · rw [List.length_drop]
      omega

theorem excess_eq_zero_iff {es : List (Edit α)} {length : Nat} (hin : ∀ e ∈ es, e.Inside length) (cursor : Nat) :
    excess length es cursor = 0 ↔ (∀ e ∈ es, cursor ≤ e.pos) ∧ Ascending es := by
  induction es generalizing cursor with
  | nil => exact iff_of_true rfl ⟨fun _ h => absurd h List.not_mem_nil, List.Pairwise.nil⟩
  | cons e es ih =>
    obtain ⟨⟨hlen, hend⟩, hrest⟩ := List.forall_mem_cons.mp hin
    have hhead : (if cursor ≤ e.pos then 0 else length - e.pos) = 0 ↔ cursor ≤ e.pos := by
      split_ifs with hat
      · exact iff_of_true rfl hat
      · exact iff_of_false (by omega) hat
    have hcons : Ascending (e :: es) ↔ (∀ d ∈ es, e.pos + e.len ≤ d.pos) ∧ Ascending es := List.pairwise_cons
    rw [excess, Nat.add_eq_zero_iff, hhead, ih hrest, List.forall_mem_cons, hcons]
    constructor
    · rintro ⟨hat, hbehind, hasc⟩
      exact ⟨⟨hat, fun d hd => by have := hbehind d hd; omega⟩, hbehind, hasc⟩
    · rintro ⟨⟨hat, -⟩, hbehind, hasc⟩
      exact ⟨hat, hbehind, hasc⟩

/-- The edits of a text that do not overlap are made right in a pass exactly if they come in ascending order. -/
theorem pass_eq_render_iff {es : List (Edit α)} {text : List α} (hin : ∀ e ∈ es, e.Inside text.length)
    (hapart : es.Pairwise Apart) : pass text es 0 = render es text ↔ Ascending es := by
  constructor
  · intro h
    let sorted := es.mergeSort fun d e => d.pos ≤ e.pos
    have hperm : sorted.Perm es := List.mergeSort_perm es _
    have hin' : ∀ e ∈ sorted, e.Inside text.length := fun e he => hin e (hperm.mem_iff.mp he)
    have hapart' : sorted.Pairwise Apart := hapart.perm hperm.symm Apart.symm
    have hle : sorted.Pairwise fun d e => d.pos ≤ e.pos := by
      refine (List.pairwise_mergeSort ?_ ?_ es).imp of_decide_eq_true
      · intro a b c hab hbc
        exact decide_eq_true (Nat.le_trans (of_decide_eq_true hab) (of_decide_eq_true hbc))
      · intro a b
        rw [Bool.or_eq_true, decide_eq_true_iff, decide_eq_true_iff]
        exact Nat.le_total a.pos b.pos
    have hasc : Ascending sorted := by
      refine (hapart'.and hle).imp_of_mem fun {d e} _ he hboth => ?_
      have helen := (hin' e he).1
      rcases hboth.1 with happ | happ
      · exact happ
      · have := hboth.2
        omega
    -- Sorted, the same edits give the text that is meant, which has no excess.
    have hsame : pass text sorted 0 = pass text es 0 := by
      rw [h, pass_ascending hin' hasc fun _ _ => Nat.zero_le _, List.drop_zero]
      exact render_congr (pos_ne_of_apart hin' hapart') (pos_ne_of_apart hin hapart) (fun _ => hperm.mem_iff) text
    have hlength := pass_length hin (Nat.zero_le text.length)
    have hlength' := pass_length hin' (Nat.zero_le text.length)
    have hzero := (excess_eq_zero_iff hin' 0).mpr ⟨fun _ _ => Nat.zero_le _, hasc⟩
    rw [hsame, hlength, hzero, (hperm.map Edit.gain).sum_eq] at hlength'
    refine ((excess_eq_zero_iff hin 0).mp ?_).2
    omega
  · intro hasc
    rw [pass_ascending hin hasc fun _ _ => Nat.zero_le _, List.drop_zero]
    rfl

end Splice
