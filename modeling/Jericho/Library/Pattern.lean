import Mathlib.Data.List.Basic
import Mathlib.Data.List.Infix

/-! Regular expressions matched by backtracking. A match is the rest it leaves of a text, and the
matches of a pattern come in the order in which a greedy matcher tries them. -/
inductive Pattern (α : Type) where
  | empty
  | sat (p : α → Bool)
  | seq (a b : Pattern α)
  | alt (a b : Pattern α)
  | star (a : Pattern α)

namespace Pattern
variable {α : Type}

/-- Greedy repetition: another round first, and only one that consumes something. -/
def repeated (m : List α → List (List α)) : Nat → List α → List (List α)
  | 0, s => [s]
  | n + 1, s => ((m s).filter (·.length < s.length)).flatMap (repeated m n) ++ [s]

/-- What a match at the start of a text can leave. -/
def rests : Pattern α → List α → List (List α)
  | empty, s => [s]
  | sat _, [] => []
  | sat p, c :: s => if p c then [s] else []
  | seq a b, s => (a.rests s).flatMap b.rests
  | alt a b, s => a.rests s ++ b.rests s
  | star a, s => repeated a.rests s.length s

def plus (a : Pattern α) : Pattern α := seq a (star a)
def optional (a : Pattern α) : Pattern α := alt a empty
def upTo (a : Pattern α) : Nat → Pattern α
  | 0 => empty
  | n + 1 => optional (seq a (upTo a n))
def text [DecidableEq α] (s : List α) : Pattern α := s.foldr (fun c r => seq (sat (· = c)) r) empty

/-- The matches in a text from left to right, each with its position; the search goes on behind
the last one. A match of nothing is none. -/
def scanFrom (r : Pattern α) : Nat → Nat → List α → List (List α × Nat)
  | _, _, [] => []
  | pos, skip + 1, _ :: s => scanFrom r (pos + 1) skip s
  | pos, 0, c :: s =>
    match (r.rests (c :: s)).head? with
    | some rest =>
      if rest.length ≤ s.length then
        ((c :: s).take (s.length + 1 - rest.length), pos) :: scanFrom r (pos + 1) (s.length - rest.length) s
      else scanFrom r (pos + 1) 0 s
    | none => scanFrom r (pos + 1) 0 s

def scan (r : Pattern α) (s : List α) : List (List α × Nat) := scanFrom r 0 0 s

/-- A pattern that matches characters with a property only. -/
def Within (p : α → Prop) : Pattern α → Prop
  | empty => True
  | sat q => ∀ c, q c = true → p c
  | seq a b => a.Within p ∧ b.Within p
  | alt a b => a.Within p ∧ b.Within p
  | star a => a.Within p

theorem within_true (r : Pattern α) : r.Within fun _ => True := by
  induction r with
  | empty => trivial
  | sat q => exact fun _ _ => trivial
  | seq a b iha ihb => exact ⟨iha, ihb⟩
  | alt a b iha ihb => exact ⟨iha, ihb⟩
  | star a ih => exact ih

theorem within_upTo {p : α → Prop} {a : Pattern α} (h : a.Within p) (n : Nat) : (upTo a n).Within p := by
  induction n with
  | zero => trivial
  | succ n ih => exact ⟨⟨h, ih⟩, trivial⟩

/-- What a match has consumed. -/
theorem rests_split {p : α → Prop} {r : Pattern α} (hr : r.Within p) {s t : List α} (h : t ∈ r.rests s) :
    ∃ u, u ++ t = s ∧ ∀ c ∈ u, p c := by
  have hnone (s : List α) : ∃ u, u ++ s = s ∧ ∀ c ∈ u, p c := ⟨[], rfl, fun _ hc => absurd hc List.not_mem_nil⟩
  have hboth {s u t : List α} (hu : ∃ v, v ++ u = s ∧ ∀ c ∈ v, p c) (ht : ∃ v, v ++ t = u ∧ ∀ c ∈ v, p c) :
      ∃ v, v ++ t = s ∧ ∀ c ∈ v, p c := by
    obtain ⟨v, rfl, hv⟩ := hu
    obtain ⟨w, rfl, hw⟩ := ht
    exact ⟨v ++ w, List.append_assoc v w t, fun c hc => (List.mem_append.mp hc).elim (hv c) (hw c)⟩
  induction r generalizing s t with
  | empty =>
    obtain rfl := List.mem_singleton.mp h
    exact hnone t
  | sat q =>
    cases s with
    | nil => cases h
    | cons c s =>
      unfold rests at h
      split_ifs at h with hq
      · obtain rfl := List.mem_singleton.mp h
        exact ⟨[c], rfl, List.forall_mem_singleton.mpr (hr c hq)⟩
      · cases h
  | seq a b iha ihb =>
    obtain ⟨u, hu, ht⟩ := List.mem_flatMap.mp h
    exact hboth (iha hr.1 hu) (ihb hr.2 ht)
  | alt a b iha ihb =>
    rcases List.mem_append.mp h with ha | hb
    · exact iha hr.1 ha
    · exact ihb hr.2 hb
  | star a ih =>
    have hrounds : ∀ (n : Nat) (s : List α), ∀ t ∈ repeated a.rests n s, ∃ u, u ++ t = s ∧ ∀ c ∈ u, p c := by
      intro n
      induction n with
      | zero =>
        intro s t ht
        obtain rfl := List.mem_singleton.mp ht
        exact hnone t
      | succ n ihn =>
        intro s t ht
        rcases List.mem_append.mp ht with hmore | hstop
        · obtain ⟨u, hu, ht⟩ := List.mem_flatMap.mp hmore
          exact hboth (ih hr (List.mem_of_mem_filter hu)) (ihn u t ht)
        · obtain rfl := List.mem_singleton.mp hstop
          exact hnone t
    exact hrounds _ _ _ h

theorem rests_suffix (r : Pattern α) {s t : List α} (h : t ∈ r.rests s) : t <:+ s := by
  obtain ⟨u, hu, -⟩ := rests_split r.within_true h
  exact ⟨u, hu⟩

/-- A match is a piece of the text at its position, it is not empty, and the pattern matches it there. -/
theorem scanFrom_piece (r : Pattern α) {pos skip : Nat} {u s : List α} (hu : u.length = pos) {l : List α × Nat}
    (h : l ∈ scanFrom r pos skip s) :
    l.1 ≠ [] ∧ ∃ a b, u ++ s = a ++ l.1 ++ b ∧ a.length = l.2 ∧ b ∈ r.rests (l.1 ++ b) := by
  induction s generalizing u pos skip with
  | nil =>
    cases skip <;> cases h
  | cons c s ih =>
    have hnext : ∀ {k : Nat}, l ∈ scanFrom r (pos + 1) k s →
        l.1 ≠ [] ∧ ∃ a b, u ++ c :: s = a ++ l.1 ++ b ∧ a.length = l.2 ∧ b ∈ r.rests (l.1 ++ b) := by
      intro k hk
      obtain ⟨hne, a, b, hsplit, ha⟩ := ih (u := u ++ [c]) (by rw [List.length_append, hu]; rfl) hk
      refine ⟨hne, a, b, ?_, ha⟩
      rw [← hsplit, List.append_assoc, List.singleton_append]
    cases skip with
    | succ skip => exact hnext h
    | zero =>
      unfold scanFrom at h
      cases hfirst : (r.rests (c :: s)).head? with
      | none =>
        rw [hfirst] at h
        exact hnext h
      | some rest =>
        rw [hfirst] at h
        dsimp only at h
        split_ifs at h with hlen
        · rcases List.mem_cons.mp h with rfl | h
          · have hmem := List.mem_of_mem_head? hfirst
            have hsplit : (c :: s).take (s.length + 1 - rest.length) ++ rest = c :: s := by
              obtain ⟨t, ht⟩ := rests_suffix r hmem
              have hlength := congrArg List.length ht
              rw [List.length_append, List.length_cons] at hlength
              rw [← ht, show s.length + 1 - rest.length = t.length by omega, List.take_left]
            refine ⟨?_, u, rest, ?_, hu, ?_⟩
            · refine List.ne_nil_of_length_pos ?_
              rw [List.length_take, List.length_cons]
              omega
            · rw [List.append_assoc, hsplit]
            · rw [hsplit]
              exact hmem
          · exact hnext h
        · exact hnext h

theorem scan_piece (r : Pattern α) {s : List α} {l : List α × Nat} (h : l ∈ scan r s) :
    l.1 ≠ [] ∧ ∃ a b, s = a ++ l.1 ++ b ∧ a.length = l.2 ∧ b ∈ r.rests (l.1 ++ b) :=
  scanFrom_piece r (u := []) rfl h

theorem le_of_mem_scanFrom (r : Pattern α) {pos skip : Nat} {s : List α} {l : List α × Nat}
    (h : l ∈ scanFrom r pos skip s) : pos + skip ≤ l.2 := by
  induction s generalizing pos skip with
  | nil =>
    cases skip <;> cases h
  | cons c s ih =>
    cases skip with
    | succ skip =>
      have := ih h
      omega
    | zero =>
      unfold scanFrom at h
      split at h
      · split_ifs at h with hlen
        · rcases List.mem_cons.mp h with rfl | h
          · exact Nat.le_refl _
          · have := ih h
            omega
        · have := ih h
          omega
      · have := ih h
        omega

/-- Each match stands behind those before it. -/
theorem scan_ascending (r : Pattern α) (s : List α) :
    (scan r s).Pairwise fun l m => l.2 + l.1.length ≤ m.2 := by
  have hfrom : ∀ (s : List α) (pos skip : Nat), (scanFrom r pos skip s).Pairwise fun l m => l.2 + l.1.length ≤ m.2 := by
    intro s
    induction s with
    | nil =>
      intro pos skip
      cases skip <;> exact List.Pairwise.nil
    | cons c s ih =>
      intro pos skip
      cases skip with
      | succ skip => exact ih _ _
      | zero =>
        unfold scanFrom
        split
        · split_ifs with hlen
          · refine List.pairwise_cons.mpr ⟨fun m hm => ?_, ih _ _⟩
            have hbehind := le_of_mem_scanFrom r hm
            rw [List.length_take, List.length_cons]
            omega
          · exact ih _ _
        · exact ih _ _
  exact hfrom s 0 0

end Pattern
