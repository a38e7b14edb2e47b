import Mathlib.Data.List.Basic

/-! Texts that are read block by block: the whole blocks, and what is left over. -/
namespace BlockText
variable {α σ : Type*} {n : Nat} {l b : List α}

/-- The whole blocks of a text. -/
def blocks (n : Nat) (l : List α) : List (List α) :=
  (List.range (l.length / n)).map fun i => (l.drop (n * i)).take n

/-- What is left after the whole blocks. -/
def rest (n : Nat) (l : List α) : List α := l.drop (n * (l.length / n))

/-- A state that takes the whole blocks of a text. -/
def chained (f : σ → List α → σ) (n : Nat) (s : σ) (l : List α) : σ := (blocks n l).foldl f s

@[simp]
theorem length_rest (n : Nat) (l : List α) : (rest n l).length = l.length % n := by
  rw [rest, List.length_drop, Nat.mod_eq_sub_mul_div]

theorem length_rest_lt (hn : 0 < n) (l : List α) : (rest n l).length < n := by
  rw [length_rest]
  exact Nat.mod_lt _ hn

theorem blocks_of_lt (h : l.length < n) : blocks n l = [] := by
  rw [blocks, Nat.div_eq_of_lt h]
  rfl

theorem rest_of_lt (h : l.length < n) : rest n l = l := by
  rw [rest, Nat.div_eq_of_lt h]
  rfl

theorem length_div_append (hn : 0 < n) (hb : b.length = n) (l : List α) : (b ++ l).length / n = l.length / n + 1 := by
  rw [List.length_append, hb, Nat.add_comm, Nat.add_div_right _ hn]

theorem drop_append_succ (hb : b.length = n) (l : List α) (i : Nat) : (b ++ l).drop (n * (i + 1)) = l.drop (n * i) := by
  rw [Nat.mul_succ, Nat.add_comm, ← List.drop_drop, List.drop_left' hb]

theorem blocks_append (hn : 0 < n) (hb : b.length = n) (l : List α) : blocks n (b ++ l) = b :: blocks n l := by
  rw [blocks, length_div_append hn hb, List.range_succ_eq_map, List.map_cons, List.map_map, Nat.mul_zero, List.drop_zero,
    List.take_left' hb]
  refine congrArg (b :: ·) (List.map_congr_left fun i _ => ?_)
  exact congrArg (List.take n) (drop_append_succ hb l i)

theorem rest_append (hn : 0 < n) (hb : b.length = n) (l : List α) : rest n (b ++ l) = rest n l := by
  rw [rest, length_div_append hn hb]
  exact drop_append_succ hb l _

/-- A text is read in two parts: what is left of the first part comes before the second. -/
theorem append_eq (hn : 0 < n) (l l' : List α) :
    blocks n (l ++ l') = blocks n l ++ blocks n (rest n l ++ l') ∧ rest n (l ++ l') = rest n (rest n l ++ l') := by
  induction hlength : l.length using Nat.strongRecOn generalizing l with
  | ind k ih =>
    by_cases hlt : l.length < n
    · rw [blocks_of_lt hlt, rest_of_lt hlt]
      exact ⟨rfl, rfl⟩
    · have hb : (l.take n).length = n := List.length_take_of_le (Nat.not_lt.mp hlt)
      have hshort : (l.drop n).length < k := by
        rw [List.length_drop]
        omega
      have hl : l = l.take n ++ l.drop n := (List.take_append_drop n l).symm
      obtain ⟨hblocks, hrest⟩ := ih _ hshort (l.drop n) rfl
      rw [hl, List.append_assoc, blocks_append hn hb, blocks_append hn hb, rest_append hn hb, rest_append hn hb, hblocks,
        hrest]
      exact ⟨rfl, rfl⟩

theorem chained_append (f : σ → List α → σ) (hn : 0 < n) (s : σ) (l l' : List α) :
    chained f n s (l ++ l') = chained f n (chained f n s l) (rest n l ++ l') := by
  rw [chained, (append_eq hn l l').1, List.foldl_append]
  rfl

theorem chained_of_lt (f : σ → List α → σ) (s : σ) (h : l.length < n) : chained f n s l = s := by
  rw [chained, blocks_of_lt h]
  rfl

theorem chained_block (f : σ → List α → σ) (hn : 0 < n) (s : σ) (hb : b.length = n) (l : List α) :
    chained f n s (b ++ l) = chained f n (f s b) l := by
  rw [chained, blocks_append hn hb]
  rfl

theorem chained_single (f : σ → List α → σ) (hn : 0 < n) (s : σ) (hb : b.length = n) : chained f n s b = f s b := by
  have hchained := chained_block f hn s hb []
  rw [List.append_nil] at hchained
  exact hchained.trans (chained_of_lt f _ hn)

/-- One more character that does not fill the block. -/
theorem concat_short (f : σ → List α → σ) (s : σ) (a : α) (h : (rest n l).length + 1 < n) :
    chained f n s (l ++ [a]) = chained f n s l ∧ rest n (l ++ [a]) = rest n l ++ [a] := by
  have hn : 0 < n := Nat.zero_lt_of_lt h
  have hlt : (rest n l ++ [a]).length < n := by rwa [List.length_append, List.length_singleton]
  exact ⟨(chained_append f hn s l [a]).trans (chained_of_lt f _ hlt), (append_eq hn l [a]).2.trans (rest_of_lt hlt)⟩

/-- One more character that fills the block. -/
theorem concat_full (f : σ → List α → σ) (s : σ) (a : α) (h : (rest n l).length + 1 = n) :
    chained f n s (l ++ [a]) = f (chained f n s l) (rest n l ++ [a]) ∧ rest n (l ++ [a]) = [] := by
  have hn : 0 < n := by omega
  have hb : (rest n l ++ [a]).length = n := by rwa [List.length_append, List.length_singleton]
  have hrest := rest_append hn hb []
  rw [List.append_nil] at hrest
  refine ⟨(chained_append f hn s l [a]).trans (chained_single f hn _ hb), ?_⟩
  exact (append_eq hn l [a]).2.trans (hrest.trans (rest_of_lt hn))

end BlockText
