import Mathlib.Algebra.BigOperators.Group.List.Basic
import Mathlib.Data.List.Basic
import Mathlib.Data.List.Infix

/-! Leftmost occurrences of one list in another, and the cut of a list at every
occurrence of a separator. The search is the one of a `find` on character strings. -/
namespace Occurrence
variable {α : Type*} [DecidableEq α]

/-- Position of the leftmost occurrence of a pattern. -/
def find (pat : List α) : List α → Option Nat
  | [] => if pat = [] then some 0 else none
  | c :: s => if pat.isPrefixOf (c :: s) then some 0 else (find pat s).map (· + 1)

theorem find_eq_zero {pat s : List α} (h : pat <+: s) : find pat s = some 0 := by
  cases s with
  | nil => simp [find, List.prefix_nil.mp h]
  | cons c s => simp [find, List.isPrefixOf_iff_prefix.mpr h]

theorem find_cons {pat : List α} {c : α} {s : List α} (h : ¬ pat <+: c :: s) :
    find pat (c :: s) = (find pat s).map (· + 1) := by
  have hp : pat.isPrefixOf (c :: s) = false := by
    rw [← Bool.not_eq_true, List.isPrefixOf_iff_prefix]
    exact h
  simp [find, hp]

theorem find_eq_none_iff {pat s : List α} : find pat s = none ↔ ¬ pat <:+: s := by
  induction s with
  | nil => by_cases hp : pat = [] <;> simp [find, hp]
  | cons c s ih =>
    by_cases hp : pat <+: c :: s
    · simp [find_eq_zero hp, hp.isInfix]
    · rw [find_cons hp, Option.map_eq_none_iff, ih, List.infix_cons_iff]
      simp [hp]

/-- A found position splits the text around the pattern. -/
theorem find_split {pat s : List α} {n : Nat} (h : find pat s = some n) :
    s = s.take n ++ pat ++ s.drop (n + pat.length) := by
  induction s generalizing n with
  | nil =>
    by_cases hp : pat = []
    · simp [hp]
    · simp [find, hp] at h
  | cons c s ih =>
    by_cases hp : pat <+: c :: s
    · rw [find_eq_zero hp] at h
      obtain rfl : 0 = n := by simpa using h
      obtain ⟨t, ht⟩ := hp
      simp [← ht]
    · rw [find_cons hp, Option.map_eq_some_iff] at h
      obtain ⟨m, hm, rfl⟩ := h
      have := ih hm
      simpa [Nat.add_right_comm m 1, List.drop_succ_cons] using this

theorem find_le {pat s : List α} {n : Nat} (h : find pat s = some n) :
    n + pat.length ≤ s.length := by
  have hs := congrArg List.length (find_split h)
  simp only [List.length_append, List.length_take, List.length_drop] at hs
  by_contra hlt
  have hn : n ≤ s.length := by
    by_contra hgt
    have : min n s.length = s.length := by omega
    have hp : pat.length = 0 := by omega
    have hz : pat = [] := List.length_eq_zero_iff.mp hp
    subst hz
    rw [find_eq_zero List.nil_prefix] at h
    simp at h
    omega
  omega

/-- No earlier occurrence: the search stops at the written separator. -/
theorem find_append {pat : List α} (hp : pat ≠ []) (a b : List α)
    (h : ¬ pat <:+: a ++ pat.dropLast) : find pat (a ++ pat ++ b) = some a.length := by
  induction a with
  | nil => simpa using find_eq_zero (List.prefix_append pat b)
  | cons c a ih =>
    have hlen : pat.dropLast.length + 1 = pat.length := by
      have := List.length_pos_iff.mpr hp
      simp
      omega
    have hno : ¬ pat <+: c :: (a ++ pat ++ b) := by
      intro hpre
      have hmid : c :: (a ++ pat.dropLast) <+: c :: (a ++ pat ++ b) := by
        rw [List.append_assoc]
        exact (List.prefix_append_right_inj (c :: a)).mpr
          ((List.dropLast_prefix pat).trans (List.prefix_append _ _))
      have := List.prefix_of_prefix_length_le hpre hmid (by simp; omega)
      exact h this.isInfix
    have hrest : ¬ pat <:+: a ++ pat.dropLast :=
      fun hin => h (hin.trans (List.suffix_cons c _).isInfix)
    rw [List.cons_append, List.cons_append, find_cons hno, ih hrest]
    rfl

/-- What comes after an occurrence does not move it. -/
theorem find_append_of_find {pat s : List α} {n : Nat} (h : find pat s = some n) (t : List α) :
    find pat (s ++ t) = some n := by
  induction s generalizing n with
  | nil =>
    by_cases hp : pat = []
    · subst hp
      rw [← h, find_eq_zero List.nil_prefix, find_eq_zero List.nil_prefix]
    · simp [find, hp] at h
  | cons c s ih =>
    have hle := find_le h
    by_cases hp : pat <+: c :: s
    · rw [find_eq_zero hp] at h
      rw [← h, find_eq_zero (hp.trans (List.prefix_append _ t))]
    · rw [find_cons hp, Option.map_eq_some_iff] at h
      obtain ⟨m, hm, rfl⟩ := h
      have hno : ¬ pat <+: c :: (s ++ t) := by
        intro hpre
        exact hp (List.prefix_of_prefix_length_le hpre (List.prefix_append (c :: s) t) (by omega))
      rw [List.cons_append, find_cons hno, ih hm]
      rfl

/-- A text without the first character of the pattern is passed over. -/
theorem find_append_of_notMem {c : α} {pat a : List α} (h : c ∉ a) (s : List α) :
    find (c :: pat) (a ++ s) = (find (c :: pat) s).map (· + a.length) := by
  induction a with
  | nil => simp
  | cons x a ih =>
    obtain ⟨hx, ha⟩ : c ≠ x ∧ c ∉ a := by simpa using h
    have hno : ¬ c :: pat <+: x :: (a ++ s) := fun hpre => hx (List.cons_prefix_cons.mp hpre).1
    rw [List.cons_append, find_cons hno, ih ha, Option.map_map]
    rfl

private def splitAux (delim : List α) : Nat → List α → List (List α)
  | 0, s => [s]
  | fuel + 1, s =>
    match find delim s with
    | none => [s]
    | some n => s.take n :: splitAux delim fuel (s.drop (n + delim.length))

/-- The pieces between the leftmost non-overlapping occurrences of a separator. -/
def split (delim s : List α) : List (List α) := splitAux delim (s.length + 1) s

private theorem splitAux_fuel {delim : List α} (hd : delim ≠ []) (fuel : Nat) (s : List α)
    (h : s.length < fuel) : splitAux delim fuel s = split delim s := by
  have hpos := List.length_pos_iff.mpr hd
  have main : ∀ f g (t : List α), t.length < f → t.length < g →
      splitAux delim f t = splitAux delim g t := by
    intro f
    induction f with
    | zero => intro g t hf; omega
    | succ f ih =>
      intro g t hf hg
      obtain ⟨g, rfl⟩ : ∃ g', g = g' + 1 := ⟨g - 1, by omega⟩
      simp only [splitAux]
      cases hn : find delim t with
      | none => rfl
      | some n =>
        have := find_le hn
        simp only
        rw [ih g _ (by simp; omega) (by simp; omega)]
  exact main _ _ s h (Nat.lt_succ_self _)

theorem split_of_notMem {delim s : List α} (h : ¬ delim <:+: s) : split delim s = [s] := by
  simp [split, splitAux, find_eq_none_iff.mpr h]

theorem split_of_find {delim s : List α} (hd : delim ≠ []) {n : Nat} (h : find delim s = some n) :
    split delim s = s.take n :: split delim (s.drop (n + delim.length)) := by
  have hpos := List.length_pos_iff.mpr hd
  have hle := find_le h
  rw [split, splitAux, h]
  simp only
  rw [splitAux_fuel hd _ _ (by simp; omega)]

theorem split_append {delim : List α} (hd : delim ≠ []) (a b : List α)
    (h : ¬ delim <:+: a ++ delim.dropLast) : split delim (a ++ delim ++ b) = a :: split delim b := by
  rw [split_of_find hd (find_append hd a b h)]
  simp

/-- A found occurrence is the leftmost: none ends before its last character. -/
theorem notInfix_of_find {pat s : List α} (hp : pat ≠ []) {n : Nat} (h : find pat s = some n) :
    ¬ pat <:+: s.take n ++ pat.dropLast := by
  intro hin
  obtain ⟨m, hm⟩ := Option.ne_none_iff_exists'.mp (find_eq_none_iff.not.mpr (not_not_intro hin))
  have hle := find_le hm
  have hpos := List.length_pos_iff.mpr hp
  have hs : s = (s.take n ++ pat.dropLast) ++ (pat.getLast hp :: s.drop (n + pat.length)) := by
    calc s = s.take n ++ pat ++ s.drop (n + pat.length) := find_split h
      _ = s.take n ++ (pat.dropLast ++ [pat.getLast hp]) ++ s.drop (n + pat.length) := by
        rw [List.dropLast_append_getLast hp]
      _ = _ := by simp
  have hfind := find_append_of_find hm (pat.getLast hp :: s.drop (n + pat.length))
  rw [← hs, h] at hfind
  obtain rfl := Option.some.inj hfind
  simp only [List.length_append, List.length_take, List.length_dropLast] at hle
  omega

/-- The pieces of a text between leftmost occurrences of a separator that do not overlap. -/
inductive Cut (delim : List α) : List α → List (List α) → Prop
  | last {s : List α} (h : ¬ delim <:+: s) : Cut delim s [s]
  | piece {a b : List α} {ps : List (List α)} (h : ¬ delim <:+: a ++ delim.dropLast) (rest : Cut delim b ps) :
      Cut delim (a ++ delim ++ b) (a :: ps)

/-- The split is the cut of every text. -/
theorem cut_split {delim : List α} (hd : delim ≠ []) (s : List α) : Cut delim s (split delim s) := by
  induction hn : s.length using Nat.strong_induction_on generalizing s with
  | _ n ih =>
    subst hn
    cases hf : find delim s with
    | none =>
      rw [split_of_notMem (find_eq_none_iff.mp hf)]
      exact .last (find_eq_none_iff.mp hf)
    | some k =>
      have hle := find_le hf
      have hpos := List.length_pos_iff.mpr hd
      have hrest := ih _ (by rw [List.length_drop]; omega) (s.drop (k + delim.length)) rfl
      rw [split_of_find hd hf]
      conv => arg 2; rw [find_split hf]
      exact .piece (notInfix_of_find hd hf) hrest

omit [DecidableEq α] in
theorem Cut.notInfix {delim s : List α} {ps : List (List α)} (h : Cut delim s ps) :
    ∀ p ∈ ps, ¬ delim <:+: p := by
  induction h with
  | last h => simpa using h
  | @piece a b ps h _ ih =>
    intro p hp
    rcases List.mem_cons.mp hp with rfl | hp
    · exact fun hin => h (hin.trans (List.prefix_append _ _).isInfix)
    · exact ih p hp

theorem length_le_of_mem_split {delim : List α} (hd : delim ≠ []) (s : List α) :
    ∀ p ∈ split delim s, p.length ≤ s.length := by
  induction hn : s.length using Nat.strong_induction_on generalizing s with
  | _ n ih =>
    subst hn
    have hpos := List.length_pos_iff.mpr hd
    cases hf : find delim s with
    | none => simp [split_of_notMem (find_eq_none_iff.mp hf)]
    | some m =>
      have hle := find_le hf
      have hlen : (s.drop (m + delim.length)).length < s.length := by simp; omega
      rw [split_of_find hd hf]
      intro p hp
      rcases List.mem_cons.mp hp with rfl | hp
      · exact (List.length_take_le' _ _)
      · exact (ih _ hlen _ rfl p hp).trans hlen.le

theorem length_lt_of_mem_split {delim s : List α} (hd : delim ≠ []) (h : delim <:+: s) :
    ∀ p ∈ split delim s, p.length < s.length := by
  have hpos := List.length_pos_iff.mpr hd
  cases hf : find delim s with
  | none => exact absurd h (find_eq_none_iff.mp hf)
  | some m =>
    have hle := find_le hf
    rw [split_of_find hd hf]
    intro p hp
    rcases List.mem_cons.mp hp with rfl | hp
    · simp
      omega
    · have := length_le_of_mem_split hd _ p hp
      simp at this
      omega

/-- The non-empty pieces, in order. -/
def tokens (delim s : List α) : List (List α) := (split delim s).filter (· ≠ [])

theorem tokens_append {delim : List α} (hd : delim ≠ []) {a : List α} (ha : a ≠ []) (b : List α)
    (h : ¬ delim <:+: a ++ delim.dropLast) : tokens delim (a ++ delim ++ b) = a :: tokens delim b := by
  rw [tokens, split_append hd a b h, List.filter_cons_of_pos (by simpa using ha), tokens]

/-- The tokens up to the first occurrence, and those behind it. -/
theorem tokens_of_find {delim s : List α} (hd : delim ≠ []) {n : Nat} (h : find delim s = some n) :
    tokens delim s = (if s.take n ≠ [] then [s.take n] else []) ++ tokens delim (s.drop (n + delim.length)) := by
  rw [tokens, split_of_find hd h, tokens]
  by_cases hne : s.take n = []
  · rw [List.filter_cons_of_neg (by simp [hne]), if_neg (not_not_intro hne), List.nil_append]
  · rw [List.filter_cons_of_pos (by simpa using hne), if_pos hne, List.singleton_append]

/-- One character as separator: the tokens up to its first copy, and those behind it. -/
theorem tokens_append_cons {c : α} {a : List α} (ha : c ∉ a) (b : List α) :
    tokens [c] (a ++ c :: b) = [a].filter (· ≠ []) ++ tokens [c] b := by
  have hno : ¬ [c] <:+: a ++ [c].dropLast := by simpa [List.singleton_infix_iff] using ha
  have hsplit := split_append (List.cons_ne_nil c []) a b hno
  rw [List.append_assoc, List.singleton_append] at hsplit
  rw [tokens, hsplit, ← List.singleton_append, List.filter_append, tokens]

theorem tokens_of_notMem {c : α} {s : List α} (h : c ∉ s) : tokens [c] s = [s].filter (· ≠ []) := by
  rw [tokens, split_of_notMem (by simpa [List.singleton_infix_iff] using h)]

/-- The pieces have the characters of the text, in order, without those of the separators. -/
theorem flatten_split_sublist {delim : List α} (hd : delim ≠ []) (s : List α) : (split delim s).flatten.Sublist s := by
  induction hlength : s.length using Nat.strong_induction_on generalizing s with
  | _ n ih =>
    cases hf : find delim s with
    | none =>
      rw [split_of_notMem (find_eq_none_iff.mp hf), List.flatten_singleton]
    | some k =>
      have hle := find_le hf
      have hpos := List.length_pos_iff.mpr hd
      have hrest := ih _ (by rw [List.length_drop]; omega) (s.drop (k + delim.length)) rfl
      rw [split_of_find hd hf, List.flatten_cons]
      conv_rhs => rw [find_split hf, List.append_assoc]
      exact (List.Sublist.refl _).append (hrest.trans (List.sublist_append_right delim _))

theorem flatten_tokens_sublist {delim : List α} (hd : delim ≠ []) (s : List α) :
    (tokens delim s).flatten.Sublist s := by
  rw [tokens, List.flatten_filter_ne_nil]
  exact flatten_split_sublist hd s

/-- There are no more pieces than bytes. -/
theorem length_tokens_le {delim : List α} (hd : delim ≠ []) (s : List α) : (tokens delim s).length ≤ s.length := by
  have hone : ∀ n ∈ (tokens delim s).map List.length, 1 ≤ n := by
    intro n hn
    obtain ⟨t, ht, rfl⟩ := List.mem_map.mp hn
    exact List.length_pos_of_ne_nil (of_decide_eq_true (List.mem_filter.mp ht).2)
  calc (tokens delim s).length = ((tokens delim s).map List.length).length := (List.length_map _).symm
    _ ≤ ((tokens delim s).map List.length).sum := List.length_le_sum_of_one_le _ hone
    _ = (tokens delim s).flatten.length := List.length_flatten.symm
    _ ≤ s.length := (flatten_tokens_sublist hd s).length_le

/-- A separator in the text is in none of the pieces. -/
theorem length_flatten_tokens_lt {delim s : List α} (hd : delim ≠ []) (h : delim <:+: s) :
    (tokens delim s).flatten.length < s.length := by
  have hpos := List.length_pos_iff.mpr hd
  obtain ⟨n, hn⟩ := Option.ne_none_iff_exists'.mp (find_eq_none_iff.not.mpr (not_not_intro h))
  have hle := find_le hn
  have hrest := (flatten_tokens_sublist hd (s.drop (n + delim.length))).length_le
  rw [List.length_drop] at hrest
  rw [tokens_of_find hd hn, List.flatten_append, List.length_append]
  have hfirst : (if s.take n ≠ [] then [s.take n] else []).flatten.length ≤ n := by
    split_ifs
    · rw [List.flatten_singleton, List.length_take]
      exact Nat.min_le_left n s.length
    · exact Nat.zero_le n
  omega

/-- A text is its own single token exactly when it is non-empty and free of the separator. -/
theorem tokens_eq_singleton_iff {delim s : List α} (hd : delim ≠ []) :
    tokens delim s = [s] ↔ s ≠ [] ∧ ¬ delim <:+: s := by
  constructor
  · intro h
    have hm : s ∈ tokens delim s := by simp [h]
    obtain ⟨hs, hne⟩ := List.mem_filter.mp hm
    refine ⟨by simpa using hne, fun hin => ?_⟩
    exact absurd (length_lt_of_mem_split hd hin s hs) (lt_irrefl _)
  · rintro ⟨hne, hno⟩
    simp [tokens, split_of_notMem hno, hne]

/-- Pieces that are put together without a separator are found again only if there is one of them. -/
theorem tokens_flatten_iff {delim : List α} (hd : delim ≠ []) {vs : List (List α)}
    (hvs : ∀ v ∈ vs, v ≠ [] ∧ ¬ delim <:+: v) (hne : vs ≠ []) : tokens delim vs.flatten = vs ↔ vs.length = 1 := by
  constructor
  · intro h
    have hno : ¬ delim <:+: vs.flatten := by
      intro hin
      have hlt := length_flatten_tokens_lt hd hin
      rw [h] at hlt
      exact lt_irrefl _ hlt
    have hflat : vs.flatten ≠ [] := by
      obtain ⟨v, vs, rfl⟩ := List.exists_cons_of_ne_nil hne
      simp [(hvs v List.mem_cons_self).1]
    rw [← h, (tokens_eq_singleton_iff hd).mpr ⟨hflat, hno⟩, List.length_singleton]
  · intro h
    obtain ⟨v, rfl⟩ := List.length_eq_one_iff.mp h
    rw [List.flatten_singleton]
    exact (tokens_eq_singleton_iff hd).mpr (hvs v (List.mem_singleton_self v))

theorem tokens_append_flatMap_cons {c : α} {v : List α} {vs : List (List α)} (hv : c ∉ v)
    (hvs : ∀ w ∈ vs, w ≠ [] ∧ c ∉ w) :
    tokens [c] (v ++ vs.flatMap (c :: ·)) = [v].filter (· ≠ []) ++ vs := by
  induction vs generalizing v with
  | nil => simpa using tokens_of_notMem hv
  | cons w vs ih =>
    obtain ⟨hw, hvs⟩ := List.forall_mem_cons.mp hvs
    have hfilter : [w].filter (· ≠ []) = [w] := by simp [hw.1]
    rw [List.flatMap_cons, List.cons_append, tokens_append_cons hv, ih hw.2 hvs, hfilter, List.singleton_append]

/-- Pieces with a separator character in front of each are found again. -/
theorem tokens_flatMap_cons {c : α} {vs : List (List α)} (hvs : ∀ v ∈ vs, v ≠ [] ∧ c ∉ v) :
    tokens [c] (vs.flatMap (c :: ·)) = vs :=
  tokens_append_flatMap_cons List.not_mem_nil hvs

/-- A match cannot reach into a tail that lacks the last character of the pattern. -/
theorem find_le_of_notMem {pat s e : List α} (hp : pat ≠ []) (hlast : pat.getLast hp ∉ e) {n : Nat}
    (h : find pat (s ++ e) = some n) : n + pat.length ≤ s.length := by
  obtain ⟨init, c, rfl⟩ : ∃ init c, pat = init ++ [c] := ⟨_, _, (List.dropLast_append_getLast hp).symm⟩
  rw [List.getLast_append_singleton] at hlast
  have hle := find_le h
  have hs := find_split h
  rw [List.append_assoc, List.append_assoc, ← List.append_assoc _ init] at hs
  have htake : ((s ++ e).take n ++ init).length = n + init.length := by
    simp only [List.length_append, List.length_cons, List.length_nil, List.length_take] at hle ⊢
    omega
  rcases List.append_eq_append_iff.mp hs with ⟨a, -, he⟩ | ⟨a, hsa, ha⟩
  · exact absurd (by rw [he]; simp) hlast
  · cases a with
    | nil => exact absurd (by rw [List.nil_append] at ha; rw [← ha]; simp) hlast
    | cons x a =>
      have hlen := congrArg List.length hsa
      rw [List.length_append, htake] at hlen
      simp only [List.length_cons, List.length_append, List.length_nil] at hlen ⊢
      omega

/-- The last token keeps such a tail whole. -/
theorem tokens_append_suffix {pat : List α} (hp : pat ≠ []) {e : List α} (he : e ≠ [])
    (hlast : pat.getLast hp ∉ e) (s : List α) : ∃ init x, tokens pat (s ++ e) = init ++ [x] ∧ e <:+ x := by
  induction hn : s.length using Nat.strong_induction_on generalizing s with
  | _ n ih =>
    subst hn
    have hpos := List.length_pos_iff.mpr hp
    cases hf : find pat (s ++ e) with
    | none =>
      refine ⟨[], s ++ e, ?_, List.suffix_append _ _⟩
      simp [tokens, split_of_notMem (find_eq_none_iff.mp hf), he]
    | some m =>
      have hle := find_le_of_notMem hp hlast hf
      have hdrop : (s ++ e).drop (m + pat.length) = s.drop (m + pat.length) ++ e :=
        List.drop_append_of_le_length hle
      obtain ⟨init, x, hx, hsuf⟩ := ih _ (by simp; omega) (s.drop (m + pat.length)) rfl
      rw [tokens, split_of_find hp hf, hdrop, List.filter_cons]
      split
      · exact ⟨_ :: init, x, by rw [← tokens, hx]; rfl, hsuf⟩
      · exact ⟨init, x, hx, hsuf⟩

end Occurrence
