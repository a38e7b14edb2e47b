import Jericho.Util.Substrcmp

/-! The order of `prizm::substrcmp`: the lexicographic one, as far as its counters go. -/
namespace Jericho.Util
open StdText

theorem commonLength_self (s : Bytes) : commonLength s s = s.length := by
  induction s with
  | nil => rfl
  | cons a s ih => rw [commonLength_cons_self, ih, List.length_cons]

theorem commonLength_le (s t : Bytes) : commonLength s t ≤ s.length := by
  induction s generalizing t with
  | nil => exact Nat.zero_le _
  | cons a s ih =>
    cases t with
    | nil => exact Nat.zero_le _
    | cons b t =>
      by_cases hab : a = b
      · subst hab
        rw [commonLength_cons_self]
        exact Nat.succ_le_succ (ih t)
      · rw [commonLength_cons_ne hab]
        exact Nat.zero_le _

/-- What two strings have in common up to the common length. -/
theorem take_commonLength (s t : Bytes) : s.take (commonLength s t) = t.take (commonLength s t) := by
  induction s generalizing t with
  | nil => simp [commonLength]
  | cons a s ih =>
    cases t with
    | nil => simp [commonLength]
    | cons b t =>
      by_cases hab : a = b
      · subst hab
        rw [commonLength_cons_self, List.take_succ_cons, List.take_succ_cons, ih]
      · rw [commonLength_cons_ne hab, List.take_zero, List.take_zero]

/-- Every common prefix is as long at most. -/
theorem length_le_commonLength {p s t : Bytes} (hs : p <+: s) (ht : p <+: t) : p.length ≤ commonLength s t := by
  induction p generalizing s t with
  | nil => exact Nat.zero_le _
  | cons c p ih =>
    obtain ⟨s', rfl⟩ := hs
    obtain ⟨t', rfl⟩ := ht
    rw [List.cons_append, List.cons_append, commonLength_cons_self, List.length_cons]
    exact Nat.succ_le_succ (ih (List.prefix_append p s') (List.prefix_append p t'))

theorem chars_cons_le {a b : Byte} {s t : Bytes} :
    chars (a :: s) ≤ chars (b :: t) ↔ charVal a < charVal b ∨ a = b ∧ chars s ≤ chars t := by
  rw [← not_lt, ← not_lt]
  rcases lt_trichotomy (charVal a) (charVal b) with hlt | heq | hgt
  · refine iff_of_true (fun h => ?_) (.inl hlt)
    rcases List.cons_lt_cons_iff.mp h with h | ⟨h, -⟩
    · exact hlt.not_gt h
    · exact hlt.ne' h
  · obtain rfl := charVal_injective heq
    rw [chars_cons_lt_self]
    simp
  · refine iff_of_false (not_not_intro (List.cons_lt_cons_iff.mpr (.inl hgt))) ?_
    rintro (h | ⟨rfl, -⟩)
    · exact hgt.not_gt h
    · exact lt_irrefl _ hgt

/-- Of three strings in order, the outer two have no more in common than the first two. -/
theorem commonLength_le_of_between {s t u : Bytes} (hst : chars s ≤ chars t) (htu : chars t ≤ chars u) :
    commonLength s u ≤ commonLength s t := by
  induction s generalizing t u with
  | nil => exact Nat.zero_le _
  | cons a s ih =>
    cases u with
    | nil => exact Nat.zero_le _
    | cons c u =>
      by_cases hac : a = c
      · subst hac
        cases t with
        | nil => exact absurd hst (List.nil_lt_cons _ _).not_ge
        | cons b t =>
          rcases chars_cons_le.mp hst with hlt | ⟨rfl, hrest⟩
          · rcases chars_cons_le.mp htu with hgt | ⟨rfl, -⟩
            · exact absurd hgt hlt.not_gt
            · exact absurd hlt (lt_irrefl _)
          · rcases chars_cons_le.mp htu with hgt | ⟨-, hrest'⟩
            · exact absurd hgt (lt_irrefl _)
            · rw [commonLength_cons_self, commonLength_cons_self]
              exact Nat.succ_le_succ (ih hrest hrest')
      · rw [commonLength_cons_ne hac]
        exact Nat.zero_le _

/-- The strings have a longest common prefix, of the common length. -/
theorem exists_commonPrefix (s t : Bytes) : ∃ p, p <+: s ∧ p <+: t ∧ p.length = commonLength s t := by
  refine ⟨s.take (commonLength s t), List.take_prefix _ _, ?_, List.length_take_of_le (commonLength_le s t)⟩
  rw [take_commonLength]
  exact List.take_prefix _ _

/-- No common prefix is longer than an `int` can count. -/
def Countable (s1 s2 : Bytes) : Prop := ∀ p, p <+: s1 → p <+: s2 → p.length < 2 ^ 31

theorem countable_iff {s1 s2 : Bytes} : Countable s1 s2 ↔ commonLength s1 s2 < 2 ^ 31 := by
  constructor
  · intro h
    obtain ⟨p, h1, h2, hlength⟩ := exists_commonPrefix s1 s2
    exact hlength ▸ h p h1 h2
  · exact fun h p h1 h2 => (length_le_commonLength h1 h2).trans_lt h

theorem Countable.symm {s1 s2 : Bytes} (h : Countable s1 s2) : Countable s2 s1 := fun p h1 h2 => h p h2 h1

/-- What the comparison of two strings is to say: their order, a proper prefix before the longer string, and the
length of their longest common prefix. -/
structure Compares (s1 s2 : Bytes) (first second : Int) : Prop where
  less : first = -1 ↔ chars s1 < chars s2
  same : first = 0 ↔ s1 = s2
  more : first = 1 ↔ chars s2 < chars s1
  common : ∃ p, p <+: s1 ∧ p <+: s2 ∧ second = p.length ∧ ∀ q, q <+: s1 → q <+: s2 → q.length ≤ p.length

theorem compares_lexSign (s1 s2 : Bytes) : Compares s1 s2 (lexSign s1 s2) (commonLength s1 s2 : ℕ) where
  less := lexSign_eq_neg_one
  same := lexSign_eq_zero
  more := lexSign_eq_one
  common := by
    obtain ⟨p, h1, h2, hlength⟩ := exists_commonPrefix s1 s2
    exact ⟨p, h1, h2, by rw [hlength], fun q hq1 hq2 => hlength ▸ length_le_commonLength hq1 hq2⟩

/-- The comparison returns, and does not put the second string first. -/
def NotAfter (s1 s2 : Bytes) : Prop := ∃ first second, substrcmp s1 s2 = .ok (first, second) ∧ first ≤ 0

theorem notAfter_iff {s1 s2 : Bytes} (h1 : s1 ≠ []) (h2 : s2 ≠ []) :
    NotAfter s1 s2 ↔ Countable s1 s2 ∧ chars s1 ≤ chars s2 := by
  have hsign : lexSign s1 s2 ≤ 0 ↔ chars s1 ≤ chars s2 := by
    unfold lexSign
    split_ifs with hlt hgt
    · exact iff_of_true (by decide) hlt.le
    · exact iff_of_false (by decide) hgt.not_ge
    · exact iff_of_true le_rfl (not_lt.mp hgt)
  unfold NotAfter
  rw [substrcmp_eq h1 h2, countable_iff, ← hsign]
  split_ifs with hcount
  · constructor
    · rintro ⟨first, second, hreturned, hle⟩
      obtain ⟨rfl, -⟩ := Prod.mk.inj (Except.ok.inj hreturned)
      exact ⟨hcount, hle⟩
    · exact fun h => ⟨_, _, rfl, h.2⟩
  · constructor
    · rintro ⟨first, second, hreturned, -⟩
      cases hreturned
    · exact fun h => absurd h.1 hcount

/-- On non-empty strings whose common prefixes an `int` can count, the comparison is that of the lexicographic
order, with the length of the longest common prefix, and the order is total, antisymmetric and transitive. -/
theorem substrcmp_lexicographic :
    (∀ s1 s2 : Bytes, s1 ≠ [] → s2 ≠ [] → Countable s1 s2 →
      ∃ first second, substrcmp s1 s2 = .ok (first, second) ∧ Compares s1 s2 first second) ∧
    (∀ s1 s2 : Bytes, s1 ≠ [] → s2 ≠ [] → Countable s1 s2 → NotAfter s1 s2 ∨ NotAfter s2 s1) ∧
    (∀ s1 s2 : Bytes, s1 ≠ [] → s2 ≠ [] → NotAfter s1 s2 → NotAfter s2 s1 → s1 = s2) ∧
    ∀ s1 s2 s3 : Bytes, s1 ≠ [] → s2 ≠ [] → s3 ≠ [] → NotAfter s1 s2 → NotAfter s2 s3 → NotAfter s1 s3 := by
  refine ⟨fun s1 s2 h1 h2 hcount => ?_, fun s1 s2 h1 h2 hcount => ?_, fun s1 s2 h1 h2 h12 h21 => ?_,
    fun s1 s2 s3 h1 h2 h3 h12 h23 => ?_⟩
  · refine ⟨_, _, ?_, compares_lexSign s1 s2⟩
    rw [substrcmp_eq h1 h2, if_pos (countable_iff.mp hcount)]
  · rw [notAfter_iff h1 h2, notAfter_iff h2 h1]
    exact (le_total (chars s1) (chars s2)).imp (fun h => ⟨hcount, h⟩) fun h => ⟨hcount.symm, h⟩
  · obtain ⟨-, hle⟩ := (notAfter_iff h1 h2).mp h12
    obtain ⟨-, hge⟩ := (notAfter_iff h2 h1).mp h21
    exact chars_injective (le_antisymm hle hge)
  · obtain ⟨hcount, hle⟩ := (notAfter_iff h1 h2).mp h12
    obtain ⟨-, hle'⟩ := (notAfter_iff h2 h3).mp h23
    refine (notAfter_iff h1 h3).mpr ⟨?_, hle.trans hle'⟩
    exact countable_iff.mpr ((commonLength_le_of_between hle hle').trans_lt (countable_iff.mp hcount))

/-- A name, a longer one and another. -/
theorem substrcmp_lexicographic_names :
    (∃ first second, substrcmp (lit "Trace") (lit "TracePair") = .ok (first, second) ∧
        Compares (lit "Trace") (lit "TracePair") first second) ∧
      NotAfter (lit "Trace") (lit "URL") := by
  have hcount : ∀ t : Bytes, Countable (lit "Trace") t := fun t p h1 _ =>
    h1.length_le.trans_lt (by decide)
  refine ⟨substrcmp_lexicographic.1 _ _ (by decide) (by decide) (hcount _), ?_⟩
  have hfirst : NotAfter (lit "Trace") (lit "TracePair") := ⟨-1, 5, by decide, by decide⟩
  have hsecond : NotAfter (lit "TracePair") (lit "URL") := ⟨-1, 0, by decide, by decide⟩
  exact substrcmp_lexicographic.2.2.2 _ _ _ (by decide) (by decide) (by decide) hfirst hsecond

/-- Strings with more in common overflow the counter. -/
theorem substrcmp_overflow :
    substrcmp (List.replicate (2 ^ 31) 97) (List.replicate (2 ^ 31) 97) = .error .undefined := by
  have hne : List.replicate (2 ^ 31) (97 : Byte) ≠ [] := by
    rw [Ne, List.replicate_eq_nil_iff]
    decide
  rw [substrcmp_eq hne hne, commonLength_self, List.length_replicate, if_neg (lt_irrefl _)]

end Jericho.Util
