import Mathlib.Algebra.BigOperators.Group.Finset.Basic
import Mathlib.Data.List.Basic
import Mathlib.Tactic

/-! Loops that hand a text to a writer which takes some part of it at each call. What a loop does is
told from the results of the calls alone. -/
namespace PartWrites
open Finset
variable {σ ε α : Type*}

/-- A loop stands before a call, or it has returned. -/
inductive Stand (σ ε : Type*) where
  | calling (s : σ)
  | returned (out : ε)

/-- `offset` is where the bytes of a call start in the text, `length` how many the call asks for. -/
structure Loop (σ ε : Type*) where
  start : Stand σ ε
  next : σ → Int → Stand σ ε
  offset : σ → Int
  length : σ → Int

namespace Loop
variable (loop : Loop σ ε) (results : ℕ → Int)

/-- Where the loop stands after some results. -/
def after : ℕ → Stand σ ε
  | 0 => loop.start
  | n + 1 =>
    match after n with
    | .calling s => loop.next s (results n)
    | .returned out => .returned out

/-- No call takes more than it is asked for. -/
def Answers : Prop := ∀ n s, loop.after results n = .calling s → 0 < results n → results n ≤ loop.length s

/-- What the writer has taken of a text. -/
def taken (text : List α) : ℕ → List α
  | 0 => []
  | n + 1 => taken text n ++
    match loop.after results n with
    | .calling s => (text.drop (loop.offset s).toNat).take (results n).toNat
    | .returned _ => []

/-- The loop makes finitely many calls. It stops at the first result that is not positive and returns
what belongs to it, or all results are positive and the writer has taken the text, in order. -/
def Drains (text : List α) (done : ε) (failed : Int → ε) : Prop :=
  ∃ n, (∀ k < n, ∃ s, loop.after results k = .calling s) ∧
    ((∃ k, n = k + 1 ∧ (∀ i < k, 0 < results i) ∧ results k ≤ 0 ∧
        loop.after results n = .returned (failed (results k))) ∨
      (∀ i < n, 0 < results i) ∧ loop.after results n = .returned done ∧ loop.taken results text n = text)

variable {loop results}

/-- A writer that takes something at most in the first call. -/
theorem answers_of_first (h0 : ∀ s, loop.start = .calling s → 0 < results 0 → results 0 ≤ loop.length s)
    (h : ∀ n ≠ 0, results n ≤ 0) : loop.Answers results := by
  intro n s hafter hpos
  by_cases hn : n = 0
  · subst hn
    exact h0 s hafter hpos
  · exact absurd hpos (not_lt.mpr (h n hn))

end Loop

/-- How much the first calls take. -/
def passed (results : ℕ → Int) (n : ℕ) : ℕ := ∑ i ∈ range n, (results i).toNat

theorem passed_zero (results : ℕ → Int) : passed results 0 = 0 := rfl

theorem passed_succ (results : ℕ → Int) (n : ℕ) : passed results (n + 1) = passed results n + (results n).toNat :=
  sum_range_succ _ _

theorem passed_mono (results : ℕ → Int) : Monotone (passed results) :=
  monotone_nat_of_le_succ fun n => by rw [passed_succ]; exact Nat.le_add_right _ _

/-- The first result that is not positive, among those that come while something of the text is left, is one
the loop takes for a failure. -/
def Orderly (results : ℕ → Int) (length : ℕ) (fails : Int → Prop) : Prop :=
  ∀ k, (∀ i < k, 0 < results i) → passed results k < length → results k ≤ 0 → fails (results k)

/-- The state of a loop is how much it has passed, as long as the results are positive. `reached` restricts the
amounts it can come to, and `fails` tells which other results it stops at. -/
structure Counts (loop : Loop σ ε) (length : ℕ) (stand : ℕ → σ) (reached : ℕ → Prop) (fails : Int → Prop) (done : ε)
    (failed : Int → ε) : Prop where
  start : loop.start = if 0 < length then .calling (stand 0) else .returned done
  reached_zero : reached 0
  offset : ∀ p, loop.offset (stand p) = p
  within : ∀ p < length, loop.length (stand p) ≤ (length - p : ℕ)
  keep : ∀ p r : ℕ, reached p → 0 < r → (r : Int) ≤ loop.length (stand p) → reached (p + r)
  more : ∀ p r : ℕ, reached p → 0 < r → (r : Int) ≤ loop.length (stand p) → p + r < length →
    loop.next (stand p) r = .calling (stand (p + r))
  last : ∀ p r : ℕ, reached p → 0 < r → (r : Int) ≤ loop.length (stand p) → p + r = length →
    loop.next (stand p) r = .returned done
  failure : ∀ p < length, ∀ r ≤ 0, fails r → loop.next (stand p) r = .returned (failed r)
  astray : ∀ p < length, ∀ r ≤ 0, ¬ fails r → loop.next (stand p) r ≠ .returned (failed r)

namespace Counts
variable {loop : Loop σ ε} {stand : ℕ → σ} {reached : ℕ → Prop} {fails : Int → Prop} {done : ε} {failed : Int → ε}
  {results : ℕ → Int} {text : List α}

/-- What a call takes goes on from what the calls before it took. -/
theorem taken_succ (h : Counts loop text.length stand reached fails done failed) {n p r : ℕ}
    (hafter : loop.after results n = .calling (stand p)) (htaken : loop.taken results text n = text.take p)
    (hr : results n = r) : loop.taken results text (n + 1) = text.take (p + r) := by
  rw [Loop.taken, hafter, htaken]
  dsimp only
  rw [h.offset, Int.toNat_natCast, hr, Int.toNat_natCast, List.take_add]

/-- After positive results the loop stands at what it has passed, and the writer has that. -/
theorem after_positive (h : Counts loop text.length stand reached fails done failed) (hans : loop.Answers results)
    {n : ℕ} (hpos : ∀ i < n, 0 < results i) (hleft : passed results n < text.length) :
    loop.after results n = .calling (stand (passed results n)) ∧ reached (passed results n) ∧
      loop.taken results text n = text.take (passed results n) := by
  induction n with
  | zero =>
    rw [passed_zero] at hleft ⊢
    refine ⟨?_, h.reached_zero, rfl⟩
    rw [Loop.after, h.start, if_pos hleft]
  | succ n ih =>
    have hle := passed_mono results (Nat.le_succ n)
    obtain ⟨hafter, hreached, htaken⟩ := ih (fun i hi => hpos i (hi.trans (Nat.lt_succ_self n))) (hle.trans_lt hleft)
    have hn := hpos n (Nat.lt_succ_self n)
    have hanswer := hans n _ hafter hn
    obtain ⟨r, hr⟩ := Int.eq_ofNat_of_zero_le hn.le
    rw [passed_succ, hr, Int.toNat_natCast] at hleft ⊢
    rw [hr] at hanswer hn
    have hr0 : 0 < r := by omega
    refine ⟨?_, h.keep _ _ hreached hr0 hanswer, h.taken_succ hafter htaken hr⟩
    rw [Loop.after, hafter]
    dsimp only
    rw [hr, h.more _ _ hreached hr0 hanswer hleft]

/-- From where the loop stands on it comes to an end. -/
theorem drains_from (h : Counts loop text.length stand reached fails done failed) (hans : loop.Answers results)
    (horder : Orderly results text.length fails) {n : ℕ} (hpos : ∀ i < n, 0 < results i)
    (hleft : passed results n < text.length) : loop.Drains results text done failed := by
  induction hm : text.length - passed results n using Nat.strong_induction_on generalizing n with
  | _ m ih =>
    subst hm
    obtain ⟨hafter, hreached, htaken⟩ := h.after_positive hans hpos hleft
    have hcalls : ∀ k < n + 1, ∃ s, loop.after results k = .calling s := by
      intro k hk
      have hle := passed_mono results (Nat.le_of_lt_succ hk)
      exact ⟨_, (h.after_positive hans (fun i hi => hpos i (by omega)) (hle.trans_lt hleft)).1⟩
    by_cases hn : results n ≤ 0
    · refine ⟨n + 1, hcalls, .inl ⟨n, rfl, hpos, hn, ?_⟩⟩
      rw [Loop.after, hafter]
      exact h.failure _ hleft _ hn (horder n hpos hleft hn)
    · have hn := not_le.mp hn
      have hanswer := hans n _ hafter hn
      have hwithin := h.within _ hleft
      have hall : ∀ i < n + 1, 0 < results i := by
        intro i hi
        rcases Nat.lt_succ_iff_lt_or_eq.mp hi with hi | rfl
        · exact hpos i hi
        · exact hn
      obtain ⟨r, hr⟩ := Int.eq_ofNat_of_zero_le hn.le
      have hnext : passed results (n + 1) = passed results n + r := by rw [passed_succ, hr, Int.toNat_natCast]
      rw [hr] at hanswer hn
      have hr0 : 0 < r := by omega
      rcases Nat.lt_or_ge (passed results n + r) text.length with hlt | hge
      · exact ih _ (by omega) hall (by omega) rfl
      · have hend : passed results n + r = text.length := by omega
        refine ⟨n + 1, hcalls, .inr ⟨hall, ?_, ?_⟩⟩
        · rw [Loop.after, hafter]
          dsimp only
          rw [hr, h.last _ _ hreached hr0 hanswer hend]
        · rw [h.taken_succ hafter htaken hr, hend, List.take_length]

/-- A loop drains its text for exactly the orderly results. -/
theorem drains_iff (h : Counts loop text.length stand reached fails done failed) (hans : loop.Answers results) :
    loop.Drains results text done failed ↔ Orderly results text.length fails := by
  constructor
  · rintro ⟨n, hcalls, hend⟩ k hpos hleft hk
    obtain ⟨hafter, -, -⟩ := h.after_positive hans hpos hleft
    rcases hend with ⟨k', rfl, hpos', hk', hout⟩ | ⟨hall, hout, -⟩
    · obtain rfl : k' = k := by
        rcases Nat.lt_trichotomy k' k with hlt | heq | hgt
        · exact absurd (hpos k' hlt) (not_lt.mpr hk')
        · exact heq
        · exact absurd (hpos' k hgt) (not_lt.mpr hk)
      rw [Loop.after, hafter] at hout
      by_contra hnot
      exact h.astray _ hleft _ hk hnot hout
    · have hn : n ≤ k := by
        by_contra hlt
        exact absurd (hall k (not_le.mp hlt)) (not_lt.mpr hk)
      have hle := passed_mono results hn
      have hcalling := (h.after_positive hans hall (hle.trans_lt hleft)).1
      rw [hout] at hcalling
      cases hcalling
  · intro horder
    rcases Nat.eq_zero_or_pos text.length with hzero | hpos
    · refine ⟨0, fun k hk => absurd hk (Nat.not_lt_zero k), .inr ⟨fun i hi => absurd hi (Nat.not_lt_zero i), ?_, ?_⟩⟩
      · rw [Loop.after, h.start, if_neg (by omega)]
      · exact (List.length_eq_zero_iff.mp hzero).symm
    · exact h.drains_from hans horder (n := 0) (fun i hi => absurd hi (Nat.not_lt_zero i)) hpos

end Counts
end PartWrites
