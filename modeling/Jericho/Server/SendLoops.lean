import Jericho.Library.PartWrites
import Jericho.Library.StdText

/-! `broadcast` and `socket_write`: the two loops that write a buffer with `SSL_write`. -/
namespace Jericho.Server
open StdText PartWrites

/-- The variables of the loop of `broadcast`, `p` as an offset into the buffer. -/
structure Sending where
  p : Int
  len : Nat

/-- `while (len)` -/
def Sending.loop (s : Sending) : Stand Sending Int := if s.len ≠ 0 then .calling s else .returned 0

/-- `broadcast`, for a client or none. A `len` of more than an `int` is converted to one for `SSL_write`. -/
def broadcast (client : Bool) (len : Nat) : Loop Sending Int where
  start := if !client then .returned (-1) else Sending.loop ⟨0, len⟩
  next s ret :=
    if ret = -1 then .returned (-1)
    else Sending.loop ⟨s.p + ret, ((s.len - ret) % 2 ^ 64).toNat⟩
  offset s := s.p
  length s := asInt s.len

/-- How `socket_write` ends. -/
inductive Written where
  | finished
  | threw (what : Bytes)
  | overflow

def sslWriteError (writedPart : Int) : Bytes := lit "SSL_write error = " ++ (toText writedPart ++ lit ".")

/-- `while (writedTotal < size)`, where the `int` is converted. -/
def writeLoop (size : Nat) (writedTotal : Int) : Stand Int Written :=
  if writedTotal % 2 ^ 32 < size then .calling writedTotal else .returned .finished

/-- `socket_write` -/
def socketWrite (size : Nat) : Loop Int Written where
  start := writeLoop size 0
  next writedTotal writedPart :=
    if writedPart < 0 then .returned (.threw (sslWriteError writedPart))
    else if inInt (writedTotal + writedPart) then writeLoop size (writedTotal + writedPart)
    else .returned .overflow
  offset writedTotal := writedTotal
  length writedTotal := asInt (size - writedTotal)

theorem asInt_le (n : Nat) : asInt n ≤ n := by
  obtain ⟨hneg, hsmall⟩ := asInt_nat n
  have hmod := Nat.mod_le n (2 ^ 32)
  rcases Nat.lt_or_ge (n % 2 ^ 32) (2 ^ 31) with hlt | hge
  · have hval := hsmall hlt
    omega
  · have hlow := hneg.mpr hge
    omega

/-- The loop of `broadcast` counts down what is left. -/
theorem broadcast_counts {length : Nat} (h : length < 2 ^ 64) :
    Counts (broadcast true length) length (fun p => ⟨p, length - p⟩) (fun _ => True) (fun ret => ret = -1) 0
      (fun _ => -1) where
  start := by
    by_cases hzero : length = 0 <;> simp [broadcast, Sending.loop, hzero, Nat.pos_iff_ne_zero]
  reached_zero := trivial
  offset _ := rfl
  within p _ := by
    unfold broadcast
    dsimp only
    exact asInt_le _
  keep _ _ _ _ _ := trivial
  more p r _ hr _ hlt := by
    have hleft : ((((length - p : ℕ) : Int) - r) % 2 ^ 64).toNat = length - (p + r) := by omega
    have hne : length - (p + r) ≠ 0 := by omega
    unfold broadcast Sending.loop
    dsimp only
    rw [if_neg (by omega), hleft, if_pos hne, Nat.cast_add]
  last p r _ hr _ hend := by
    have hleft : ((((length - p : ℕ) : Int) - r) % 2 ^ 64).toNat = 0 := by omega
    unfold broadcast Sending.loop
    dsimp only
    rw [if_neg (by omega), hleft, if_neg (not_not_intro rfl)]
  failure _ _ ret _ hret := by
    unfold broadcast
    dsimp only
    rw [if_pos hret]
  astray p _ ret _ hret := by
    unfold broadcast Sending.loop
    dsimp only
    rw [if_neg hret]
    split_ifs <;> simp

theorem asInt_left {p length : Nat} (h : p ≤ length) : asInt (length - p) = asInt (length - p : ℕ) := by
  rw [Nat.cast_sub h]

/-- A size above the largest `int` makes the first call ask for nothing. Otherwise the counter has room. -/
theorem size_small {length p r : Nat} (h : length < 2 ^ 32) (hp : p ≤ length) (hreached : p = 0 ∨ length < 2 ^ 31)
    (hr : 0 < r) (hanswer : (r : Int) ≤ asInt (length - p)) :
    p + r ≤ length ∧ length < 2 ^ 31 ∧ inInt ((p : Int) + r) := by
  rw [asInt_left hp] at hanswer
  have hle := asInt_le (length - p)
  have hsmall : length < 2 ^ 31 := by
    refine hreached.elim (fun hzero => ?_) id
    have hneg := (asInt_nat (length - p)).1
    omega
  refine ⟨by omega, hsmall, ?_⟩
  unfold inInt
  omega

/-- The loop of `socket_write` counts up what is written. -/
theorem socketWrite_counts {length : Nat} (h : length < 2 ^ 32) :
    Counts (socketWrite length) length (fun p => p) (fun p => p ≤ length ∧ (p = 0 ∨ length < 2 ^ 31))
      (fun ret => ret ≠ 0) .finished (fun ret => .threw (sslWriteError ret)) where
  start := by
    unfold socketWrite writeLoop
    dsimp only
    by_cases hzero : length = 0 <;> simp [hzero, Nat.pos_iff_ne_zero]
  reached_zero := ⟨Nat.zero_le _, .inl rfl⟩
  offset _ := rfl
  within p hp := by
    unfold socketWrite
    dsimp only
    rw [asInt_left hp.le]
    exact asInt_le _
  keep p r hreached hr hanswer := by
    obtain ⟨hle, hsmall, -⟩ := size_small h hreached.1 hreached.2 hr hanswer
    exact ⟨hle, .inr hsmall⟩
  more p r hreached hr hanswer hlt := by
    obtain ⟨-, -, hfits⟩ := size_small h hreached.1 hreached.2 hr hanswer
    unfold socketWrite writeLoop
    dsimp only
    rw [if_neg (by omega), if_pos hfits, if_pos (by omega), Nat.cast_add]
  last p r hreached hr hanswer hend := by
    obtain ⟨-, -, hfits⟩ := size_small h hreached.1 hreached.2 hr hanswer
    unfold socketWrite writeLoop
    dsimp only
    rw [if_neg (by omega), if_pos hfits, if_neg (by omega)]
  failure _ _ ret hle hret := by
    unfold socketWrite
    dsimp only
    rw [if_pos (lt_of_le_of_ne hle hret)]
  astray p _ ret _ hret := by
    obtain rfl : ret = 0 := not_not.mp hret
    unfold socketWrite writeLoop
    dsimp only
    rw [if_neg (lt_irrefl _)]
    split_ifs <;> simp

/-- Without a client nothing is written. -/
theorem not_drains_broadcast (length : Nat) (buf : Bytes) (results : ℕ → Int) :
    ¬ (broadcast false length).Drains results buf 0 (fun _ => -1) := by
  have hstart : (broadcast false length).after results 0 = .returned (-1) := rfl
  rintro ⟨n, hcalls, hend⟩
  have hn : n = 0 := by
    by_contra hne
    obtain ⟨s, hs⟩ := hcalls 0 (Nat.pos_of_ne_zero hne)
    rw [hstart] at hs
    cases hs
  subst hn
  rcases hend with ⟨k, hk, -⟩ | ⟨-, hout, -⟩
  · exact absurd hk (Nat.zero_ne_add_one k)
  · rw [hstart] at hout
    cases hout

/-- `broadcast` drains its buffer when the first result that is not positive is `-1`, `socket_write` when it
is not zero. -/
theorem sendLoops_drain_iff (buf : Bytes) (results : ℕ → Int) :
    (∀ client : Bool, buf.length < 2 ^ 64 → (broadcast client buf.length).Answers results →
      ((broadcast client buf.length).Drains results buf 0 (fun _ => -1) ↔
        client = true ∧ Orderly results buf.length fun ret => ret = -1)) ∧
    (buf.length < 2 ^ 32 → (socketWrite buf.length).Answers results →
      ((socketWrite buf.length).Drains results buf .finished (fun ret => .threw (sslWriteError ret)) ↔
        Orderly results buf.length fun ret => ret ≠ 0)) := by
  constructor
  · intro client hsize hans
    cases client with
    | false => simp [not_drains_broadcast]
    | true => simpa using (broadcast_counts hsize).drains_iff hans
  · intro hsize hans
    exact (socketWrite_counts hsize).drains_iff hans

/-- A call takes two of three bytes, and the next one fails. -/
theorem sendLoops_drain_two :
    ((broadcast true (lit "abc").length).Drains (fun n => if n = 0 then 2 else -1) (lit "abc") 0 (fun _ => -1) ↔
        true = true ∧ Orderly (fun n => if n = 0 then 2 else -1) (lit "abc").length fun ret => ret = -1) ∧
      ((socketWrite (lit "abc").length).Drains (fun n => if n = 0 then 2 else -1) (lit "abc") .finished
          (fun ret => .threw (sslWriteError ret)) ↔
        Orderly (fun n => if n = 0 then 2 else -1) (lit "abc").length fun ret => ret ≠ 0) := by
  have hlater : ∀ n ≠ 0, (if n = 0 then (2 : Int) else -1) ≤ 0 := fun n hn => by simp [hn]
  refine ⟨(sendLoops_drain_iff _ _).1 true (by decide) ?_, (sendLoops_drain_iff _ _).2 (by decide) ?_⟩
  · refine Loop.answers_of_first (fun s hs _ => ?_) hlater
    obtain rfl : ⟨0, 3⟩ = s := by simpa [broadcast, Sending.loop, lit] using hs
    decide
  · refine Loop.answers_of_first (fun s hs _ => ?_) hlater
    obtain rfl : 0 = s := by simpa [socketWrite, writeLoop, lit] using hs
    decide

/-- A result of zero is taken for progress by both loops, and one of minus two by the first. -/
theorem sendLoops_stuck :
    (broadcast true (lit "abc").length).Answers (fun _ => 0) ∧
      ¬ (broadcast true (lit "abc").length).Drains (fun _ => 0) (lit "abc") 0 (fun _ => -1) ∧
      (broadcast true (lit "abc").length).Answers (fun _ => -2) ∧
      ¬ (broadcast true (lit "abc").length).Drains (fun _ => -2) (lit "abc") 0 (fun _ => -1) ∧
      (socketWrite (lit "abc").length).Answers (fun _ => 0) ∧
      ¬ (socketWrite (lit "abc").length).Drains (fun _ => 0) (lit "abc") .finished
        (fun ret => .threw (sslWriteError ret)) := by
  have hfirst : ∀ {ret : Int} {fails : Int → Prop}, ret ≤ 0 →
      Orderly (fun _ => ret) (lit "abc").length fails → fails ret :=
    fun hret h => h 0 (fun i hi => absurd hi (Nat.not_lt_zero i)) (by rw [passed_zero]; decide) hret
  have hans : ∀ {ret : Int}, ret ≤ 0 → (broadcast true (lit "abc").length).Answers (fun _ => ret) :=
    fun hret => Loop.answers_of_first (fun _ _ hpos => absurd hpos (not_lt.mpr hret)) fun _ _ => hret
  have hwrite : (socketWrite (lit "abc").length).Answers (fun _ => 0) :=
    Loop.answers_of_first (fun _ _ hpos => absurd hpos (lt_irrefl _)) fun _ _ => le_rfl
  refine ⟨hans (by decide), fun h => ?_, hans (by decide), fun h => ?_, hwrite, fun h => ?_⟩
  · have hfails := hfirst (by decide) (((broadcast_counts (by decide)).drains_iff (hans (by decide))).mp h)
    exact absurd hfails (by decide)
  · have hfails := hfirst (by decide) (((broadcast_counts (by decide)).drains_iff (hans (by decide))).mp h)
    exact absurd hfails (by decide)
  · exact hfirst (by decide) (((socketWrite_counts (by decide)).drains_iff hwrite).mp h) rfl

end Jericho.Server
