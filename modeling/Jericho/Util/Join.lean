import Jericho.Util.Tokenize

/-! `join`, which concatenates a slice of a vector, against `tokenize`. -/
namespace Jericho.Util
open StdText

/-- The loop of `join`, with the number of its rounds that are left. -/
def joinLoop (vec : List Bytes) : Nat → Int → Bytes → Exec Bytes
  | 0, _, result => .ok result
  | rounds + 1, i, result =>
    match vec[i.toNat]? with
    | none => .error .undefined
    | some s => if inInt (i + 1) then joinLoop vec rounds (i + 1) (result ++ s) else .error .undefined

/-- `vec.size() - 1`, a `size_t` -/
def lastIndex (vec : List Bytes) : Int := if vec.isEmpty then 2 ^ 64 - 1 else vec.length - 1

/-- The bounds, where `-1` stands for the first and the last index. -/
def joinBounds (vec : List Bytes) (start finish : Int) : Int × Int :=
  if start = -1 ∧ finish = -1 then (0, asInt (lastIndex vec))
  else if start = -1 ∧ finish ≠ -1 then (0, finish)
  else if start ≠ -1 ∧ finish = -1 then (start, asInt (lastIndex vec))
  else (start, finish)

/-- `join`. The delimiter is not used. -/
def join (vec : List Bytes) (_delim : Bytes) (start finish : Int) : Exec Bytes :=
  let (start, finish) := joinBounds vec start finish
  if start < 0 ∨ lastIndex vec < start then .ok []
  else if finish < 0 ∨ lastIndex vec < finish then .ok []
  else joinLoop vec (finish + 1 - start).toNat start []

/-- The part of a vector between two indices, both included. -/
def slice (vec : List Bytes) (i j : Nat) : List Bytes := (vec.drop i).take (j + 1 - i)

theorem joinLoop_eq {vec : List Bytes} {rounds i : Nat} (hi : i + rounds ≤ vec.length) (hint : i + rounds < 2 ^ 31)
    (result : Bytes) : joinLoop vec rounds i result = .ok (result ++ ((vec.drop i).take rounds).flatten) := by
  induction rounds generalizing i result with
  | zero => simp [joinLoop]
  | succ rounds ih =>
    have hget : vec[(i : Int).toNat]? = some vec[i] := by simp
    have hfits : inInt ((i : Int) + 1) := by unfold inInt; omega
    unfold joinLoop
    rw [hget]
    dsimp only
    rw [if_pos hfits]
    have hrest := ih (i := i + 1) (by omega) (by omega) (result ++ vec[i])
    rw [Nat.cast_add, Nat.cast_one] at hrest
    rw [hrest, List.drop_eq_getElem_cons (by omega : i < vec.length), List.take_succ_cons, List.flatten_cons,
      List.append_assoc]

/-- The index does not get past the largest `int`. -/
theorem joinLoop_overflow {vec : List Bytes} {rounds i : Nat} (hi : i + rounds ≤ vec.length)
    (hint : 2 ^ 31 ≤ i + rounds) (hrounds : rounds ≠ 0) (result : Bytes) :
    joinLoop vec rounds i result = .error .undefined := by
  induction rounds generalizing i result with
  | zero => exact absurd rfl hrounds
  | succ rounds ih =>
    have hget : vec[(i : Int).toNat]? = some vec[i] := by simp
    unfold joinLoop
    rw [hget]
    dsimp only
    by_cases hfits : inInt ((i : Int) + 1)
    · rw [if_pos hfits]
      unfold inInt at hfits
      exact ih (i := i + 1) (by omega) (by omega) (by omega) _
    · rw [if_neg hfits]

theorem lastIndex_eq {vec : List Bytes} {i : Nat} (h : i < vec.length) : lastIndex vec = vec.length - 1 := by
  have hne : vec.isEmpty = false := List.isEmpty_eq_false_iff.mpr (List.ne_nil_of_length_pos (by omega))
  rw [lastIndex, hne]
  rfl

theorem joinBounds_explicit {start finish : Int} (hstart : start ≠ -1) (hfinish : finish ≠ -1) (vec : List Bytes) :
    joinBounds vec start finish = (start, finish) := by
  unfold joinBounds
  rw [if_neg (fun h => hstart h.1), if_neg (fun h => hstart h.1), if_neg (fun h => hfinish h.2)]

theorem joinBounds_rest {start : Int} (hstart : start ≠ -1) (vec : List Bytes) :
    joinBounds vec start (-1) = (start, asInt (lastIndex vec)) := by
  unfold joinBounds
  rw [if_neg (fun h => hstart h.1), if_neg (fun h => hstart h.1), if_pos ⟨hstart, rfl⟩]

/-- With both bounds in range the loop runs. -/
theorem join_bounds {vec : List Bytes} {i j : Nat} (hi : i < vec.length) (hj : j < vec.length) (delim : Bytes) :
    join vec delim i j = joinLoop vec (j + 1 - i) i [] := by
  have hrounds : ((j : Int) + 1 - i).toNat = j + 1 - i := by omega
  have hlast := lastIndex_eq hi
  unfold join
  rw [joinBounds_explicit (by omega) (by omega)]
  dsimp only
  rw [if_neg (by omega), if_neg (by omega), hrounds]

/-- `join` concatenates the slice, if its last index is not the largest `int`. -/
theorem join_slice {vec : List Bytes} {i j : Nat} (hij : i ≤ j) (hj : j < vec.length) (delim : Bytes) :
    join vec delim i j = if j < 2 ^ 31 - 1 then .ok (slice vec i j).flatten else .error .undefined := by
  rw [join_bounds (by omega) hj]
  split_ifs with hint
  · rw [joinLoop_eq (by omega) (by omega), List.nil_append, slice]
  · exact joinLoop_overflow (by omega) (by omega) (by omega) []

/-- Without a last index `join` runs to the end, as far as an `int` can tell. -/
theorem join_rest {vec : List Bytes} {i : Nat} (hi : i < vec.length) (delim : Bytes) :
    join vec delim i (-1) =
      if asInt (lastIndex vec) < 0 then .ok [] else join vec delim i (asInt (lastIndex vec)) := by
  have hlast := lastIndex_eq hi
  have hfirst : ¬ ((i : Int) < 0 ∨ lastIndex vec < i) := by omega
  unfold join
  rw [joinBounds_rest (by omega)]
  dsimp only
  rw [if_neg hfirst]
  by_cases hneg : asInt (lastIndex vec) < 0
  · rw [if_pos (.inl hneg), if_pos hneg]
  · rw [if_neg hneg, joinBounds_explicit (by omega) (by omega)]
    dsimp only
    rw [if_neg hfirst]

/-- Over a whole vector `join` concatenates its elements. -/
theorem join_whole {vec : List Bytes} (h : vec.length < 2 ^ 31) (delim : Bytes) :
    join vec delim (-1) (-1) = .ok vec.flatten := by
  cases vec with
  | nil => rfl
  | cons v vec =>
    have hpos : 0 < (v :: vec).length := Nat.zero_lt_succ _
    have hlast : asInt (lastIndex (v :: vec)) = ((v :: vec).length - 1 : ℕ) := by
      have hindex := lastIndex_eq hpos
      rw [← asInt_small (n := (v :: vec).length - 1) (by omega)]
      exact congrArg asInt (by omega)
    have hbounds : joinBounds (v :: vec) (-1) (-1) = joinBounds (v :: vec) (0 : ℕ) ((v :: vec).length - 1 : ℕ) := by
      have hstart : ((0 : ℕ) : Int) ≠ -1 := by decide
      have hfinish : (((v :: vec).length - 1 : ℕ) : Int) ≠ -1 := by omega
      rw [joinBounds_explicit hstart hfinish, ← hlast]
      rfl
    have hslice := join_slice (Nat.zero_le _) (Nat.sub_lt hpos Nat.one_pos) delim
    rw [if_pos (by omega)] at hslice
    unfold join at hslice ⊢
    rw [hbounds, hslice, slice, List.drop_zero, List.take_of_length_le (by omega)]

/-- From the third element on `join` has no more characters than these. -/
theorem length_join_le {vec : List Bytes} (h : 2 < vec.length) {delim text : Bytes}
    (hjoin : join vec delim 2 (-1) = .ok text) : text.length ≤ (vec.drop 2).flatten.length := by
  have hlast := lastIndex_eq h
  have hrest := join_rest h delim
  rw [Nat.cast_ofNat] at hrest
  rw [hrest] at hjoin
  split_ifs at hjoin with hneg
  · obtain rfl := Except.ok.inj hjoin
    exact Nat.zero_le _
  · obtain ⟨j, hj⟩ := Int.eq_ofNat_of_zero_le (not_lt.mp hneg)
    have hsize : lastIndex vec = (vec.length - 1 : ℕ) := by omega
    have hbound : j < vec.length := by
      obtain ⟨hsign, hsmall⟩ := asInt_nat (vec.length - 1)
      rw [hsize] at hj hneg
      have hval := hsmall (by omega)
      omega
    rw [hj] at hjoin
    by_cases hij : 2 ≤ j
    · have hslice := join_slice hij hbound delim
      rw [Nat.cast_ofNat] at hslice
      rw [hslice] at hjoin
      split_ifs at hjoin
      obtain rfl := Except.ok.inj hjoin
      exact ((List.take_sublist _ _).flatten).length_le
    · have hrounds : j + 1 - 2 = 0 := by omega
      have hempty := join_bounds h hbound delim
      rw [Nat.cast_ofNat, hrounds] at hempty
      rw [hempty] at hjoin
      obtain rfl := Except.ok.inj hjoin
      exact Nat.zero_le _

/-- Two pieces or fewer have no third one. -/
theorem join_short {vec : List Bytes} (hne : vec ≠ []) (h : vec.length < 3) (delim : Bytes) :
    join vec delim 2 (-1) = .ok [] := by
  have hlast := lastIndex_eq (List.length_pos_of_ne_nil hne)
  unfold join
  rw [joinBounds_rest (by decide)]
  dsimp only
  rw [if_pos (by omega)]

/-- Of three pieces `join` gives the third. -/
theorem join_third (a b c delim : Bytes) : join [a, b, c] delim 2 (-1) = .ok c := by
  simp [join, joinBounds, lastIndex, joinLoop, asInt, inInt]

/-- What is joined can be taken apart again. -/
def JoinInverts (vec : List Bytes) (delim : Bytes) (i j : Nat) : Prop :=
  ∃ text, join vec delim i j = .ok text ∧
    ∀ rounds, text.length < rounds → tokenizeStr rounds text delim = some (.ok (slice vec i j))

theorem joinInverts_iff {vec : List Bytes} {delim : Bytes} {i j : Nat} (hvec : ∀ v ∈ vec, v ≠ [] ∧ ¬ delim <:+: v)
    (hij : i ≤ j) (hj : j < vec.length) : JoinInverts vec delim i j ↔ i = j ∧ j < 2 ^ 31 - 1 := by
  have hd : delim ≠ [] := by
    rintro rfl
    exact (hvec _ (List.getElem_mem hj)).2 List.nil_infix
  have hlength : (slice vec i j).length = j + 1 - i := by
    rw [slice, List.length_take, List.length_drop]
    omega
  have hslice : ∀ v ∈ slice vec i j, v ≠ [] ∧ ¬ delim <:+: v := fun v hv =>
    hvec v (List.mem_of_mem_drop (List.mem_of_mem_take hv))
  have hne : slice vec i j ≠ [] := List.ne_nil_of_length_pos (by omega)
  have htokens := Occurrence.tokens_flatten_iff hd hslice hne
  unfold JoinInverts
  rw [join_slice hij hj]
  constructor
  · rintro ⟨text, htext, hread⟩
    split_ifs at htext with hint
    obtain rfl := Except.ok.inj htext
    have hsame := hread _ (Nat.lt_succ_self _)
    rw [tokenizeStr_eq hd (Nat.lt_succ_self _)] at hsame
    have hone := htokens.mp (Except.ok.inj (Option.some.inj hsame))
    exact ⟨by omega, hint⟩
  · rintro ⟨rfl, hint⟩
    rw [if_pos hint]
    refine ⟨_, rfl, fun rounds h => ?_⟩
    rw [tokenizeStr_eq hd h, htokens.mpr (by omega)]

end Jericho.Util
