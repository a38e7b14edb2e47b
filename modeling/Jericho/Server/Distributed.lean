import Jericho.Util.Join

/-! The path rewriting of `is_distributed`. -/
namespace Jericho.Server
open StdText Util

/-- `is_distributed`, with the path as it leaves it. -/
def isDistributed (rounds : Nat) (path : Bytes) : Option (Exec (Bool × Bytes)) :=
  (tokenizeStr rounds path (lit "/")).map fun args => do
    let args ← args
    if args.contains (lit "cluster") then
      let path ← join args (lit "/") 2 (-1)
      return (true, path)
    else return (false, path)

/-- The path of some segments. -/
def segmentsPath (segments : List Bytes) : Bytes := segments.flatMap (47 :: ·)

/-- A path is found to be distributed, and keeps its segments from the third on. -/
def Rewritten (segments : List Bytes) : Prop :=
  ∀ rounds, (segmentsPath segments).length < rounds →
    isDistributed rounds (segmentsPath segments) = some (.ok (true, (lit "/").intercalate (segments.drop 2)))

theorem isDistributed_eq {segments : List Bytes} (hsegments : ∀ a ∈ segments, a ≠ [] ∧ 47 ∉ a)
    (hcluster : lit "cluster" ∈ segments) {rounds : Nat} (h : (segmentsPath segments).length < rounds) :
    isDistributed rounds (segmentsPath segments) =
      some ((join segments (lit "/") 2 (-1)).map fun path => (true, path)) := by
  have htokens : Occurrence.tokens (lit "/") (segmentsPath segments) = segments :=
    Occurrence.tokens_flatMap_cons hsegments
  unfold isDistributed
  rw [tokenizeStr_eq (by decide) h, htokens, Option.map_some]
  refine congrArg some ?_
  simp only [bind, Except.bind]
  rw [if_pos (by simpa using hcluster)]
  rfl

/-- One separator between every two pieces. -/
theorem length_intercalate (c : Byte) (vs : List Bytes) :
    ([c].intercalate vs).length = vs.flatten.length + (vs.length - 1) := by
  induction vs with
  | nil => rfl
  | cons v vs ih =>
    cases vs with
    | nil => simp
    | cons w vs =>
      rw [List.intercalate_cons_cons, List.length_append, List.length_append, ih]
      simp
      omega

theorem rewritten_iff {segments : List Bytes} (hsegments : ∀ a ∈ segments, a ≠ [] ∧ 47 ∉ a)
    (hcluster : lit "cluster" ∈ segments) : Rewritten segments ↔ segments.length ≤ 3 := by
  have hjoined : Rewritten segments ↔
      join segments (lit "/") 2 (-1) = .ok ((lit "/").intercalate (segments.drop 2)) := by
    unfold Rewritten
    constructor
    · intro h
      have hlast := h _ (Nat.lt_succ_self _)
      rw [isDistributed_eq hsegments hcluster (Nat.lt_succ_self _)] at hlast
      obtain ⟨path, hpath, heq⟩ := map_eq_ok.mp (Option.some.inj hlast)
      rw [hpath, (Prod.mk.inj heq).2]
    · intro h rounds hrounds
      rw [isDistributed_eq hsegments hcluster hrounds, h]
      rfl
  rw [hjoined]
  rcases lt_trichotomy segments.length 3 with hlt | heq | hgt
  · refine iff_of_true ?_ hlt.le
    rw [join_short (List.ne_nil_of_mem hcluster) hlt, List.drop_eq_nil_of_le (by omega)]
    rfl
  · refine iff_of_true ?_ heq.le
    obtain ⟨a, b, c, rfl⟩ := List.length_eq_three.mp heq
    rw [join_third]
    simp
  · refine iff_of_false (fun h => ?_) (by omega)
    have hle := length_join_le (by omega) h
    have hcount : (segments.drop 2).length = segments.length - 2 := List.length_drop
    have hlength := length_intercalate 47 (segments.drop 2)
    have hslash : lit "/" = [47] := rfl
    rw [hslash] at hle
    omega

/-- `tokenize` takes apart what `join` put together only for a single piece, and a path keeps its
separators only where none is left. -/
theorem join_tokenize_iff (vec : List Bytes) :
    (∀ (delim : Bytes) (i j : Nat), (∀ v ∈ vec, v ≠ [] ∧ ¬ delim <:+: v) → i ≤ j → j < vec.length →
      (JoinInverts vec delim i j ↔ i = j ∧ j < 2 ^ 31 - 1)) ∧
    ((∀ v ∈ vec, v ≠ [] ∧ 47 ∉ v) → lit "cluster" ∈ vec → (Rewritten vec ↔ vec.length ≤ 3)) :=
  ⟨fun _ _ _ hvec hij hj => joinInverts_iff hvec hij hj, fun hsegments hcluster =>
    rewritten_iff hsegments hcluster⟩

/-- A path with one segment behind its prefix, and a piece on its own. -/
theorem join_tokenize_single :
    (JoinInverts [lit "a", lit "b"] (lit "/") 1 1 ↔ 1 = 1 ∧ 1 < 2 ^ 31 - 1) ∧
      (Rewritten [lit "api", lit "cluster", lit "nodes"] ↔ [lit "api", lit "cluster", lit "nodes"].length ≤ 3) :=
  ⟨(join_tokenize_iff _).1 _ 1 1 (by decide) le_rfl (by decide), (join_tokenize_iff _).2 (by decide) (by decide)⟩

/-- Two pieces run together, and so do the segments of a longer path. -/
theorem join_runs_together :
    ¬ JoinInverts [lit "a", lit "b"] (lit "/") 0 1 ∧
      ¬ Rewritten [lit "api", lit "cluster", lit "nodes", lit "list"] := by
  refine ⟨fun h => ?_, fun h => ?_⟩
  · exact absurd ((joinInverts_iff (by decide) (by decide) (by decide)).mp h).1 (by decide)
  · exact absurd ((rewritten_iff (by decide) (by decide)).mp h) (by decide)

end Jericho.Server
