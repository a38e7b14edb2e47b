import Jericho.Iris.Interpret
import Jericho.Library.CursorPass

/-! One iteration of `iris::parseTemp`: the yields of a template give way to the values of their names. -/
namespace Jericho.Iris
open StdText Util Splice

/-- `\$\[iyield\]\{.+\}(.+\$|\$)` -/
def iyield : Pattern Byte :=
  .seq (.text (lit "$[iyield]\x7b")) (.seq dot.plus (.seq (.text (lit "\x7d")) dollar))

/-- The name of a yield, from behind its opening brace. -/
def yieldName : Bool → Bytes → Bytes
  | _, [] => []
  | start, c :: s =>
    if c = 123 then yieldName true s
    else if c = 125 then []
    else if start then c :: yieldName start s
    else yieldName start s

/-- The yields of a template with their names. -/
def yieldTargets (bytes : Bytes) : List (Bytes × Lex) :=
  (scanzz bytes iyield).map fun lex => (yieldName false lex.first, lex)

/-- `substr`. A negative count wraps to more than any text has, and so does a negative position. -/
def substr (s : Bytes) (pos count : Int) : Exec Bytes :=
  if 0 ≤ pos ∧ pos ≤ s.length then
    .ok (if 0 ≤ count then (s.drop pos.toNat).take count.toNat else s.drop pos.toNat)
  else .error .outOfRange

/-- The text made so far, and how far the template has been read. -/
structure Filling where
  newStr : Bytes := []
  cptr : Int := 0

/-- The text up to a yield, and the value in its place. -/
def Filling.put (bytes : Bytes) (f : Filling) (lex : Lex) (val : Bytes) : Exec Filling := do
  let sub ← substr bytes f.cptr (lex.second - f.cptr)
  return ⟨f.newStr ++ (sub ++ val), lex.second + lex.first.length⟩

/-- One iteration, for the contents of the template file and the pairs of the body: for each key, the yields of
its name. -/
def fillTemplate (bytes : Bytes) (kvs : List (Bytes × Bytes)) : Exec Bytes := do
  let f ← kvs.foldlM (fun f kv =>
    (yieldTargets bytes).foldlM (fun f y => if y.1 = kv.1 then f.put bytes y.2 kv.2 else return f) f) ({} : Filling)
  let rest ← substr bytes f.cptr (bytes.length - f.cptr)
  return f.newStr ++ rest ++ lit "\n"

/-- The replacement of a yield by a value. -/
def Lex.replacedBy (lex : Lex) (val : Bytes) : Edit Byte := ⟨lex.second.toNat, lex.first.length, val⟩

/-- What is meant: each yield whose name is a key gives way to the value. -/
def replacements (bytes : Bytes) (kvs : List (Bytes × Bytes)) : List (Edit Byte) :=
  (yieldTargets bytes).filterMap fun y => (kvs.lookup y.1).map y.2.replacedBy

/-- The yields in the order in which they are come to, with the values. -/
def visits (bytes : Bytes) (kvs : List (Bytes × Bytes)) : List (Lex × Bytes) :=
  kvs.flatMap fun kv => ((yieldTargets bytes).filter (·.1 = kv.1)).map fun y => (y.2, kv.2)

/-- Texts that stand where they are said to, one behind the other. -/
structure Placed (bytes : Bytes) (yields : List Lex) : Prop where
  inPlace : ∀ lex ∈ yields, ∃ u v, bytes = u ++ lex.first ++ v ∧ (u.length : Int) = lex.second
  ascending : yields.Pairwise fun l m => l.second + (l.first.length : Int) ≤ m.second

/-- Positions that fit in an `int` are right. -/
theorem placed_scanzz {bytes : Bytes} (h : bytes.length < 2 ^ 31) (r : Pattern Byte) :
    Placed bytes (scanzz bytes r) := by
  have hpos : ∀ m ∈ r.scan bytes, (Lex.ofMatch m).second = m.2 := by
    intro m hm
    obtain ⟨-, a, b, hsplit, ha, -⟩ := Pattern.scan_piece r hm
    have hlen := congrArg List.length hsplit
    rw [List.length_append, List.length_append] at hlen
    rw [Lex.ofMatch, Int.bmod_def]
    dsimp only
    omega
  constructor
  · intro lex hlex
    obtain ⟨m, hm, rfl⟩ := List.mem_map.mp hlex
    obtain ⟨-, a, b, hsplit, ha, -⟩ := Pattern.scan_piece r hm
    exact ⟨a, b, hsplit, by rw [hpos m hm, ha]⟩
  · refine List.pairwise_map.mpr ((Pattern.scan_ascending r bytes).imp_of_mem fun {l m} hl hm hle => ?_)
    rw [hpos l hl, hpos m hm]
    exact_mod_cast hle

theorem iyield_ne {bytes : Bytes} : ∀ lex ∈ scanzz bytes iyield, lex.first ≠ [] := by
  intro lex hlex
  obtain ⟨m, hm, rfl⟩ := List.mem_map.mp hlex
  exact (Pattern.scan_piece iyield hm).1

section Visits
variable {bytes : Bytes} {kvs : List (Bytes × Bytes)}

theorem foldlM_filter_map (f : Filling) (ys : List (Bytes × Lex)) (kv : Bytes × Bytes) :
    ys.foldlM (fun f y => if y.1 = kv.1 then f.put bytes y.2 kv.2 else return f) f =
      ((ys.filter (·.1 = kv.1)).map fun y => (y.2, kv.2)).foldlM (fun f v => f.put bytes v.1 v.2) f := by
  induction ys generalizing f with
  | nil => rfl
  | cons y ys ih =>
    rw [List.foldlM_cons]
    by_cases hy : y.1 = kv.1
    · rw [if_pos hy, List.filter_cons_of_pos (by simpa using hy), List.map_cons, List.foldlM_cons]
      exact bind_congr fun f => ih f
    · rw [if_neg hy, List.filter_cons_of_neg (by simpa using hy), pure_bind]
      exact ih f

/-- The two loops are one over the visits. -/
theorem fillTemplate_eq (bytes : Bytes) (kvs : List (Bytes × Bytes)) :
    fillTemplate bytes kvs = do
      let f ← (visits bytes kvs).foldlM (fun f v => f.put bytes v.1 v.2) ({} : Filling)
      let rest ← substr bytes f.cptr (bytes.length - f.cptr)
      return f.newStr ++ rest ++ lit "\n" := by
  have hloops : ∀ f : Filling, kvs.foldlM (fun f kv =>
      (yieldTargets bytes).foldlM (fun f y => if y.1 = kv.1 then f.put bytes y.2 kv.2 else return f) f) f =
        (visits bytes kvs).foldlM (fun f v => f.put bytes v.1 v.2) f := by
    induction kvs with
    | nil => exact fun f => rfl
    | cons kv kvs ih =>
      intro f
      rw [List.foldlM_cons, visits, List.flatMap_cons, List.foldlM_append, foldlM_filter_map]
      exact bind_congr fun f => ih f
  unfold fillTemplate
  rw [hloops]

theorem mem_visits {v : Lex × Bytes} :
    v ∈ visits bytes kvs ↔ v.1 ∈ scanzz bytes iyield ∧ (yieldName false v.1.first, v.2) ∈ kvs := by
  unfold visits yieldTargets
  simp only [List.mem_flatMap, List.mem_map, List.mem_filter, decide_eq_true_iff]
  constructor
  · rintro ⟨kv, hkv, y, ⟨⟨lex, hlex, rfl⟩, hname⟩, rfl⟩
    refine ⟨hlex, ?_⟩
    dsimp only at hname ⊢
    rw [hname]
    exact hkv
  · rintro ⟨hlex, hkv⟩
    exact ⟨_, hkv, _, ⟨⟨v.1, hlex, rfl⟩, rfl⟩, rfl⟩

/-- The visits make the replacements that are meant. -/
theorem mem_replacements (hkeys : (kvs.map Prod.fst).Nodup) (e : Edit Byte) :
    e ∈ (visits bytes kvs).map (fun v => v.1.replacedBy v.2) ↔ e ∈ replacements bytes kvs := by
  unfold replacements yieldTargets
  simp only [List.mem_map, mem_visits, List.mem_filterMap, Option.map_eq_some_iff, lookup_eq_some_of_nodup hkeys]
  constructor
  · rintro ⟨v, ⟨hlex, hkv⟩, rfl⟩
    exact ⟨_, ⟨v.1, hlex, rfl⟩, v.2, hkv, rfl⟩
  · rintro ⟨y, ⟨lex, hlex, rfl⟩, val, hkv, rfl⟩
    exact ⟨(lex, val), ⟨hlex, hkv⟩, rfl⟩

theorem put_eq {f : Filling} {c : Nat} (hf : f.cptr = c) (hc : c ≤ bytes.length) {lex : Lex} (hlex : 0 ≤ lex.second)
    (val : Bytes) :
    f.put bytes lex val =
      .ok ⟨f.newStr ++ (copied bytes c lex.second.toNat ++ val), lex.second + lex.first.length⟩ := by
  have hsub : substr bytes f.cptr (lex.second - f.cptr) = .ok (copied bytes c lex.second.toNat) := by
    unfold substr copied
    rw [hf, if_pos ⟨Int.natCast_nonneg c, by omega⟩, Int.toNat_natCast]
    congr 1
    split_ifs
    · congr 1
      omega
    · omega
    · omega
    · rfl
  unfold Filling.put
  rw [hsub]
  rfl

/-- From any cursor on, the visits make one pass over the template. -/
theorem foldlM_put {vs : List (Lex × Bytes)}
    (hvs : ∀ v ∈ vs, ∃ u w, bytes = u ++ v.1.first ++ w ∧ (u.length : Int) = v.1.second) {f : Filling} {c : Nat}
    (hf : f.cptr = c) (hc : c ≤ bytes.length) :
    (do
      let f ← vs.foldlM (fun f v => f.put bytes v.1 v.2) f
      let rest ← substr bytes f.cptr (bytes.length - f.cptr)
      return f.newStr ++ rest ++ lit "\n") =
      Except.ok (f.newStr ++ pass bytes (vs.map fun v => v.1.replacedBy v.2) c ++ lit "\n") := by
  induction vs generalizing f c with
  | nil =>
    have hrest : substr bytes f.cptr (bytes.length - f.cptr) = .ok (bytes.drop c) := by
      unfold substr
      rw [hf, if_pos ⟨Int.natCast_nonneg c, by omega⟩, if_pos (by omega), Int.toNat_natCast]
      congr 1
      apply List.take_of_length_le
      rw [List.length_drop]
      omega
    rw [List.foldlM_nil, pure_bind, hrest]
    rfl
  | cons v vs ih =>
    obtain ⟨⟨u, w, hsplit, hu⟩, hvs⟩ := List.forall_mem_cons.mp hvs
    have hlen := congrArg List.length hsplit
    rw [List.length_append, List.length_append] at hlen
    have hnat : v.1.second.toNat = u.length := by omega
    rw [List.foldlM_cons, put_eq hf hc (by omega)]
    have hnext : v.1.second + v.1.first.length = ((v.1.second.toNat + v.1.first.length : ℕ) : Int) := by omega
    refine (ih hvs hnext (by omega)).trans ?_
    simp only [List.map_cons, Splice.pass, List.append_assoc]
    rfl

/-- Texts that do not overlap. -/
def Lex.Apart (l m : Lex) : Prop :=
  l.second + (l.first.length : Int) ≤ m.second ∨ m.second + (m.first.length : Int) ≤ l.second

/-- With distinct keys no yield is come to twice. -/
theorem visits_apart (hplaced : Placed bytes (scanzz bytes iyield)) (hkeys : (kvs.map Prod.fst).Nodup) :
    (visits bytes kvs).Pairwise fun v w => v.1.Apart w.1 := by
  have hall : (scanzz bytes iyield).Pairwise Lex.Apart := hplaced.ascending.imp Or.inl
  refine List.pairwise_flatMap.mpr ⟨fun kv _ => ?_, ?_⟩
  · refine List.pairwise_map.mpr (List.Pairwise.filter _ ?_)
    exact List.pairwise_map.mpr hall
  · refine (List.pairwise_map.mp hkeys).imp fun {kv kw} hne v hv w hw => ?_
    obtain ⟨y, hy, rfl⟩ := List.mem_map.mp hv
    obtain ⟨z, hz, rfl⟩ := List.mem_map.mp hw
    obtain ⟨hy, hyname⟩ := List.mem_filter.mp hy
    obtain ⟨hz, hzname⟩ := List.mem_filter.mp hz
    obtain ⟨l, hl, rfl⟩ := List.mem_map.mp hy
    obtain ⟨m, hm, rfl⟩ := List.mem_map.mp hz
    have hsymm : Std.Symm Lex.Apart := ⟨fun _ _ => Or.symm⟩
    refine hall.forall hl hm fun heq => hne ?_
    rw [← of_decide_eq_true hyname, ← of_decide_eq_true hzname]
    exact congrArg (fun l : Lex => yieldName false l.first) heq

theorem inside_visits (hplaced : Placed bytes (scanzz bytes iyield)) :
    ∀ e ∈ (visits bytes kvs).map (fun v => v.1.replacedBy v.2), e.Inside bytes.length := by
  intro e he
  obtain ⟨v, hv, rfl⟩ := List.mem_map.mp he
  have hlex := (mem_visits.mp hv).1
  obtain ⟨u, w, hsplit, hu⟩ := hplaced.inPlace v.1 hlex
  have hlen := congrArg List.length hsplit
  rw [List.length_append, List.length_append] at hlen
  refine ⟨List.length_pos_iff.mpr (iyield_ne v.1 hlex), ?_⟩
  show v.1.second.toNat + v.1.first.length ≤ bytes.length
  omega

theorem replacements_pos_ne (hplaced : Placed bytes (scanzz bytes iyield)) :
    (replacements bytes kvs).Pairwise fun d e => d.pos ≠ e.pos := by
  refine List.pairwise_filterMap.mpr (List.pairwise_map.mpr (hplaced.ascending.imp_of_mem ?_))
  intro l m hl hm hle d hd e he
  obtain ⟨val, -, rfl⟩ := Option.map_eq_some_iff.mp hd
  obtain ⟨val', -, rfl⟩ := Option.map_eq_some_iff.mp he
  obtain ⟨u, w, -, hu⟩ := hplaced.inPlace l hl
  have hlen := List.length_pos_iff.mpr (iyield_ne l hl)
  unfold Lex.replacedBy
  dsimp only
  omega

/-- The yields of a template give way to their values exactly if they are come to in the order in which they stand:
the keys that have yields come in the order of their yields. -/
theorem fillTemplate_iff (hplaced : Placed bytes (scanzz bytes iyield)) (hkeys : (kvs.map Prod.fst).Nodup) :
    fillTemplate bytes kvs = .ok (render (replacements bytes kvs) bytes ++ lit "\n") ↔
      (visits bytes kvs).Pairwise fun v w => v.1.second < w.1.second := by
  have hin : ∀ e ∈ (visits bytes kvs).map (fun v => v.1.replacedBy v.2), e.Inside bytes.length := inside_visits hplaced
  have hapart := visits_apart hplaced hkeys
  have hnonneg : ∀ v ∈ visits bytes kvs, 0 ≤ v.1.second ∧ 0 < v.1.first.length := by
    intro v hv
    have hlex := (mem_visits.mp hv).1
    obtain ⟨u, w, -, hu⟩ := hplaced.inPlace v.1 hlex
    exact ⟨hu ▸ Int.natCast_nonneg _, List.length_pos_iff.mpr (iyield_ne v.1 hlex)⟩
  have hedits : ((visits bytes kvs).map fun v => v.1.replacedBy v.2).Pairwise Apart := by
    refine List.pairwise_map.mpr (hapart.imp_of_mem fun {v w} hv hw h => ?_)
    have hv := hnonneg v hv
    have hw := hnonneg w hw
    unfold Lex.Apart at h
    unfold Apart Lex.replacedBy
    dsimp only
    omega
  have hrun : fillTemplate bytes kvs =
      .ok (pass bytes ((visits bytes kvs).map fun v => v.1.replacedBy v.2) 0 ++ lit "\n") := by
    rw [fillTemplate_eq]
    refine foldlM_put ?_ rfl (Nat.zero_le _)
    exact fun v hv => hplaced.inPlace v.1 (mem_visits.mp hv).1
  have hmeant : render (replacements bytes kvs) bytes =
      render ((visits bytes kvs).map fun v => v.1.replacedBy v.2) bytes :=
    render_congr (replacements_pos_ne hplaced) (pos_ne_of_apart hin hedits)
      (fun e => (mem_replacements hkeys e).symm) bytes
  rw [hrun, hmeant, Except.ok.injEq, List.append_left_inj, pass_eq_render_iff hin hedits, Ascending, List.pairwise_map]
  constructor
  · refine fun h => h.imp_of_mem fun {v w} hv hw hle => ?_
    have hv := hnonneg v hv
    have hw := hnonneg w hw
    unfold Lex.replacedBy at hle
    dsimp only at hle
    omega
  · refine fun h => (hapart.and h).imp_of_mem fun {v w} hv hw hboth => ?_
    have hv := hnonneg v hv
    have hw := hnonneg w hw
    obtain ⟨hap, hlt⟩ := hboth
    unfold Lex.Apart at hap
    unfold Lex.replacedBy
    dsimp only
    omega

end Visits

/-- A template of two yields, filled in the order in which they stand. -/
theorem fillTemplate_in_order :
    fillTemplate (lit "$[iyield]\x7ba\x7d$\n$[iyield]\x7bb\x7d$") [(lit "a", lit "1"), (lit "b", lit "2")] =
      .ok (render
        (replacements (lit "$[iyield]\x7ba\x7d$\n$[iyield]\x7bb\x7d$") [(lit "a", lit "1"), (lit "b", lit "2")])
        (lit "$[iyield]\x7ba\x7d$\n$[iyield]\x7bb\x7d$") ++ lit "\n") :=
  (fillTemplate_iff (placed_scanzz (by decide) iyield) (by decide)).mpr (by decide)

/-- With the keys in the other order the text behind the second yield is copied before the first. -/
theorem fillTemplate_out_of_order :
    fillTemplate (lit "$[iyield]\x7ba\x7d$\n$[iyield]\x7bb\x7d$") [(lit "b", lit "2"), (lit "a", lit "1")] ≠
      .ok (render
        (replacements (lit "$[iyield]\x7ba\x7d$\n$[iyield]\x7bb\x7d$") [(lit "b", lit "2"), (lit "a", lit "1")])
        (lit "$[iyield]\x7ba\x7d$\n$[iyield]\x7bb\x7d$") ++ lit "\n") := by
  decide

end Jericho.Iris
