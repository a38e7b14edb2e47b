import Jericho.Iris.Interpret
import Jericho.Library.Splice

/-! When a page is interpreted in place: each directive of the original text gives way to its
expansion where it stands, and nothing else changes. -/
namespace Jericho.Iris
open StdText Util Splice
variable {σ : Type}

/-- An occurrence of a directive in the original text, and its expansion. A template is looked for
at its old position, the others by their text. -/
structure Directive where
  text : Bytes
  pos : Nat
  byPosition : Bool
  expansion : Bytes
  deriving DecidableEq

namespace Directive

def lex (d : Directive) : Lex := .ofMatch (d.text, d.pos)

def edit (d : Directive) : Edit Byte := ⟨d.pos, d.text.length, d.expansion⟩

/-- One step of a pass. -/
def run (s : Bytes) (d : Directive) : Exec Bytes :=
  if d.byPosition then replaceAt s d.lex d.expansion else .ok (replace s d.text d.expansion)

/-- Where the step starts to replace as many characters as the directive has. -/
def found (d : Directive) (s : Bytes) : Option Nat :=
  if d.byPosition then (if d.lex.start + d.text.length < 2^64 then some d.lex.start else none)
  else Occurrence.find d.text s

end Directive

def searched (expand : Lex → Bytes) (m : Bytes × Nat) : Directive := ⟨m.1, m.2, false, expand (.ofMatch m)⟩

/-- The directives of a page with their expansions, in the order of the passes. -/
def directives (env : Env σ) (file : Bytes) : Exec (List Directive) := do
  let contents := env.disk.read (cstr file)
  let dir := dirOf file
  let forms ← (iform.scan contents).mapM fun m => do
    let newForm ← env.parseForm (.ofMatch m)
    return (⟨m.1, m.2, false, newForm⟩ : Directive)
  let temps ← (itemp.scan contents).mapM fun m => do
    let bytes ← env.parseTemp dir (.ofMatch m)
    return (⟨m.1, m.2, true, bytes⟩ : Directive)
  return (idoc.scan contents).map (searched fun _ => []) ++ (ilink.scan contents).map (searched (parseLink env.router)) ++
    forms ++ temps ++ (ipart.scan contents).map (searched (partialContents env.disk dir (env.disk.getDir dir)))

theorem foldlM_searched (expand : Lex → Bytes) (ms : List (Bytes × Nat)) (s : Bytes) :
    (ms.map (searched expand)).foldlM Directive.run s =
      .ok ((ms.map Lex.ofMatch).foldl (fun s lex => replace s lex.first (expand lex)) s) := by
  induction ms generalizing s with
  | nil => rfl
  | cons m ms ih =>
    rw [List.map_cons, List.map_cons, List.foldlM_cons, List.foldl_cons, ← ih]
    rfl

theorem foldlM_expanded {byPosition : Bool} {expand : Lex → Exec Bytes} {ms : List (Bytes × Nat)} {ds : List Directive}
    (h : (ms.mapM fun m => do
      let e ← expand (.ofMatch m)
      return (⟨m.1, m.2, byPosition, e⟩ : Directive)) = .ok ds) (s : Bytes) :
    (ms.map Lex.ofMatch).foldlM (fun s lex => do
      let e ← expand lex
      if byPosition then replaceAt s lex e else return replace s lex.first e) s = ds.foldlM Directive.run s := by
  induction ms generalizing ds s with
  | nil =>
    obtain rfl := Except.ok.inj h
    rfl
  | cons m ms ih =>
    obtain ⟨d, ds', hd, hds, rfl⟩ := mapM_cons_ok h
    obtain ⟨e, he, hd⟩ := bind_eq_ok.mp hd
    obtain rfl := Except.ok.inj hd
    rw [List.map_cons, List.foldlM_cons, List.foldlM_cons, he]
    have hstep : (if byPosition then replaceAt s (.ofMatch m) e else return replace s (Lex.ofMatch m).first e) =
        Directive.run s ⟨m.1, m.2, byPosition, e⟩ := rfl
    simp only [ih hds]
    rfl

/-- The passes are a single run over the directives. -/
theorem interpret_eq {env : Env σ} {file : Bytes} {ds : List Directive} (h : directives env file = .ok ds) :
    interpret env file = ds.foldlM Directive.run (env.disk.read (cstr file)) := by
  obtain ⟨forms, hforms, h⟩ := bind_eq_ok.mp h
  obtain ⟨temps, htemps, h⟩ := bind_eq_ok.mp h
  rw [← Except.ok.inj h]
  simp only [List.append_assoc, List.foldlM_append, foldlM_searched, ← foldlM_expanded hforms,
    ← foldlM_expanded htemps, Bool.false_eq_true, if_true, if_false]
  rfl

theorem mem_of_mapM {α β : Type} {f : α → Exec β} {as : List α} {bs : List β} (h : as.mapM f = .ok bs) :
    ∀ b ∈ bs, ∃ a ∈ as, f a = .ok b := by
  have hall := forall₂_of_mapM h
  clear h
  induction hall with
  | nil => exact fun b hb => absurd hb List.not_mem_nil
  | cons hb _ ih =>
    rw [List.forall_mem_cons]
    refine ⟨⟨_, List.mem_cons_self, hb⟩, fun c hc => ?_⟩
    obtain ⟨x, hx, hc⟩ := ih c hc
    exact ⟨x, List.mem_cons_of_mem _ hx, hc⟩

theorem directives_scanned {env : Env σ} {file : Bytes} {ds : List Directive} (h : directives env file = .ok ds) :
    ∀ d ∈ ds, ∃ r : Pattern Byte, (d.text, d.pos) ∈ r.scan (env.disk.read (cstr file)) := by
  obtain ⟨forms, hforms, h⟩ := bind_eq_ok.mp h
  obtain ⟨temps, htemps, h⟩ := bind_eq_ok.mp h
  rw [← Except.ok.inj h]
  have hsearched : ∀ (r : Pattern Byte) (expand : Lex → Bytes),
      ∀ d ∈ (r.scan (env.disk.read (cstr file))).map (searched expand),
        ∃ r : Pattern Byte, (d.text, d.pos) ∈ r.scan (env.disk.read (cstr file)) := by
    intro r expand d hd
    obtain ⟨m, hm, rfl⟩ := List.mem_map.mp hd
    exact ⟨r, hm⟩
  have hforms : ∀ d ∈ forms, ∃ r : Pattern Byte, (d.text, d.pos) ∈ r.scan (env.disk.read (cstr file)) := by
    intro d hd
    obtain ⟨m, hm, hd⟩ := mem_of_mapM hforms d hd
    obtain ⟨e, -, hd⟩ := bind_eq_ok.mp hd
    obtain rfl := Except.ok.inj hd
    exact ⟨iform, hm⟩
  have htemps : ∀ d ∈ temps, ∃ r : Pattern Byte, (d.text, d.pos) ∈ r.scan (env.disk.read (cstr file)) := by
    intro d hd
    obtain ⟨m, hm, hd⟩ := mem_of_mapM htemps d hd
    obtain ⟨e, -, hd⟩ := bind_eq_ok.mp hd
    obtain rfl := Except.ok.inj hd
    exact ⟨itemp, hm⟩
  rw [List.forall_mem_append, List.forall_mem_append, List.forall_mem_append, List.forall_mem_append]
  exact ⟨⟨⟨⟨hsearched _ _, hsearched _ _⟩, hforms⟩, htemps⟩, hsearched _ _⟩

/-- Every directive is a piece of the page, at its position. -/
theorem directives_fits {env : Env σ} {file : Bytes} {ds : List Directive} (h : directives env file = .ok ds) :
    ∀ d ∈ ds, d.edit.Fits (env.disk.read (cstr file)) d.text := by
  intro d hd
  obtain ⟨r, hr⟩ := directives_scanned h d hd
  obtain ⟨hne, a, b, hsplit, ha, -⟩ := Pattern.scan_piece r hr
  exact ⟨List.length_pos_iff.mpr hne, rfl, a, b, hsplit, ha⟩

/-- The text in which some directives have given way to their expansions. -/
def replaced (contents : Bytes) (ds : List Directive) : Bytes := render (ds.map Directive.edit) contents

/-- Where a directive stands in the text in which others have given way. -/
def Directive.place (d : Directive) (contents : Bytes) (ds : List Directive) : Nat :=
  Splice.place (ds.map Directive.edit) contents d.pos

/-- Each step of the passes edits the place where its directive stands, and the page that comes out
is the original text with every directive replaced. -/
structure InterpretedInPlace (env : Env σ) (file : Bytes) (ds : List Directive) : Prop where
  steps : ∀ k (d : Directive), ds[k]? = some d →
    ∃ s, (ds.take k).foldlM Directive.run (env.disk.read (cstr file)) = .ok s ∧
    d.found s = some (d.place (env.disk.read (cstr file)) (ds.take k))
  result : interpret env file = .ok (replaced (env.disk.read (cstr file)) ds)

/-- With the directives before it replaced in place, a directive is found where it stands. -/
def Undisturbed (contents : Bytes) (ds : List Directive) : Prop :=
  ∀ k (d : Directive), ds[k]? = some d → d.found (replaced contents (ds.take k)) = some (d.place contents (ds.take k))

theorem Directive.run_of_found {d : Directive} {s a b : Bytes} (hs : s = a ++ d.text ++ b)
    (h : d.found s = some a.length) : Directive.run s d = .ok (a ++ d.expansion ++ b) := by
  have hcut : s.take a.length = a ∧ s.drop (a.length + d.text.length) = b := by
    rw [hs, List.append_assoc, List.take_left, ← List.append_assoc, ← List.length_append, List.drop_left]
    exact ⟨rfl, rfl⟩
  unfold Directive.found at h
  unfold Directive.run
  cases hby : d.byPosition with
  | true =>
    rw [hby, if_pos rfl] at h
    split_ifs at h with hwrap
    have hstart : d.lex.start = a.length := Option.some.inj h
    have hstop : d.lex.stop = a.length + d.text.length :=
      (Nat.mod_eq_of_lt hwrap).trans (congrArg (· + d.text.length) hstart)
    have hle : a.length + d.text.length ≤ s.length := by
      rw [hs, List.length_append, List.length_append]
      omega
    rw [if_pos rfl, replaceAt, hstop, hstart, if_pos hle, hcut.1, hcut.2]
  | false =>
    rw [hby] at h
    have hfind : Occurrence.find d.text s = some a.length := h
    unfold replace
    rw [hfind]
    dsimp only
    rw [hcut.1, hcut.2]
    rfl

variable {contents : Bytes} {ds : List Directive}

/-- A step that finds its directive in place leaves the next one's text in place. -/
theorem run_step (hfits : ∀ d ∈ ds, d.edit.Fits contents d.text) (hapart : (ds.map Directive.edit).Pairwise Apart)
    {k : Nat} {d : Directive} (hd : ds[k]? = some d)
    (hfound : d.found (replaced contents (ds.take k)) = some (d.place contents (ds.take k))) :
    Directive.run (replaced contents (ds.take k)) d = .ok (replaced contents (ds.take (k + 1))) := by
  have htake : ds.take (k + 1) = ds.take k ++ [d] := by
    rw [List.take_add_one, hd]
    rfl
  have hmem : d ∈ ds := List.mem_of_getElem? hd
  have hes : ∀ e ∈ (ds.take k).map Directive.edit, 0 < e.len ∧ Apart e d.edit := by
    have hpair : ((ds.take k ++ [d]).map Directive.edit).Pairwise Apart := by
      rw [← htake, List.map_take]
      exact hapart.sublist (List.take_sublist _ _)
    rw [List.map_append, List.pairwise_append] at hpair
    intro e he
    obtain ⟨x, hx, rfl⟩ := List.mem_map.mp he
    exact ⟨(hfits x (List.mem_of_mem_take hx)).nonempty, hpair.2.2 _ he _ (List.mem_singleton_self _)⟩
  obtain ⟨a, b, ha, hbefore, hafter⟩ := render_append (hfits d hmem) hes
  have hplace : d.place contents (ds.take k) = a.length := ha.symm
  have hbefore : replaced contents (ds.take k) = a ++ d.text ++ b := hbefore
  have hafter : replaced contents (ds.take k ++ [d]) = a ++ d.expansion ++ b := by
    unfold replaced
    rw [List.map_append]
    exact hafter
  rw [hplace] at hfound
  rw [Directive.run_of_found hbefore hfound, htake, hafter]

/-- As long as the steps find their directives in place, the text is the one with them replaced. -/
theorem run_take (hfits : ∀ d ∈ ds, d.edit.Fits contents d.text) (hapart : (ds.map Directive.edit).Pairwise Apart)
    {k : Nat} (h : ∀ j < k, ∀ d : Directive, ds[j]? = some d →
      d.found (replaced contents (ds.take j)) = some (d.place contents (ds.take j))) :
    (ds.take k).foldlM Directive.run contents = .ok (replaced contents (ds.take k)) := by
  induction k with
  | zero =>
    have hnone : ∀ (i : Nat) (s : Bytes), renderFrom [] i 0 s = s :=
      fun i s => renderFrom_plain fun d hd => absurd hd List.not_mem_nil
    exact congrArg Except.ok (hnone 0 contents).symm
  | succ k ih =>
    have ih := ih fun j hj => h j (Nat.lt_succ_of_lt hj)
    cases hd : ds[k]? with
    | none =>
      have hle : ds.length ≤ k := List.getElem?_eq_none_iff.mp hd
      rw [List.take_of_length_le hle] at ih
      rw [List.take_of_length_le (Nat.le_succ_of_le hle)]
      exact ih
    | some d =>
      have hstep := run_step hfits hapart hd (h k (Nat.lt_succ_self k) d hd)
      rw [List.take_add_one, hd, Option.toList_some, List.foldlM_append, ih]
      rw [List.take_add_one, hd, Option.toList_some] at hstep
      change ([d].foldlM Directive.run (replaced contents (ds.take k))) = _
      rw [List.foldlM_cons, hstep]
      rfl

/-- Interpretation is local replacement exactly when no directive is disturbed by the ones before it. -/
theorem interpreted_in_place_iff {env : Env σ} {file : Bytes} (hds : directives env file = .ok ds)
    (hapart : (ds.map Directive.edit).Pairwise Apart) :
    InterpretedInPlace env file ds ↔ Undisturbed (env.disk.read (cstr file)) ds := by
  have hfits := directives_fits hds
  constructor
  · rintro ⟨hsteps, -⟩ k
    induction k using Nat.strong_induction_on with
    | _ k ih =>
      intro d hd
      obtain ⟨s, hs, hfound⟩ := hsteps k d hd
      rw [run_take hfits hapart ih] at hs
      rw [Except.ok.inj hs]
      exact hfound
  · intro h
    refine ⟨fun k d hd => ⟨_, run_take hfits hapart fun j _ => h j, h k d hd⟩, ?_⟩
    have hall := run_take hfits hapart (k := ds.length) fun j _ => h j
    rw [List.take_length] at hall
    rw [interpret_eq hds]
    exact hall

/-- A directory with two partials, the first of which mentions the second, and a template. -/
def sampleDisk (page : Bytes) : Disk where
  getDir _ := [lit "main.iris", lit "_a", lit "_b", lit "@t"]
  read file :=
    if file = lit "main.iris" then page
    else if file = lit "_a" then lit "A $[ipart]\x7bb\x7d$"
    else if file = lit "_b" then lit "B"
    else if file = lit "@t" then lit "hello"
    else []

def sampleEnv (page : Bytes) : Env Unit where
  router := {}
  disk := sampleDisk page
  parseForm _ := .ok (lit "undefined")
  parseTemp _ _ := .ok (lit "hello\n")

def partDirective : Directive := ⟨lit "$[ipart]\x7bb\x7d$", 9, false, lit "B"⟩
def docDirective : Directive := ⟨lit "$[idoc]$", 0, false, []⟩

theorem interpreted_in_place_part :
    InterpretedInPlace (sampleEnv (lit "$[idoc]$\n$[ipart]\x7bb\x7d$\n")) (lit "main.iris")
      [docDirective, partDirective] := by
  have hds : directives (sampleEnv (lit "$[idoc]$\n$[ipart]\x7bb\x7d$\n")) (lit "main.iris") =
      .ok [docDirective, partDirective] := by decide +kernel
  refine (interpreted_in_place_iff hds (by decide)).mpr fun k d hd => ?_
  rcases k with _ | _ | k
  · obtain rfl := Option.some.inj hd
    decide +kernel
  · obtain rfl := Option.some.inj hd
    decide +kernel
  · cases hd

def templatePage : Bytes := lit "$[idoc]$\n<p>$[itemp=t]\x7ba: b\x7d$</p>\n</body></html>\n"
def nestedPage : Bytes := lit "$[ipart]\x7ba\x7d$\n$[ipart]\x7bb\x7d$\n"

def templateDirectives : List Directive :=
  [docDirective, ⟨lit "$[itemp=t]\x7ba: b\x7d$", 12, true, lit "hello\n"⟩]

def nestedDirectives : List Directive :=
  [⟨lit "$[ipart]\x7ba\x7d$", 0, false, lit "A $[ipart]\x7bb\x7d$"⟩, ⟨lit "$[ipart]\x7bb\x7d$", 13, false, lit "B"⟩]

/-- The template pass works with positions from before the earlier passes, and a partial that
mentions a later one is where the later one is then found. -/
theorem interpreted_elsewhere :
    (directives (sampleEnv templatePage) (lit "main.iris") = .ok templateDirectives ∧
      (templateDirectives.map Directive.edit).Pairwise Apart ∧
      replaced templatePage templateDirectives = lit "\n<p>hello\n</p>\n</body></html>\n" ∧
      interpret (sampleEnv templatePage) (lit "main.iris") = .ok (lit "\n<p>$[itemp=hello\nody></html>\n") ∧
      interpret (sampleEnv templatePage) (lit "main.iris") ≠ .ok (replaced templatePage templateDirectives)) ∧
    directives (sampleEnv nestedPage) (lit "main.iris") = .ok nestedDirectives ∧
      (nestedDirectives.map Directive.edit).Pairwise Apart ∧
      replaced nestedPage nestedDirectives = lit "A $[ipart]\x7bb\x7d$\nB\n" ∧
      interpret (sampleEnv nestedPage) (lit "main.iris") = .ok (lit "A B\n$[ipart]\x7bb\x7d$\n") ∧
      interpret (sampleEnv nestedPage) (lit "main.iris") ≠ .ok (replaced nestedPage nestedDirectives) := by
  decide +kernel

end Jericho.Iris
