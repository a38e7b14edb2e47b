import Mathlib.Data.List.Basic
import Mathlib.Data.List.Infix

/-! Lexical normalisation of relative paths over any alphabet with a separator and a dot. -/
namespace LexicalPath
variable {α : Type*} [DecidableEq α] (sep dot : α)

/-- The pieces between separators. -/
def components (s : List α) : List (List α) := s.splitOn sep

/-- A component that names something. -/
def Names (c : List α) : Prop := c ≠ [] ∧ c ≠ [dot]

instance (c : List α) : Decidable (Names dot c) := by unfold Names; infer_instance

/-- One component on top of a normalised path, innermost directory last. -/
def step (path : List (List α)) (c : List α) : List (List α) :=
  if ¬ Names dot c then path
  else if c = [dot, dot] then
    if path = [] ∨ path.getLast? = some [dot, dot] then path ++ [c] else path.dropLast
  else path ++ [c]

/-- Empty and dot components disappear, a double dot removes the directory before it. -/
def normalize (s : List α) : List (List α) := (components sep s).foldl (step dot) []

/-- The file lies below the directory, not at it. -/
def Inside (dir file : List α) : Prop :=
  ∃ rest, rest ≠ [] ∧ [dot, dot] ∉ rest ∧ normalize sep dot file = normalize sep dot dir ++ rest

/-- The components that name something. -/
def names (s : List α) : List (List α) := (components sep s).filter (Names dot ·)

variable {sep dot}

theorem step_of_notNames {c : List α} (h : ¬ Names dot c) (path : List (List α)) : step dot path c = path := by
  rw [step, if_pos h]

theorem step_of_ne {c : List α} (h : Names dot c) (hdd : c ≠ [dot, dot]) (path : List (List α)) :
    step dot path c = path ++ [c] := by
  rw [step, if_neg (not_not_intro h), if_neg hdd]

theorem step_up {path : List (List α)} {c : List α} (hc : c ≠ [dot, dot]) :
    step dot (path ++ [c]) [dot, dot] = path := by
  have hn : Names dot [dot, dot] := by simp [Names]
  rw [step, if_neg (not_not_intro hn), if_pos rfl, if_neg]
  · simp
  · simp [hc]

/-- Without double dots the named components are appended. -/
theorem foldl_step {cs : List (List α)} (h : [dot, dot] ∉ cs) (path : List (List α)) :
    cs.foldl (step dot) path = path ++ cs.filter (Names dot ·) := by
  induction cs generalizing path with
  | nil => simp
  | cons c cs ih =>
    obtain ⟨hc, hcs⟩ : [dot, dot] ≠ c ∧ [dot, dot] ∉ cs := by simpa using h
    rw [List.foldl_cons, ih hcs]
    by_cases hn : Names dot c
    · rw [step_of_ne hn (Ne.symm hc), List.filter_cons_of_pos (by simpa using hn), List.append_assoc]
      rfl
    · rw [step_of_notNames hn, List.filter_cons_of_neg (by simpa using hn)]

variable (sep) in
/-- A text without two dots in a row has no double-dot component. -/
theorem notMem_components {s : List α} (h : ¬ [dot, dot] <:+: s) : [dot, dot] ∉ components sep s := by
  intro hm
  have hjoin : [sep].intercalate (s.splitOn sep) = s := List.intercalate_splitOn sep
  apply h
  rw [← hjoin]
  obtain ⟨a, b, hab⟩ := List.append_of_mem hm
  have hcomp : s.splitOn sep = a ++ [dot, dot] :: b := hab
  rw [hcomp]
  clear hab hcomp hm hjoin h
  induction a with
  | nil =>
    cases b with
    | nil => simp [List.intercalate]
    | cons c b => exact ⟨[], sep :: [sep].intercalate (c :: b), by simp [List.intercalate]⟩
  | cons x a ih =>
    have hcons : [sep].intercalate (x :: (a ++ [dot, dot] :: b)) =
        x ++ [sep] ++ [sep].intercalate (a ++ [dot, dot] :: b) := by
      cases a <;> simp [List.intercalate]
    rw [List.cons_append, hcons]
    exact ih.trans (List.suffix_append _ _).isInfix

theorem components_append_sep (a b : List α) :
    components sep (a ++ sep :: b) = components sep a ++ components sep b := by
  unfold components List.splitOn
  induction a with
  | nil => simp [List.splitOnP_cons_eq_if_modifyHead]
  | cons c a ih =>
    rw [List.cons_append, List.splitOnP_cons_eq_if_modifyHead, List.splitOnP_cons_eq_if_modifyHead, ih]
    split
    · rfl
    · obtain ⟨h, t, ht⟩ := List.exists_cons_of_ne_nil (List.splitOnP_ne_nil (· == sep) a)
      rw [ht]
      rfl

variable (sep) in
theorem components_ne_nil (s : List α) : components sep s ≠ [] := List.splitOnP_ne_nil _ _

/-- Appending text joins the last component of one to the first of the other. -/
theorem components_append {a b : List α} {as bs : List (List α)} {x y : List α}
    (ha : components sep a = as ++ [x]) (hb : components sep b = y :: bs) :
    components sep (a ++ b) = as ++ (x ++ y) :: bs := by
  induction a generalizing as x with
  | nil =>
    have h0 : components sep ([] : List α) = [[]] := rfl
    obtain ⟨rfl, rfl⟩ : as = [] ∧ x = [] := by
      rw [h0] at ha
      cases as with
      | nil => simpa [eq_comm] using ha
      | cons z zs => simp at ha
    simpa using hb
  | cons c a ih =>
    unfold components List.splitOn at ha hb ih ⊢
    rw [List.splitOnP_cons_eq_if_modifyHead] at ha
    rw [List.cons_append, List.splitOnP_cons_eq_if_modifyHead]
    obtain ⟨init, last, hsplit⟩ : ∃ init last, a.splitOnP (· == sep) = init ++ [last] :=
      ⟨_, _, (List.dropLast_append_getLast (List.splitOnP_ne_nil _ _)).symm⟩
    rw [hsplit] at ha
    rw [ih hsplit]
    split_ifs at ha ⊢
    · rw [← List.cons_append] at ha
      obtain ⟨rfl, hx⟩ := List.append_inj' ha rfl
      obtain rfl : last = x := by simpa using hx
      rfl
    · cases init with
      | nil =>
        obtain ⟨rfl, hx⟩ : as = [] ∧ c :: last = x := by
          cases as with
          | nil => simpa using ha
          | cons z zs => simp at ha
        rw [← hx]
        rfl
      | cons i init =>
        rw [List.cons_append, List.modifyHead_cons, ← List.cons_append] at ha
        obtain ⟨rfl, hx⟩ := List.append_inj' ha rfl
        obtain rfl : last = x := by simpa using hx
        rfl

variable (sep dot)

/-- A text appended to a directory, without a separator being added, stays below it: either a
separator meets the seam and the text names something, or the directory ends in a dot that the
text turns into a hidden name, or into a double dot from which it walks back in. -/
def Below (dir p : List α) : Prop :=
  ∃ (ds ps : List (List α)) (l f : List α), components sep dir = ds ++ [l] ∧ components sep p = f :: ps ∧
    ((l = [] ∨ f = []) ∧ names sep dot p ≠ [] ∨
      l = [dot] ∧ f ≠ [] ∧
        (f = [dot] → ∃ x r, (ds.filter (Names dot ·)).getLast? = some x ∧ ps.filter (Names dot ·) = x :: r ∧ r ≠ []))

variable {sep dot}

theorem below_iff {dir p : List α} {ds ps : List (List α)} {l f : List α}
    (hd : components sep dir = ds ++ [l]) (hp : components sep p = f :: ps) :
    Below sep dot dir p ↔ (l = [] ∨ f = []) ∧ names sep dot p ≠ [] ∨
      l = [dot] ∧ f ≠ [] ∧
        (f = [dot] → ∃ x r, (ds.filter (Names dot ·)).getLast? = some x ∧ ps.filter (Names dot ·) = x :: r ∧
          r ≠ []) := by
  constructor
  · rintro ⟨ds', ps', l', f', hd', hp', h⟩
    obtain ⟨rfl, hl⟩ := List.append_inj' (hd.symm.trans hd') rfl
    obtain rfl : l = l' := by simpa using hl
    obtain ⟨rfl, rfl⟩ := List.cons.inj (hp.symm.trans hp')
    exact h
  · exact fun h => ⟨ds, ps, l, f, hd, hp, h⟩

/-- A text that starts with a separator stays below when it names something. -/
theorem below_cons_sep (dir p : List α) : Below sep dot dir (sep :: p) ↔ names sep dot p ≠ [] := by
  obtain ⟨ds, l, hd⟩ : ∃ ds l, components sep dir = ds ++ [l] :=
    ⟨_, _, (List.dropLast_append_getLast (components_ne_nil sep dir)).symm⟩
  have hp : components sep (sep :: p) = [] :: components sep p := components_append_sep [] p
  have hnames : names sep dot (sep :: p) = names sep dot p := by
    rw [names, hp, List.filter_cons_of_neg (by simp [Names]), names]
  rw [below_iff hd hp, hnames]
  simp

omit [DecidableEq α] in
/-- Components without a double dot lead below a path when there are any of them. -/
theorem extends_iff {rest : List (List α)} (h : [dot, dot] ∉ rest) (base : List (List α)) :
    (∃ r, r ≠ [] ∧ [dot, dot] ∉ r ∧ base ++ rest = base ++ r) ↔ rest ≠ [] := by
  constructor
  · rintro ⟨r, hr, -, heq⟩
    rwa [List.append_cancel_left heq]
  · exact fun hrest => ⟨rest, hrest, h, rfl⟩

omit [DecidableEq α] in
/-- A name does not become a double dot, nor less of a name, by what is written after it. -/
theorem names_append {l f : List α} (hl : Names dot l) (hf : f ≠ []) :
    Names dot (l ++ f) ∧ l ++ f ≠ [dot, dot] := by
  obtain ⟨a, l, rfl⟩ := List.exists_cons_of_ne_nil hl.1
  obtain ⟨b, f, rfl⟩ := List.exists_cons_of_ne_nil hf
  refine ⟨⟨by simp, by simp⟩, fun h => ?_⟩
  rw [List.cons_append] at h
  obtain ⟨ha, htail⟩ := List.cons.inj h
  have hlen := congrArg List.length htail
  simp only [List.length_append, List.length_cons, List.length_nil] at hlen
  obtain rfl : l = [] := List.length_eq_zero_iff.mp (by omega)
  exact hl.2 (by rw [ha])

/-- Where a name at the end of the directory is continued, the path leaves it. -/
theorem not_extends_of_names {N P : List (List α)} {l f : List α} (hl : Names dot l) (hup : l ≠ [dot, dot])
    (hf : f ≠ []) : ¬ ∃ r, r ≠ [] ∧ [dot, dot] ∉ r ∧ step dot N (l ++ f) ++ P = step dot N l ++ r := by
  obtain ⟨hname, hne⟩ := names_append hl hf
  rw [step_of_ne hname hne, step_of_ne hl hup]
  rintro ⟨r, -, -, h⟩
  rw [List.append_assoc, List.append_assoc] at h
  have hseam : l ++ f = l := (List.cons.inj (List.append_cancel_left h)).1
  exact hf (List.append_right_eq_self.mp hseam)

/-- Where two dots meet, the path goes up from the directory and has to walk back in. -/
theorem extends_up_iff {N P : List (List α)} (hN : [dot, dot] ∉ N) (hP : [dot, dot] ∉ P) :
    (∃ r, r ≠ [] ∧ [dot, dot] ∉ r ∧ step dot N [dot, dot] ++ P = N ++ r) ↔
      ∃ x r, N.getLast? = some x ∧ P = x :: r ∧ r ≠ [] := by
  cases hlast : N.getLast? with
  | none =>
    obtain rfl : N = [] := List.getLast?_eq_none_iff.mp hlast
    have hup : step dot [] [dot, dot] = [[dot, dot]] := by simp [step, Names]
    rw [hup]
    simp
  | some x =>
    obtain ⟨M, rfl⟩ := List.getLast?_eq_some_iff.mp hlast
    have hx : x ≠ [dot, dot] := fun h => hN (by simp [h])
    rw [step_up hx]
    constructor
    · rintro ⟨r, hr, -, h⟩
      rw [List.append_assoc] at h
      exact ⟨x, r, rfl, List.append_cancel_left h, hr⟩
    · rintro ⟨y, r, hy, rfl, hr⟩
      obtain rfl := Option.some.inj hy
      exact ⟨r, hr, fun hm => hP (List.mem_cons_of_mem _ hm), by simp⟩

/-- Where the appended text leads, when neither part has two dots in a row. -/
theorem inside_append_iff {dir p : List α} (hdir : ¬ [dot, dot] <:+: dir) (hp : ¬ [dot, dot] <:+: p) :
    Inside sep dot dir (dir ++ p) ↔ Below sep dot dir p := by
  obtain ⟨ds, l, hd⟩ : ∃ ds l, components sep dir = ds ++ [l] :=
    ⟨_, _, (List.dropLast_append_getLast (components_ne_nil sep dir)).symm⟩
  obtain ⟨f, ps, hps⟩ := List.exists_cons_of_ne_nil (components_ne_nil sep p)
  have hupd := notMem_components sep hdir
  have hupp := notMem_components sep hp
  have hnames : names sep dot p = (f :: ps).filter (Names dot ·) := by rw [names, hps]
  rw [below_iff hd hps, Inside, normalize, normalize, components_append hd hps, hd]
  rw [hd, List.mem_append, not_or] at hupd
  rw [hps] at hupp
  have hups : [dot, dot] ∉ ps := fun h => hupp (List.mem_cons_of_mem _ h)
  have hl : l ≠ [dot, dot] := fun h => hupd.2 (by simp [h])
  rw [List.foldl_append, List.foldl_append, foldl_step hupd.1, List.nil_append]
  set N := ds.filter (Names dot ·) with hN
  set P := ps.filter (Names dot ·) with hP
  have hupN : [dot, dot] ∉ N := fun h => hupd.1 (List.mem_of_mem_filter h)
  have hupP : [dot, dot] ∉ P := fun h => hups (List.mem_of_mem_filter h)
  rw [List.foldl_cons, foldl_step hups, List.foldl_cons, List.foldl_nil, ← hP]
  by_cases hlnil : l = []
  · have hstep : step dot N l = N := step_of_notNames (by simp [Names, hlnil]) N
    have hfull : step dot N (l ++ f) ++ P = N ++ names sep dot p := by
      rw [hlnil, List.nil_append, hnames, ← foldl_step hupp, List.foldl_cons, foldl_step hups]
    rw [hstep, hfull, extends_iff (by rw [hnames]; exact fun h => hupp (List.mem_of_mem_filter h))]
    simp [hlnil]
  by_cases hfnil : f = []
  · have hn : names sep dot p = P := by
      rw [hnames, List.filter_cons_of_neg (by simp [Names, hfnil])]
    rw [hfnil, List.append_nil, extends_iff hupP, hn]
    simp
  by_cases hldot : l = [dot]
  · have hstep : step dot N l = N := step_of_notNames (by simp [Names, hldot]) N
    rw [hstep]
    by_cases hfdot : f = [dot]
    · have hseam : l ++ f = [dot, dot] := by rw [hldot, hfdot]; rfl
      rw [hseam, extends_up_iff hupN hupP]
      simp [hldot, hfdot]
    · have hname : Names dot (l ++ f) := by simp [Names, hldot, hfnil]
      have hne : l ++ f ≠ [dot, dot] := by simpa [hldot] using hfdot
      rw [step_of_ne hname hne, List.append_assoc, extends_iff (by simpa using ⟨Ne.symm hne, hupP⟩)]
      simp [hldot, hfnil, hfdot]
  · have hleft := not_extends_of_names (N := N) (P := P) ⟨hlnil, hldot⟩ hl hfnil
    simp [hleft, hlnil, hfnil, hldot]

variable (sep dot)

/-- The spelling of a path with repeated separators collapsed and dot segments removed: the
first and the last component stay, of the others only those that name something. -/
def canonical (s : List α) : List (List α) :=
  let cs := components sep s
  cs.take 1 ++ (cs.drop 1).dropLast.filter (Names dot ·) ++ (cs.drop 1).getLast?.toList

variable {sep dot}

/-- A component that names nothing, between two separators, is not part of the spelling. -/
theorem canonical_skip {c : List α} (hc : ¬ Names dot c) (hsep : sep ∉ c) (a b : List α) :
    canonical sep dot (a ++ sep :: (c ++ sep :: b)) = canonical sep dot (a ++ sep :: b) := by
  have hone : components sep c = [c] :=
    List.splitOnP_eq_singleton (fun x hx => by simpa using fun h : x = sep => hsep (h ▸ hx))
  obtain ⟨x, as, ha⟩ := List.exists_cons_of_ne_nil (components_ne_nil sep a)
  obtain ⟨bs, y, hb⟩ : ∃ bs y, components sep b = bs ++ [y] :=
    ⟨_, _, (List.dropLast_append_getLast (components_ne_nil sep b)).symm⟩
  unfold canonical
  simp only [components_append_sep, ha, hone, hb]
  have hleft : x :: as ++ ([c] ++ (bs ++ [y])) = x :: ((as ++ c :: bs) ++ [y]) := by simp
  have hright : x :: as ++ (bs ++ [y]) = x :: ((as ++ bs) ++ [y]) := by simp
  rw [hleft, hright]
  simp only [List.drop_succ_cons, List.drop_zero, List.dropLast_concat, List.getLast?_append, List.filter_append,
    List.filter_cons]
  simp [hc]

theorem canonical_double_sep (a b : List α) :
    canonical sep dot (a ++ sep :: sep :: b) = canonical sep dot (a ++ sep :: b) := by
  have hskip := canonical_skip (by simp [Names] : ¬ Names dot []) (List.not_mem_nil (a := sep)) a b
  exact hskip

theorem canonical_dot_segment (h : sep ≠ dot) (a b : List α) :
    canonical sep dot (a ++ sep :: dot :: sep :: b) = canonical sep dot (a ++ sep :: b) :=
  canonical_skip (by simp [Names] : ¬ Names dot [dot]) (by simpa using h) a b

end LexicalPath
