import Mathlib.Data.List.DropRight
import Jericho.Util.Prizm

/-! `iris::parseMethods`: the calls behind a template, `.name(arg,arg)` one after the other up to a dollar sign. -/
namespace Jericho.Iris
open StdText Util

/-- The names of the calls, each with its arguments. -/
abbrev Methods := List (Bytes × List Bytes)

/-- What `parseMethods` has read. `IS_KV` is a global of the source. -/
structure MethodScan where
  name : Bool := false
  params : Bool := false
  literal : Bool := false
  nameStr : Bytes := []
  paramStr : Bytes := []
  methodCalls : Methods := []
  isKv : Bool := false

variable (prizm : Prizm)

/-- The call that has been read so far, if it has a name. -/
def MethodScan.flush (s : MethodScan) : MethodScan :=
  if s.nameStr = [] then s
  else
    { s with
      methodCalls := s.methodCalls ++ [(s.nameStr, prizm.tokenize s.paramStr 44)]
      nameStr := []
      paramStr := [] }

/-- One character. Parentheses are taken for brackets of the call also in a literal. -/
def MethodScan.read (s : MethodScan) (c : Byte) : MethodScan :=
  if c = 46 ∧ s.literal = false then { s.flush prizm with name := true }
  else
    let s := if c = 34 then { s with literal := !s.literal } else s
    if c = 40 then { s with name := false, params := true }
    else if c = 41 then { s with name := false, params := false }
    else
      { s with
        isKv := s.isKv || (c = 58 && !s.literal)
        nameStr := if s.name then s.nameStr ++ [c] else s.nameStr
        paramStr := if s.params then s.paramStr ++ [c] else s.paramStr }

/-- `parseMethods`, from behind the last closing brace; the second result is `IS_KV`. -/
def parseMethods (lex : Bytes) : Methods × Bool :=
  let methods := lex.rtakeWhile (· ≠ 125)
  if methods.head? = some 46 then
    let s := (methods.dropLast.foldl (MethodScan.read prizm) {}).flush prizm
    (s.methodCalls, s.isKv)
  else ([], false)

/-- An argument as it is written: a token, or a literal between quotes. -/
inductive Piece where
  | token (text : Bytes)
      (free : (46 : Byte) ∉ text ∧ (44 : Byte) ∉ text ∧ (58 : Byte) ∉ text ∧ (40 : Byte) ∉ text ∧ (41 : Byte) ∉ text ∧
        (34 : Byte) ∉ text)
  | literal (content : Bytes) (free : (34 : Byte) ∉ content ∧ (44 : Byte) ∉ content)

def Piece.text : Piece → Bytes
  | .token text _ => text
  | .literal content _ => 34 :: (content ++ [34])

def identifierChar (c : Byte) : Bool :=
  (65 ≤ c && c ≤ 90) || (97 ≤ c && c ≤ 122) || (48 ≤ c && c ≤ 57) || c = 95

def isIdentifier (name : Bytes) : Bool := name.head?.any (fun c => !isdigit c) && name.all identifierChar

/-- A call as it is written. -/
structure Method where
  name : Bytes
  args : List Piece
  identifier : isIdentifier name = true
  args_ne : args ≠ []

def Method.text (m : Method) : Bytes :=
  lit "." ++ (m.name ++ (lit "(" ++ ((lit ",").intercalate (m.args.map Piece.text) ++ lit ")")))

/-- The text of a chain of calls. -/
def chain (ms : List Method) : Bytes := lit "\x7d" ++ ms.flatMap Method.text ++ lit "$"

/-- The name and the arguments that a call is read as. -/
def Method.call (m : Method) : Bytes × List Bytes := (m.name, m.args.map Piece.text)

/-- The argument is not empty and has none of the characters that are read as marks inside literals too. -/
def Kept (arg : Bytes) : Prop := arg ≠ [] ∧ (125 : Byte) ∉ arg ∧ (40 : Byte) ∉ arg ∧ (41 : Byte) ∉ arg

instance (arg : Bytes) : Decidable (Kept arg) := inferInstanceAs (Decidable (_ ∧ _))

variable {prizm}

/-! No argument that is returned has a mark in it. -/

/-- The text of the arguments has no marks, and no returned argument has any. -/
structure MethodScan.Clean (s : MethodScan) : Prop where
  paramStr : (125 : Byte) ∉ s.paramStr ∧ (40 : Byte) ∉ s.paramStr ∧ (41 : Byte) ∉ s.paramStr
  calls : ∀ call ∈ s.methodCalls, ∀ arg ∈ call.2, Kept arg

theorem MethodScan.Clean.flush (hp : prizm.Documented) {s : MethodScan} (h : s.Clean) : (s.flush prizm).Clean := by
  unfold MethodScan.flush
  split_ifs
  · exact h
  · refine ⟨⟨List.not_mem_nil, List.not_mem_nil, List.not_mem_nil⟩, fun call hcall arg harg => ?_⟩
    rcases List.mem_append.mp hcall with hcall | hcall
    · exact h.calls call hcall arg harg
    · obtain rfl := List.mem_singleton.mp hcall
      rw [hp.tokenize_eq] at harg
      obtain ⟨hpiece, hne⟩ := List.mem_filter.mp harg
      obtain ⟨hbrace, hopen, hclose⟩ := h.paramStr
      exact ⟨of_decide_eq_true hne, fun hc => hbrace (mem_of_mem_splitOn hpiece hc),
        fun hc => hopen (mem_of_mem_splitOn hpiece hc), fun hc => hclose (mem_of_mem_splitOn hpiece hc)⟩

theorem MethodScan.Clean.read (hp : prizm.Documented) {s : MethodScan} (h : s.Clean) {c : Byte} (hc : c ≠ 125) :
    (s.read prizm c).Clean := by
  unfold MethodScan.read
  by_cases hdot : c = 46 ∧ s.literal = false
  · rw [if_pos hdot]
    exact ⟨(h.flush hp).paramStr, (h.flush hp).calls⟩
  · rw [if_neg hdot]
    have hquote : (if c = 34 then { s with literal := !s.literal } else s).Clean := by
      split_ifs
      · exact ⟨h.paramStr, h.calls⟩
      · exact h
    generalize (if c = 34 then { s with literal := !s.literal } else s) = t at hquote ⊢
    dsimp only
    by_cases hopen : c = 40
    · rw [if_pos hopen]
      exact ⟨hquote.paramStr, hquote.calls⟩
    by_cases hclose : c = 41
    · rw [if_neg hopen, if_pos hclose]
      exact ⟨hquote.paramStr, hquote.calls⟩
    rw [if_neg hopen, if_neg hclose]
    refine ⟨?_, hquote.calls⟩
    dsimp only
    split_ifs
    · obtain ⟨h₁, h₂, h₃⟩ := hquote.paramStr
      simp only [List.mem_append, List.mem_singleton, not_or]
      exact ⟨⟨h₁, Ne.symm hc⟩, ⟨h₂, Ne.symm hopen⟩, ⟨h₃, Ne.symm hclose⟩⟩
    · exact hquote.paramStr

theorem parseMethods_kept (hp : prizm.Documented) (lex : Bytes) :
    ∀ call ∈ (parseMethods prizm lex).1, ∀ arg ∈ call.2, Kept arg := by
  have hrun : ∀ (cs : Bytes) (s : MethodScan), (∀ c ∈ cs, c ≠ 125) → s.Clean →
      (cs.foldl (MethodScan.read prizm) s).Clean := by
    intro cs
    induction cs with
    | nil => exact fun s _ h => h
    | cons c cs ih =>
      intro s hcs h
      obtain ⟨hc, hcs⟩ := List.forall_mem_cons.mp hcs
      exact ih _ hcs (h.read hp hc)
  unfold parseMethods
  dsimp only
  split_ifs
  · refine ((hrun _ {} (fun c hc => ?_) ⟨?_, ?_⟩).flush hp).calls
    · have hnot := List.mem_rtakeWhile_imp (List.mem_of_mem_dropLast hc)
      exact of_decide_eq_true hnot
    · exact ⟨List.not_mem_nil, List.not_mem_nil, List.not_mem_nil⟩
    · exact fun call hcall => absurd hcall List.not_mem_nil
  · exact fun call hcall => absurd hcall List.not_mem_nil

/-! A chain without such marks is read back. -/

/-- A character that is no mark, in a literal or outside of one. -/
def Unmarked (literal : Bool) (c : Byte) : Prop :=
  c ≠ 34 ∧ c ≠ 40 ∧ c ≠ 41 ∧ (literal = false → c ≠ 46 ∧ c ≠ 58)

theorem read_unmarked {s : MethodScan} {c : Byte} (h : Unmarked s.literal c) :
    s.read prizm c =
      { s with
        nameStr := if s.name then s.nameStr ++ [c] else s.nameStr
        paramStr := if s.params then s.paramStr ++ [c] else s.paramStr } := by
  obtain ⟨hquote, hopen, hclose, hout⟩ := h
  have hdot : ¬ (c = 46 ∧ s.literal = false) := fun hc => (hout hc.2).1 hc.1
  have hcolon : (decide (c = 58) && !s.literal) = false := by
    cases hl : s.literal with
    | false => simp [(hout hl).2]
    | true => simp
  unfold MethodScan.read
  rw [if_neg hdot, if_neg hquote]
  dsimp only
  rw [if_neg hopen, if_neg hclose, hcolon, Bool.or_false]

/-- Characters that are no marks go to the name and to the arguments. -/
theorem read_plain {s : MethodScan} {cs : Bytes} (h : ∀ c ∈ cs, Unmarked s.literal c) :
    cs.foldl (MethodScan.read prizm) s =
      { s with
        nameStr := if s.name then s.nameStr ++ cs else s.nameStr
        paramStr := if s.params then s.paramStr ++ cs else s.paramStr } := by
  induction cs generalizing s with
  | nil => simp
  | cons c cs ih =>
    obtain ⟨hc, hcs⟩ := List.forall_mem_cons.mp h
    rw [List.foldl_cons, read_unmarked hc]
    refine Eq.trans (ih ?_) ?_
    · exact hcs
    · cases s.name <;> cases s.params <;> simp

theorem not_mark_of_identifierChar {c : Byte} (h : identifierChar c = true) :
    c ≠ 34 ∧ c ≠ 40 ∧ c ≠ 41 ∧ c ≠ 46 ∧ c ≠ 58 ∧ c ≠ 125 := by
  refine ⟨?_, ?_, ?_, ?_, ?_, ?_⟩ <;>
  · rintro rfl
    revert h
    decide

theorem Method.name_chars (m : Method) : ∀ c ∈ m.name, identifierChar c = true := by
  have h := m.identifier
  rw [isIdentifier, Bool.and_eq_true] at h
  exact List.all_eq_true.mp h.2

theorem Method.name_ne (m : Method) : m.name ≠ [] := by
  intro h
  have hid := m.identifier
  rw [h] at hid
  cases hid

/-- A state between the brackets of a call. -/
structure MethodScan.InParams (s : MethodScan) : Prop where
  name : s.name = false
  params : s.params = true
  literal : s.literal = false

/-- There characters that are no marks are added to the arguments. -/
theorem read_params {s : MethodScan} (h : s.InParams) {cs : Bytes} (hcs : ∀ c ∈ cs, Unmarked false c) :
    cs.foldl (MethodScan.read prizm) s = { s with paramStr := s.paramStr ++ cs } := by
  rw [← h.literal] at hcs
  rw [read_plain hcs, h.name, h.params]
  simp

theorem read_quote {s : MethodScan} (hn : s.name = false) (hp : s.params = true) :
    s.read prizm 34 = { s with literal := !s.literal, paramStr := s.paramStr ++ [34] } := by
  unfold MethodScan.read
  rw [if_neg (fun h => absurd h.1 (by decide)), if_pos rfl]
  dsimp only
  rw [if_neg (by decide), if_neg (by decide), hn, if_pos hp]
  simp

/-- An argument is added as it stands. -/
theorem read_piece {s : MethodScan} (h : s.InParams) {p : Piece} (hp : Kept p.text) :
    p.text.foldl (MethodScan.read prizm) s = { s with paramStr := s.paramStr ++ p.text } := by
  cases p with
  | token text free =>
    obtain ⟨hdot, -, hcolon, hopen, hclose, hquote⟩ := free
    exact read_params h fun c hc =>
      ⟨fun heq => hquote (heq ▸ hc), fun heq => hopen (heq ▸ hc), fun heq => hclose (heq ▸ hc),
        fun _ => ⟨fun heq => hdot (heq ▸ hc), fun heq => hcolon (heq ▸ hc)⟩⟩
  | literal content free =>
    obtain ⟨-, -, hopen, hclose⟩ := hp
    let t : MethodScan := { s with literal := true, paramStr := s.paramStr ++ [34] }
    have hfirst : s.read prizm 34 = t := by
      rw [read_quote h.name h.params, h.literal]
      rfl
    have hplain : ∀ c ∈ content, Unmarked t.literal c := by
      intro c hc
      have hmem : c ∈ Piece.text (.literal content free) := List.mem_cons_of_mem _ (List.mem_append_left _ hc)
      exact ⟨fun heq => free.1 (heq ▸ hc), fun heq => hopen (heq ▸ hmem), fun heq => hclose (heq ▸ hmem),
        fun hl => absurd hl Bool.true_eq_false_eq_False⟩
    have hcontent : content.foldl (MethodScan.read prizm) t = { t with paramStr := t.paramStr ++ content } := by
      rw [read_plain hplain]
      simp [t, h.name, h.params]
    rw [Piece.text, List.foldl_cons, hfirst, List.foldl_append, hcontent, List.foldl_cons, List.foldl_nil, read_quote]
    · simp [t, h.literal]
    · exact h.name
    · exact h.params

/-- So are all of them, with the commas between them. -/
theorem read_pieces {s : MethodScan} (h : s.InParams) {ps : List Piece} (hps : ∀ p ∈ ps, Kept p.text) :
    ((lit ",").intercalate (ps.map Piece.text)).foldl (MethodScan.read prizm) s =
      { s with paramStr := s.paramStr ++ (lit ",").intercalate (ps.map Piece.text) } := by
  induction ps generalizing s with
  | nil => simp
  | cons p ps ih =>
    obtain ⟨hp, hps⟩ := List.forall_mem_cons.mp hps
    cases ps with
    | nil =>
      rw [List.map_singleton, List.intercalate_singleton]
      exact read_piece h hp
    | cons q ps =>
      let t : MethodScan := { s with paramStr := s.paramStr ++ p.text }
      have hcomma : (lit ",").foldl (MethodScan.read prizm) t = { t with paramStr := t.paramStr ++ lit "," } := by
        have ht : t.InParams := ⟨h.name, h.params, h.literal⟩
        refine read_params ht fun c hc => ?_
        obtain rfl := List.mem_singleton.mp hc
        exact ⟨by decide, by decide, by decide, fun _ => by decide⟩
      rw [List.map_cons, List.map_cons, List.intercalate_cons_cons, List.foldl_append, List.foldl_append,
        read_piece h hp, hcomma, ← List.map_cons, ih _ hps]
      · simp [t]
      · exact ⟨h.name, h.params, h.literal⟩

/-- A state between two calls; arguments without a name are there none. -/
structure MethodScan.Between (s : MethodScan) : Prop where
  params : s.params = false
  literal : s.literal = false
  paramStr : s.nameStr = [] → s.paramStr = []

/-- A call is kept until the next one, and the call before it is added to the calls. -/
theorem read_method {s : MethodScan} (h : s.Between) {m : Method} (hm : ∀ p ∈ m.args, Kept p.text) :
    m.text.foldl (MethodScan.read prizm) s =
      { s.flush prizm with
        name := false, nameStr := m.name, paramStr := (lit ",").intercalate (m.args.map Piece.text) } := by
  have hdot : s.read prizm 46 = { s.flush prizm with name := true } := if_pos ⟨rfl, h.literal⟩
  have hflush : (s.flush prizm).nameStr = [] ∧ (s.flush prizm).paramStr = [] ∧ (s.flush prizm).params = false ∧
      (s.flush prizm).literal = false := by
    unfold MethodScan.flush
    split_ifs with hname
    · exact ⟨hname, h.paramStr hname, h.params, h.literal⟩
    · exact ⟨rfl, rfl, h.params, h.literal⟩
  obtain ⟨hname, hparam, hparams, hliteral⟩ := hflush
  generalize s.flush prizm = t at hname hparam hparams hliteral hdot ⊢
  have hidentifier : m.name.foldl (MethodScan.read prizm) { t with name := true } =
      { t with name := true, nameStr := m.name } := by
    rw [read_plain]
    · simp [hname, hparams]
    · intro c hc
      obtain ⟨hquote, hopen, hclose, hdot, hcolon, -⟩ := not_mark_of_identifierChar (m.name_chars c hc)
      exact ⟨hquote, hopen, hclose, fun _ => ⟨hdot, hcolon⟩⟩
  let u : MethodScan := { t with name := false, params := true, nameStr := m.name }
  have hopen : MethodScan.read prizm { t with name := true, nameStr := m.name } 40 = u := rfl
  have hu : u.InParams := ⟨rfl, rfl, hliteral⟩
  have hargs : ((lit ",").intercalate (m.args.map Piece.text)).foldl (MethodScan.read prizm) u =
      { u with paramStr := u.paramStr ++ (lit ",").intercalate (m.args.map Piece.text) } := read_pieces hu hm
  have hclose (v : MethodScan) : v.read prizm 41 = { v with name := false, params := false } := rfl
  calc m.text.foldl (MethodScan.read prizm) s
      = (lit ")").foldl (MethodScan.read prizm)
          (((lit ",").intercalate (m.args.map Piece.text)).foldl (MethodScan.read prizm)
            ((m.name.foldl (MethodScan.read prizm) (s.read prizm 46)).read prizm 40)) := by
        rw [Method.text, List.foldl_append, List.foldl_append, List.foldl_append, List.foldl_append]
        rfl
    _ = MethodScan.read prizm
          { u with paramStr := u.paramStr ++ (lit ",").intercalate (m.args.map Piece.text) } 41 := by
        rw [hdot, hidentifier, hopen, hargs]
        rfl
    _ = _ := by
        rw [hclose]
        simp [u, hparam, hparams]

theorem flush_methodCalls (hp : prizm.Documented) {s : MethodScan} {m : Method} (hname : s.nameStr = m.name)
    (hparam : s.paramStr = (lit ",").intercalate (m.args.map Piece.text)) (hm : ∀ p ∈ m.args, Kept p.text) :
    (s.flush prizm).methodCalls = s.methodCalls ++ [m.call] := by
  have hcomma : ∀ l ∈ m.args.map Piece.text, (44 : Byte) ∉ l := by
    intro l hl
    obtain ⟨p, -, rfl⟩ := List.mem_map.mp hl
    cases p with
    | token text free => exact free.2.1
    | literal content free =>
      intro h
      simp only [Piece.text, List.mem_cons, List.mem_append, List.not_mem_nil, or_false] at h
      rcases h with h | h | h
      · revert h
        decide
      · exact free.2 h
      · revert h
        decide
  have hne : m.args.map Piece.text ≠ [] := fun h => m.args_ne (List.map_eq_nil_iff.mp h)
  have hall : (m.args.map Piece.text).filter (· ≠ []) = m.args.map Piece.text := by
    apply List.filter_eq_self.mpr
    intro l hl
    obtain ⟨p, hmem, rfl⟩ := List.mem_map.mp hl
    exact decide_eq_true (hm p hmem).1
  have hsplit : ((lit ",").intercalate (m.args.map Piece.text)).splitOn 44 = m.args.map Piece.text :=
    List.splitOn_intercalate 44 hcomma hne
  unfold MethodScan.flush
  rw [if_neg (hname ▸ m.name_ne), hparam, hp.tokenize_eq, hsplit, hall, hname]
  rfl

/-- A chain adds its calls in order. -/
theorem read_chain (hp : prizm.Documented) {s : MethodScan} (h : s.Between) {ms : List Method}
    (hms : ∀ m ∈ ms, ∀ p ∈ m.args, Kept p.text) :
    (((ms.flatMap Method.text).foldl (MethodScan.read prizm) s).flush prizm).methodCalls =
      (s.flush prizm).methodCalls ++ ms.map Method.call := by
  induction ms generalizing s with
  | nil => exact (List.append_nil _).symm
  | cons m ms ih =>
    obtain ⟨hm, hms⟩ := List.forall_mem_cons.mp hms
    rw [List.flatMap_cons, List.foldl_append, read_method h hm, ih _ hms, flush_methodCalls hp rfl rfl hm,
      List.append_assoc]
    · rfl
    · refine ⟨?_, ?_, fun hname => absurd hname m.name_ne⟩
      · unfold MethodScan.flush
        split_ifs <;> exact h.params
      · unfold MethodScan.flush
        split_ifs <;> exact h.literal

theorem notMem_intercalate {a : Byte} {sep : Bytes} {ls : List Bytes} (hsep : a ∉ sep) (h : ∀ l ∈ ls, a ∉ l) :
    a ∉ sep.intercalate ls := by
  induction ls with
  | nil => exact List.not_mem_nil
  | cons l ls ih =>
    obtain ⟨hl, hls⟩ := List.forall_mem_cons.mp h
    cases ls with
    | nil =>
      rw [List.intercalate_singleton]
      exact hl
    | cons l' ls =>
      rw [List.intercalate_cons_cons]
      intro hmem
      rcases List.mem_append.mp hmem with hmem | hmem
      · exact (List.mem_append.mp hmem).elim hl hsep
      · exact ih hls hmem

theorem brace_notMem_method {m : Method} (hm : ∀ p ∈ m.args, Kept p.text) : (125 : Byte) ∉ m.text := by
  have hargs : (125 : Byte) ∉ (lit ",").intercalate (m.args.map Piece.text) := by
    refine notMem_intercalate (by decide) fun l hl => ?_
    obtain ⟨p, hmem, rfl⟩ := List.mem_map.mp hl
    exact (hm p hmem).2.1
  have hname : (125 : Byte) ∉ m.name := fun h =>
    (not_mark_of_identifierChar (m.name_chars _ h)).2.2.2.2.2 rfl
  have hmarks : (125 : Byte) ∉ lit "." ∧ (125 : Byte) ∉ lit "(" ∧ (125 : Byte) ∉ lit ")" := by decide
  simp only [Method.text, List.mem_append, not_or]
  exact ⟨hmarks.1, hname, hmarks.2.1, hargs, hmarks.2.2⟩

/-- The methods of a chain start behind its brace if no argument has one. -/
theorem rtakeWhile_chain {ms : List Method} (hms : ∀ m ∈ ms, ∀ p ∈ m.args, Kept p.text) :
    (chain ms).rtakeWhile (· ≠ 125) = ms.flatMap Method.text ++ lit "$" := by
  have hrest : ∀ c ∈ (ms.flatMap Method.text ++ lit "$").reverse, decide (c ≠ 125) = true := by
    intro c hc
    apply decide_eq_true
    rintro rfl
    rcases List.mem_append.mp (List.mem_reverse.mp hc) with hc | hc
    · obtain ⟨m, hm, hc⟩ := List.mem_flatMap.mp hc
      exact brace_notMem_method (hms m hm) hc
    · revert hc
      decide
  rw [List.rtakeWhile, chain, List.append_assoc, List.reverse_append, List.takeWhile_append_of_pos hrest]
  have hbrace : (lit "\x7d").reverse.takeWhile (· ≠ 125) = [] := rfl
  rw [hbrace, List.append_nil, List.reverse_reverse]

/-- A chain of calls is read back exactly if no argument is empty and none has a closing brace or a parenthesis. -/
theorem parseMethods_chain_iff (hp : prizm.Documented) {ms : List Method} (hne : ms ≠ []) :
    (parseMethods prizm (chain ms)).1 = ms.map Method.call ↔ ∀ m ∈ ms, ∀ p ∈ m.args, Kept p.text := by
  constructor
  · intro h m hm p hmem
    have hcall : m.call ∈ (parseMethods prizm (chain ms)).1 := h ▸ List.mem_map_of_mem hm
    exact parseMethods_kept hp _ _ hcall _ (List.mem_map_of_mem hmem)
  · intro h
    have hhead : (ms.flatMap Method.text ++ lit "$").head? = some 46 := by
      obtain ⟨m, rest, rfl⟩ := List.exists_cons_of_ne_nil hne
      rfl
    unfold parseMethods
    dsimp only
    rw [rtakeWhile_chain h, if_pos hhead]
    have hdrop : (ms.flatMap Method.text ++ lit "$").dropLast = ms.flatMap Method.text := List.dropLast_concat
    rw [hdrop]
    exact read_chain hp ⟨rfl, rfl, fun _ => rfl⟩ h

theorem parseMethods_chain_render :
    (parseMethods Prizm.reference (chain [⟨lit "render", [.literal (lit "a.b") (by decide)], by decide, by simp⟩])).1 =
      [(lit "render", [lit "\"a.b\""])] :=
  (parseMethods_chain_iff Prizm.reference_documented (List.cons_ne_nil _ _)).mpr (by decide)

/-- The parentheses of a literal are lost. -/
theorem parseMethods_parenthesis :
    (parseMethods Prizm.reference (chain [⟨lit "a", [.literal (lit "f(x)") (by decide)], by decide, by simp⟩])).1 ≠
      [Method.call ⟨lit "a", [.literal (lit "f(x)") (by decide)], by decide, by simp⟩] := by
  decide

end Jericho.Iris
