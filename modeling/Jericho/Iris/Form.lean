import Jericho.Iris.Interpret
import Jericho.Library.JsonTree

/-! `iris::parseForm`: a form directive is read into an action and the text of a JSON object. -/
namespace Jericho.Iris
open StdText Util JsonTree

/-- What `parseForm` has read. `escaped` tells whether the quotes so far are odd in number. -/
structure FormScan where
  escaped : Bool := false
  brackets : Int := 0
  initBracket : Bool := true
  sqbracket : Bool := false
  action : Bool := false
  actionStr : Bytes := []
  json : Bytes := []

namespace FormScan

/-- The square brackets of the head, or of the object behind it. -/
def square (s : FormScan) (c : Byte) : FormScan :=
  if c = 91 then
    if s.initBracket then { s with sqbracket := true } else { s with json := s.json ++ [c] }
  else if c = 93 then
    if s.initBracket then { s with sqbracket := false, initBracket := false, action := false }
    else { s with json := s.json ++ [c] }
  else s

/-- `brackets++` or `brackets--`, in an `int`. -/
def count (s : FormScan) (step : Int) (c : Byte) : Exec FormScan :=
  if inInt (s.brackets + step) then .ok { s with brackets := s.brackets + step, json := s.json ++ [c] }
  else .error .undefined

/-- The end of the loop body. -/
def keep (s : FormScan) (c : Byte) : FormScan :=
  { s with
    actionStr := if s.action then s.actionStr ++ [c] else s.actionStr
    json := if s.brackets ≠ 0 then s.json ++ [c] else s.json }

/-- One character, and whether the loop is left behind it. Square brackets and an equals sign of the object are
added to its text twice: at their branch and at the end of the body. -/
def read (s : FormScan) (c : Byte) : Exec (FormScan × Bool) :=
  let s := s.square c
  if c = 61 ∧ s.sqbracket then .ok ({ s with action := true }, false)
  else
    let s := if c = 61 then { s with json := s.json ++ [c] } else s
    if c = 34 then .ok ({ s with json := s.json ++ [c], escaped := !s.escaped }, false)
    else if c = 123 ∧ s.escaped = false then (s.count 1 c).map fun s => (s, false)
    else if c = 125 ∧ s.escaped = false then (s.count (-1) c).map fun s => (s, s.brackets = 0)
    else .ok (s.keep c, false)

def run : FormScan → Bytes → Exec FormScan
  | s, [] => .ok s
  | s, c :: cs => do
    let (s, stop) ← s.read c
    if stop then return s else run s cs

end FormScan

/-- The parameters that a form is given. -/
inductive FormParam where
  | textfield
  | password
  | submit

def parseFormParams (param : FormParam) (val : Json Bytes) : Exec Bytes :=
  match val with
  | .object o =>
    let input := match param with
      | .textfield => lit "\t<input type='textfield'"
      | .password => lit "\t<input type='password'"
      | .submit => lit "\t<input type='submit'"
    .ok (input ++ o.flatMap (fun it => lit " " ++ it.1 ++ lit "='" ++ it.2.text?.getD [] ++ lit "'") ++ lit " />\n")
  | _ => .error .runtimeError

/-- The input for a field of the object. -/
def formInput (it : Bytes × Json Bytes) : Exec Bytes :=
  if it.1 = lit "textfield" then parseFormParams .textfield it.2
  else if it.1 = lit "password" then parseFormParams .password it.2
  else if it.1 = lit "submit" then parseFormParams .submit it.2
  else .ok []

/-- `parseForm`, for a parser that accepts the texts of objects. -/
def parseForm (parseJson : Bytes → Option (List (Bytes × Json Bytes))) (lex : Lex) : Exec Bytes := do
  let s ← FormScan.run {} lex.first
  match parseJson (cstr s.json) with
  | none => return lit "undefined"
  | some o =>
    let inputs ← o.mapM formInput
    return lit "<form action='" ++ s.actionStr ++ lit "' method='POST'>\n" ++ inputs.flatten ++
      lit "\t<input type='hidden' csrf-token='dfsdkfhj4jh3489sdyhksdf' />\n" ++ lit "</form>\n"

/-- A form directive with an action and an object. -/
def formDirective (action object : Bytes) : Bytes := lit "$[iform=" ++ (action ++ 93 :: (object ++ lit "$\r\n"))

/-- The action is what the form is given, and the object is what the parser is given. -/
def FormRead (action object : Bytes) : Prop :=
  ∃ s, FormScan.run {} (formDirective action object) = .ok s ∧ s.actionStr = action ∧ cstr s.json = object

/-- The braces of a text, counted outside of its quotes from some depth on, close at its end and not before. -/
def closes : Nat → Bool → Bytes → Bool
  | _, _, [] => false
  | depth, escaped, c :: cs =>
    if c = 34 then closes depth (!escaped) cs
    else if c = 123 ∧ escaped = false then decide (depth + 1 < 2 ^ 31) && closes (depth + 1) escaped cs
    else if c = 125 ∧ escaped = false then if depth = 1 then cs = [] else closes (depth - 1) escaped cs
    else closes depth escaped cs

/-- What is added to the text of the object for a character of it. -/
def doubled (c : Byte) : Bytes := if c = 91 ∨ c = 93 ∨ c = 61 then [c, c] else [c]

namespace FormScan

/-- Behind the head the action is no longer read. -/
structure Body (s : FormScan) : Prop where
  initBracket : s.initBracket = false
  sqbracket : s.sqbracket = false
  action : s.action = false

theorem square_of_ne {s : FormScan} {c : Byte} (hopen : c ≠ 91) (hclose : c ≠ 93) : s.square c = s := by
  unfold square
  rw [if_neg hopen, if_neg hclose]

theorem read_quote (s : FormScan) :
    s.read 34 = .ok ({ s with json := s.json ++ [34], escaped := !s.escaped }, false) := by
  unfold read
  rw [square_of_ne (by decide) (by decide)]
  rfl

theorem read_open {s : FormScan} (hout : s.escaped = false) :
    s.read 123 = (s.count 1 123).map fun s => (s, false) := by
  unfold read
  rw [square_of_ne (by decide) (by decide)]
  simp [hout]

theorem read_close {s : FormScan} (hout : s.escaped = false) :
    s.read 125 = (s.count (-1) 125).map fun s => (s, decide (s.brackets = 0)) := by
  unfold read
  rw [square_of_ne (by decide) (by decide)]
  simp [hout]

section Object
variable {s : FormScan} (h : s.Body)

include h

/-- Any other character of an object is added to its text, some of them twice. -/
theorem read_other {c : Byte} (hquote : c ≠ 34) (hopen : ¬ (c = 123 ∧ s.escaped = false))
    (hclose : ¬ (c = 125 ∧ s.escaped = false)) (hbrackets : s.brackets ≠ 0) :
    s.read c = .ok ({ s with json := s.json ++ doubled c }, false) := by
  obtain ⟨hinit, hsq, haction⟩ := h
  by_cases hmark : c = 91 ∨ c = 93 ∨ c = 61
  · rw [doubled, if_pos hmark]
    rcases hmark with rfl | rfl | rfl
    all_goals simp [read, square, keep, hinit, hsq, haction, hbrackets]
  · rw [doubled, if_neg hmark]
    obtain ⟨h91, h93, h61⟩ : c ≠ 91 ∧ c ≠ 93 ∧ c ≠ 61 := by
      rw [not_or, not_or] at hmark
      exact hmark
    unfold read
    rw [square_of_ne h91 h93]
    dsimp only
    rw [if_neg (fun hc => h61 hc.1), if_neg h61, if_neg hquote, if_neg hopen, if_neg hclose, keep, haction,
      if_pos hbrackets]
    rfl

/-- One character of an object, inside its braces. -/
theorem read_body {depth : Nat} (hdepth : s.brackets = depth) (hpos : 0 < depth) (hfits : depth < 2 ^ 31) (c : Byte) :
    s.read c =
      if c = 34 then .ok ({ s with json := s.json ++ doubled c, escaped := !s.escaped }, false)
      else if c = 123 ∧ s.escaped = false then
        if depth + 1 < 2 ^ 31 then
          .ok ({ s with json := s.json ++ doubled c, brackets := (depth + 1 : ℕ) }, false)
        else .error .undefined
      else if c = 125 ∧ s.escaped = false then
        .ok ({ s with json := s.json ++ doubled c, brackets := (depth - 1 : ℕ) }, decide (depth = 1))
      else .ok ({ s with json := s.json ++ doubled c }, false) := by
  split_ifs with hquote hopen hmore hclose
  · subst hquote
    exact read_quote s
  · obtain ⟨rfl, hout⟩ := hopen
    have hcount : s.count 1 123 = .ok { s with brackets := s.brackets + 1, json := s.json ++ [123] } :=
      if_pos ⟨by omega, by omega⟩
    rw [read_open hout, hcount, hdepth]
    rfl
  · obtain ⟨rfl, hout⟩ := hopen
    have hcount : s.count 1 123 = .error .undefined := if_neg fun hin => by
      unfold inInt at hin
      omega
    rw [read_open hout, hcount]
    rfl
  · obtain ⟨rfl, hout⟩ := hclose
    have hcount : s.count (-1) 125 = .ok { s with brackets := s.brackets + -1, json := s.json ++ [125] } :=
      if_pos ⟨by omega, by omega⟩
    have hless : s.brackets + -1 = (depth - 1 : ℕ) := by omega
    have hzero : (((depth - 1 : ℕ) : Int) = 0) ↔ depth = 1 := by omega
    rw [read_close hout, hcount, hless]
    simp only [Except.map, hzero]
    rfl
  · exact read_other h hquote hopen hclose (by omega)

end Object

/-- A text whose braces close is read up to its end. -/
theorem run_closes {s : FormScan} (h : s.Body) {depth : Nat} (hdepth : s.brackets = depth) (hpos : 0 < depth)
    (hfits : depth < 2 ^ 31) {text : Bytes} (hcloses : closes depth s.escaped text = true) (rest : Bytes) :
    ∃ s', s.run (text ++ rest) = .ok s' ∧ s'.json = s.json ++ text.flatMap doubled ∧ s'.actionStr = s.actionStr := by
  induction text generalizing s depth with
  | nil => cases hcloses
  | cons c text ih =>
    rw [List.cons_append, List.flatMap_cons, ← List.append_assoc, run, read_body h hdepth hpos hfits]
    unfold closes at hcloses
    split_ifs at hcloses ⊢ with hquote hopen hmore hclose hone
    · exact ih ⟨h.initBracket, h.sqbracket, h.action⟩ hdepth hpos hfits hcloses
    · rw [Bool.and_eq_true] at hcloses
      exact ih ⟨h.initBracket, h.sqbracket, h.action⟩ rfl (Nat.succ_pos depth) hmore hcloses.2
    · rw [Bool.and_eq_true, decide_eq_true_iff] at hcloses
      exact absurd hcloses.1 hmore
    · obtain rfl : text = [] := of_decide_eq_true hcloses
      rw [decide_eq_true hone]
      refine ⟨_, rfl, ?_, rfl⟩
      exact (List.append_nil _).symm
    · rw [decide_eq_false hone]
      exact ih ⟨h.initBracket, h.sqbracket, h.action⟩ rfl (by omega) (by omega) hcloses
    · exact ih ⟨h.initBracket, h.sqbracket, h.action⟩ hdepth hpos hfits hcloses

theorem run_go {s t : FormScan} {c : Byte} (h : s.read c = .ok (t, false)) (cs : Bytes) :
    s.run (c :: cs) = t.run cs := by
  rw [run, h]
  rfl

theorem run_stop {s t : FormScan} {c : Byte} (h : s.read c = .ok (t, true)) (cs : Bytes) :
    s.run (c :: cs) = .ok t := by
  rw [run, h]
  rfl

/-- What is read of a text: as much as it takes to close the braces, or all of it. -/
theorem run_consumed {s s' : FormScan} {text : Bytes} (hrun : s.run text = .ok s') (h : s.Body) {depth : Nat}
    (hdepth : s.brackets = depth) (hpos : 0 < depth) (hfits : depth < 2 ^ 31) :
    ∃ consumed, consumed <+: text ∧ s'.json = s.json ++ consumed.flatMap doubled ∧
      (closes depth s.escaped consumed = true ∨ consumed = text) := by
  induction text generalizing s depth with
  | nil =>
    obtain rfl := Except.ok.inj hrun
    exact ⟨[], List.prefix_rfl, (List.append_nil _).symm, .inr rfl⟩
  | cons c text ih =>
    -- What the rest consumes, with the character in front.
    have hcons {t : FormScan} {d : Nat} (hjson : t.json = s.json ++ doubled c)
        (hnext : ∃ consumed, consumed <+: text ∧ s'.json = t.json ++ consumed.flatMap doubled ∧
          (closes d t.escaped consumed = true ∨ consumed = text))
        (hstep : ∀ consumed, closes d t.escaped consumed = true → closes depth s.escaped (c :: consumed) = true) :
        ∃ consumed, consumed <+: c :: text ∧ s'.json = s.json ++ consumed.flatMap doubled ∧
          (closes depth s.escaped consumed = true ∨ consumed = c :: text) := by
      obtain ⟨consumed, hstart, hjson', hend⟩ := hnext
      refine ⟨c :: consumed, List.cons_prefix_cons.mpr ⟨rfl, hstart⟩, ?_, ?_⟩
      · rw [hjson', hjson, List.flatMap_cons, List.append_assoc]
      · exact hend.imp (hstep consumed) (congrArg (c :: ·))
    have hread := read_body h hdepth hpos hfits c
    split_ifs at hread with hquote hopen hmore hclose
    · rw [run_go hread] at hrun
      refine hcons ?_ (ih hrun ⟨h.initBracket, h.sqbracket, h.action⟩ hdepth hpos hfits) fun consumed hc => ?_
      · rfl
      · rw [closes, if_pos hquote]
        exact hc
    · rw [run_go hread] at hrun
      have hnext := ih hrun ⟨h.initBracket, h.sqbracket, h.action⟩ rfl (Nat.succ_pos depth) hmore
      refine hcons ?_ hnext fun consumed hc => ?_
      · rfl
      · rw [closes, if_neg hquote, if_pos hopen, decide_eq_true hmore]
        exact hc
    · rw [run, hread] at hrun
      cases hrun
    · by_cases hone : depth = 1
      · rw [decide_eq_true hone] at hread
        rw [run_stop hread] at hrun
        obtain rfl := Except.ok.inj hrun
        refine ⟨[c], List.cons_prefix_cons.mpr ⟨rfl, List.nil_prefix⟩, ?_, .inl ?_⟩
        · rw [List.flatMap_singleton]
        · rw [closes, if_neg hquote, if_neg hopen, if_pos hclose, if_pos hone]
          rfl
      · rw [decide_eq_false hone] at hread
        rw [run_go hread] at hrun
        have hnext := ih hrun ⟨h.initBracket, h.sqbracket, h.action⟩ rfl (by omega) (by omega)
        refine hcons ?_ hnext fun consumed hc => ?_
        · rfl
        · rw [closes, if_neg hquote, if_neg hopen, if_pos hclose, if_neg hone]
          exact hc
    · rw [run_go hread] at hrun
      refine hcons ?_ (ih hrun ⟨h.initBracket, h.sqbracket, h.action⟩ hdepth hpos hfits) fun consumed hc => ?_
      · rfl
      · rw [closes, if_neg hquote, if_neg hopen, if_neg hclose]
        exact hc

/-- In the head, where the action is read. -/
structure Head (s : FormScan) : Prop where
  initBracket : s.initBracket = true
  sqbracket : s.action = true → s.sqbracket = true
  escaped : s.escaped = false

/-- The characters that the action loses. -/
def Free (text : Bytes) : Prop := (61 : Byte) ∉ text ∧ (123 : Byte) ∉ text ∧ (125 : Byte) ∉ text

theorem Free.append {text : Bytes} (h : Free text) {c : Byte} (hequals : c ≠ 61) (hopen : c ≠ 123) (hclose : c ≠ 125) :
    Free (text ++ [c]) := by
  obtain ⟨h₁, h₂, h₃⟩ := h
  simp only [Free, List.mem_append, List.mem_singleton, not_or]
  exact ⟨⟨h₁, hequals.symm⟩, ⟨h₂, hopen.symm⟩, ⟨h₃, hclose.symm⟩⟩

theorem count_eq_ok {s t : FormScan} {step : Int} {c : Byte} (h : s.count step c = .ok t) :
    t = { s with brackets := s.brackets + step, json := s.json ++ [c] } := by
  unfold count at h
  split_ifs at h
  exact (Except.ok.inj h).symm

@[simp]
theorem square_actionStr (s : FormScan) (c : Byte) : (s.square c).actionStr = s.actionStr := by
  unfold square
  split_ifs <;> rfl

@[simp]
theorem square_escaped (s : FormScan) (c : Byte) : (s.square c).escaped = s.escaped := by
  unfold square
  split_ifs <;> rfl

theorem Body.square {s : FormScan} (h : s.Body) (c : Byte) : (s.square c).Body := by
  have hno : ¬ s.initBracket = true := by simp [h.initBracket]
  unfold FormScan.square
  split_ifs
  · exact ⟨h.initBracket, h.sqbracket, h.action⟩
  · exact ⟨h.initBracket, h.sqbracket, h.action⟩
  · exact h

/-- The head ends at its closing bracket. -/
theorem Head.square_close {s : FormScan} (h : s.Head) : (s.square 93).Body := by
  have hsquare : s.square 93 = { s with sqbracket := false, initBracket := false, action := false } := by
    simp [FormScan.square, h.initBracket]
  rw [hsquare]
  exact ⟨rfl, rfl, rfl⟩

theorem Head.square {s : FormScan} (h : s.Head) {c : Byte} (hc : c ≠ 93) : (s.square c).Head := by
  have hinit := h.initBracket
  unfold FormScan.square
  split_ifs
  · exact ⟨h.initBracket, fun _ => rfl, h.escaped⟩
  · exact h

/-- What a character does to the flags and to the action. -/
theorem read_cases {s t : FormScan} {c : Byte} {stop : Bool} (h : s.read c = .ok (t, stop)) :
    (c = 61 ∧ (s.square c).sqbracket = true ∧ t = { s.square c with action := true }) ∨
      (¬ (c = 61 ∧ (s.square c).sqbracket = true) ∧ t.initBracket = (s.square c).initBracket ∧
        t.sqbracket = (s.square c).sqbracket ∧ t.action = (s.square c).action ∧ (c ≠ 34 → t.escaped = s.escaped) ∧
        (t.actionStr = s.actionStr ∨
          (s.square c).action = true ∧ t.actionStr = s.actionStr ++ [c] ∧ ¬ (c = 123 ∧ s.escaped = false) ∧
            ¬ (c = 125 ∧ s.escaped = false))) := by
  unfold read at h
  dsimp only at h
  by_cases hequals : c = 61 ∧ (s.square c).sqbracket = true
  · rw [if_pos hequals] at h
    exact .inl ⟨hequals.1, hequals.2, (Prod.mk.inj (Except.ok.inj h)).1.symm⟩
  rw [if_neg hequals] at h
  refine .inr ⟨hequals, ?_⟩
  have hpass : ∃ json, (if c = 61 then { s.square c with json := (s.square c).json ++ [c] } else s.square c) =
      { s.square c with json := json } := by
    split_ifs
    · exact ⟨_, rfl⟩
    · exact ⟨_, rfl⟩
  obtain ⟨json, hpass⟩ := hpass
  rw [hpass] at h
  split_ifs at h with hquote hopen hclose
  · rw [← (Prod.mk.inj (Except.ok.inj h)).1]
    exact ⟨rfl, rfl, rfl, fun hne => absurd hquote hne, .inl (square_actionStr s c)⟩
  · obtain ⟨u, hcount, hu⟩ := map_eq_ok.mp h
    rw [← (Prod.mk.inj hu).1, count_eq_ok hcount]
    exact ⟨rfl, rfl, rfl, fun _ => square_escaped s c, .inl (square_actionStr s c)⟩
  · obtain ⟨u, hcount, hu⟩ := map_eq_ok.mp h
    rw [← (Prod.mk.inj hu).1, count_eq_ok hcount]
    exact ⟨rfl, rfl, rfl, fun _ => square_escaped s c, .inl (square_actionStr s c)⟩
  · rw [← (Prod.mk.inj (Except.ok.inj h)).1]
    rw [square_escaped] at hopen hclose
    refine ⟨rfl, rfl, rfl, fun _ => square_escaped s c, ?_⟩
    unfold keep
    dsimp only
    split_ifs with haction
    · exact .inr ⟨haction, by rw [square_actionStr], hopen, hclose⟩
    · exact .inl (square_actionStr s c)

/-- Behind the head nothing is added to the action. -/
theorem read_actionStr {s t : FormScan} {c : Byte} {stop : Bool} (h : (s.square c).Body)
    (hread : s.read c = .ok (t, stop)) : t.Body ∧ t.actionStr = s.actionStr := by
  obtain ⟨hinit, hsq, haction⟩ := h
  rcases read_cases hread with ⟨-, hopen, -⟩ | ⟨-, hti, htsq, hta, -, hstr⟩
  · rw [hsq] at hopen
    cases hopen
  · refine ⟨⟨hti.trans hinit, htsq.trans hsq, hta.trans haction⟩, hstr.resolve_right fun hadd => ?_⟩
    rw [haction] at hadd
    exact Bool.false_ne_true hadd.1

theorem run_actionStr {s s' : FormScan} (h : s.Body) {text : Bytes} (hrun : s.run text = .ok s') :
    s'.actionStr = s.actionStr := by
  induction text generalizing s with
  | nil => rw [Except.ok.inj hrun]
  | cons c text ih =>
    obtain ⟨⟨t, stop⟩, hread, hrest⟩ := bind_eq_ok.mp hrun
    obtain ⟨hbody, hstr⟩ := read_actionStr (h.square c) hread
    cases stop with
    | true => rw [← Except.ok.inj hrest, hstr]
    | false => rw [ih hbody hrest, hstr]

/-- The action that is read has lost its equals signs and braces. -/
theorem run_free {s s' : FormScan} (h : s.Head) (hfree : Free s.actionStr) {text rest : Bytes}
    (hquote : (34 : Byte) ∉ text) (hclose : (93 : Byte) ∉ text) (hrun : s.run (text ++ 93 :: rest) = .ok s') :
    Free s'.actionStr := by
  induction text generalizing s with
  | nil =>
    obtain ⟨⟨t, stop⟩, hread, hrest⟩ := bind_eq_ok.mp hrun
    obtain ⟨hbody, hstr⟩ := read_actionStr h.square_close hread
    cases stop with
    | true =>
      rw [← Except.ok.inj hrest, hstr]
      exact hfree
    | false =>
      rw [run_actionStr hbody hrest, hstr]
      exact hfree
  | cons c text ih =>
    obtain ⟨hc34, hquote⟩ := not_or.mp (List.mem_cons.not.mp hquote)
    obtain ⟨hc93, hclose⟩ := not_or.mp (List.mem_cons.not.mp hclose)
    obtain ⟨⟨t, stop⟩, hread, hrest⟩ := bind_eq_ok.mp hrun
    have hu := h.square (Ne.symm hc93)
    have ht : t.Head ∧ Free t.actionStr := by
      rcases read_cases hread with ⟨-, hopen, rfl⟩ | ⟨hequals, hti, htsq, hta, htesc, hstr⟩
      · refine ⟨⟨hu.initBracket, fun _ => hopen, hu.escaped⟩, ?_⟩
        rw [show ({ s.square c with action := true } : FormScan).actionStr = s.actionStr from square_actionStr s c]
        exact hfree
      · refine ⟨⟨hti.trans hu.initBracket, ?_, (htesc (Ne.symm hc34)).trans h.escaped⟩, ?_⟩
        · rw [htsq, hta]
          exact hu.sqbracket
        · rcases hstr with hstr | ⟨haction, hstr, hopen, hbrace⟩
          · rw [hstr]
            exact hfree
          · rw [hstr]
            exact hfree.append (fun heq => hequals ⟨heq, hu.sqbracket haction⟩) (fun heq => hopen ⟨heq, h.escaped⟩)
              (fun heq => hbrace ⟨heq, h.escaped⟩)
    cases stop with
    | true =>
      rw [← Except.ok.inj hrest]
      exact ht.2
    | false => exact ih ht.1 ht.2 hquote hclose hrest

/-- Before any brace the characters of the action are kept. -/
theorem run_action {s : FormScan} (h : s.Head) (haction : s.action = true) (hbrackets : s.brackets = 0) {text : Bytes}
    (hfree : Free text) (hquote : (34 : Byte) ∉ text) (hclose : (93 : Byte) ∉ text) (rest : Bytes) :
    s.run (text ++ rest) = FormScan.run { s with actionStr := s.actionStr ++ text } rest := by
  induction text generalizing s with
  | nil => rw [List.nil_append, List.append_nil]
  | cons c text ih =>
    obtain ⟨hc34, hquote⟩ := not_or.mp (List.mem_cons.not.mp hquote)
    obtain ⟨hc93, hclose⟩ := not_or.mp (List.mem_cons.not.mp hclose)
    obtain ⟨hc61, hequals⟩ := not_or.mp (List.mem_cons.not.mp hfree.1)
    obtain ⟨hc123, hopen⟩ := not_or.mp (List.mem_cons.not.mp hfree.2.1)
    obtain ⟨hc125, hbrace⟩ := not_or.mp (List.mem_cons.not.mp hfree.2.2)
    have hsquare : s.square c = s := by
      have hsq := h.sqbracket haction
      have hinit := h.initBracket
      unfold square
      rw [if_neg (Ne.symm hc93)]
      split_ifs
      · rw [← hsq]
      · rfl
    have hread : s.read c = .ok ({ s with actionStr := s.actionStr ++ [c] }, false) := by
      unfold read
      rw [hsquare]
      dsimp only
      rw [if_neg (fun hc => hc61 hc.1.symm), if_neg (Ne.symm hc61), if_neg (Ne.symm hc34),
        if_neg (fun hc => hc123 hc.1.symm), if_neg (fun hc => hc125 hc.1.symm), keep, haction, hbrackets]
      simp
    have hnext : Head { s with actionStr := s.actionStr ++ [c] } := ⟨h.initBracket, h.sqbracket, h.escaped⟩
    rw [List.cons_append, run_go hread, ih hnext haction hbrackets ⟨hequals, hopen, hbrace⟩ hquote hclose,
      List.append_assoc]
    rfl

end FormScan

theorem closes_last {depth : Nat} {escaped : Bool} {text : Bytes} (h : closes depth escaped text = true) :
    ∃ init, text = init ++ [125] := by
  induction text generalizing depth escaped with
  | nil => cases h
  | cons c text ih =>
    have hcons {d : Nat} {e : Bool} (h : closes d e text = true) : ∃ init, c :: text = init ++ [125] := by
      obtain ⟨init, rfl⟩ := ih h
      exact ⟨c :: init, rfl⟩
    unfold closes at h
    split_ifs at h with hquote hopen hclose hone
    · exact hcons h
    · exact hcons (Bool.and_eq_true _ _ ▸ h).2
    · rw [hclose.1, of_decide_eq_true h]
      exact ⟨[], rfl⟩
    · exact hcons h
    · exact hcons h

/-- The characters that are added once. -/
def Single (c : Byte) : Prop := c ≠ 91 ∧ c ≠ 93 ∧ c ≠ 61

theorem doubled_single {c : Byte} (h : Single c) : doubled c = [c] := by
  refine if_neg ?_
  rintro (hc | hc | hc)
  · exact h.1 hc
  · exact h.2.1 hc
  · exact h.2.2 hc

theorem doubled_not_single {c : Byte} (h : ¬ Single c) : doubled c = [c, c] := by
  apply if_pos
  by_contra hno
  rw [not_or, not_or] at hno
  exact h hno

theorem flatMap_doubled {text : Bytes} (h : ∀ c ∈ text, Single c) : text.flatMap doubled = text := by
  induction text with
  | nil => rfl
  | cons c text ih =>
    obtain ⟨hc, htext⟩ := List.forall_mem_cons.mp h
    rw [List.flatMap_cons, doubled_single hc, ih htext]
    rfl

/-- Behind copies of a doubled character, a text that continues itself has nothing else. -/
theorem eq_of_prefix_replicate {c : Byte} (hc : ¬ Single c) {text : Bytes} {k : Nat}
    (h : text <+: List.replicate (k + 1) c ++ text.flatMap doubled) : ∀ x ∈ text, x = c := by
  induction text generalizing k with
  | nil => exact fun _ hx => absurd hx List.not_mem_nil
  | cons x text ih =>
    rw [List.replicate_succ, List.cons_append] at h
    obtain ⟨rfl, h⟩ := List.cons_prefix_cons.mp h
    rw [List.flatMap_cons, doubled_not_single hc, ← List.append_assoc] at h
    have hmore : List.replicate k x ++ [x, x] = List.replicate (k + 1 + 1) x := by
      rw [List.replicate_add, List.replicate_add, List.append_assoc]
      rfl
    rw [hmore] at h
    exact List.forall_mem_cons.mpr ⟨rfl, ih h⟩

/-- A text that ends with a single character and starts its own doubling has single characters only. -/
theorem single_of_prefix {text : Bytes} {last : Byte} (hlast : Single last)
    (h : text ++ [last] <+: (text ++ [last]).flatMap doubled) : ∀ c ∈ text, Single c := by
  induction text with
  | nil => exact fun _ hc => absurd hc List.not_mem_nil
  | cons c text ih =>
    rw [List.cons_append, List.flatMap_cons] at h
    by_cases hc : Single c
    · rw [doubled_single hc] at h
      exact List.forall_mem_cons.mpr ⟨hc, ih (List.cons_prefix_cons.mp h).2⟩
    · rw [doubled_not_single hc] at h
      have hrest : text ++ [last] <+: List.replicate (0 + 1) c ++ (text ++ [last]).flatMap doubled :=
        (List.cons_prefix_cons.mp h).2
      have heq := eq_of_prefix_replicate hc hrest last (List.mem_append_right _ (List.mem_singleton_self last))
      exact absurd (heq ▸ hlast) hc

theorem mem_doubled {c x : Byte} : x ∈ doubled c ↔ x = c := by
  unfold doubled
  split_ifs <;> simp

theorem length_le_doubled (text : Bytes) : text.length ≤ (text.flatMap doubled).length := by
  induction text with
  | nil => exact Nat.le_refl 0
  | cons c text ih =>
    have hone : 1 ≤ (doubled c).length := by
      unfold doubled
      split_ifs <;> simp
    rw [List.flatMap_cons, List.length_append, List.length_cons]
    omega

/-- A text that ends with a character which the rest does not have ends before the rest. -/
theorem prefix_of_last {init text rest : Bytes} {last : Byte} (h : init ++ [last] <+: text ++ rest)
    (hrest : last ∉ rest) : init ++ [last] <+: text := by
  rcases Nat.lt_or_ge text.length (init ++ [last]).length with hlt | hle
  · have hpre : text <+: init ++ [last] := List.prefix_of_prefix_length_le (List.prefix_append text rest) h (by omega)
    obtain ⟨more, hmore⟩ := hpre
    rw [← hmore] at h
    have hne : more ≠ [] := by
      rintro rfl
      rw [List.append_nil] at hmore
      rw [hmore] at hlt
      exact lt_irrefl _ hlt
    have hlast : more.getLast hne = last := by
      have hget := congrArg List.getLast? hmore
      rw [List.getLast?_append_of_ne_nil _ hne, List.getLast?_concat, List.getLast?_eq_some_getLast hne] at hget
      exact Option.some.inj hget
    have hsub : more <+: rest := (List.prefix_append_right_inj text).mp h
    exact absurd (hsub.subset (List.getLast_mem hne)) (hlast ▸ hrest)
  · exact List.prefix_of_prefix_length_le h (List.prefix_append text rest) hle

/-- Behind the first brace of the object. -/
def FormScan.inObject (action : Bytes) : FormScan :=
  { brackets := 1, initBracket := false, actionStr := action, json := [123] }

theorem run_directive {action : Bytes} (hfree : FormScan.Free action) (hquote : (34 : Byte) ∉ action)
    (hclose : (93 : Byte) ∉ action) (object : Bytes) :
    FormScan.run {} (formDirective action (123 :: object)) =
      FormScan.run (FormScan.inObject action) (object ++ lit "$\r\n") := by
  let s : FormScan := { sqbracket := true, action := true }
  have hhead (rest : Bytes) : FormScan.run {} (lit "$[iform=" ++ rest) = s.run rest := rfl
  have hs : s.Head := ⟨rfl, fun _ => rfl, rfl⟩
  rw [formDirective, hhead, FormScan.run_action hs rfl rfl hfree hquote hclose]
  have hbracket : FormScan.read { s with actionStr := s.actionStr ++ action } 93 =
      .ok ({ initBracket := false, actionStr := action }, false) := rfl
  have hbrace : FormScan.read { initBracket := false, actionStr := action } 123 =
      .ok (FormScan.inObject action, false) := rfl
  rw [FormScan.run_go hbracket, List.cons_append, FormScan.run_go hbrace]

/-- An object that closes where it is taken to end has only characters that are added once. -/
theorem single_of_closes {rest consumed : Bytes} (hclosed : closes 1 false consumed = true)
    (hstart : consumed <+: rest ++ lit "$\r\n") (hrest : rest <+: consumed.flatMap doubled) :
    rest = consumed ∧ ∀ c ∈ consumed, Single c := by
  obtain ⟨init, rfl⟩ := closes_last hclosed
  -- The end of the directive has no brace.
  have hin : init ++ [125] <+: rest := prefix_of_last hstart (by decide)
  have hlast : Single 125 := ⟨by decide, by decide, by decide⟩
  have hsingle : ∀ c ∈ init ++ [125], Single c := by
    intro c hc
    rcases List.mem_append.mp hc with hc | hc
    · exact single_of_prefix hlast (hin.trans hrest) c hc
    · rw [List.mem_singleton.mp hc]
      exact hlast
  rw [flatMap_doubled hsingle] at hrest
  exact ⟨hrest.eq_of_length (Nat.le_antisymm hrest.length_le hin.length_le), hsingle⟩

/-- If all of a directive is read, that is more than the object. -/
theorem cstr_all_ne {rest json : Bytes} (hjson : json = 123 :: (rest ++ lit "$\r\n").flatMap doubled)
    (hzero : (0 : Byte) ∉ 123 :: rest) : cstr json ≠ 123 :: rest := by
  have hno : (0 : Byte) ∉ json := by
    obtain ⟨hbrace, hrest⟩ := not_or.mp (List.mem_cons.not.mp hzero)
    rw [hjson]
    refine List.not_mem_cons_of_ne_of_not_mem hbrace fun hmem => ?_
    obtain ⟨c, hc, hmem⟩ := List.mem_flatMap.mp hmem
    rw [mem_doubled] at hmem
    have hend : (0 : Byte) ∉ lit "$\r\n" := by decide
    exact List.not_mem_append hrest hend (hmem ▸ hc)
  rw [cstr_eq_self_iff.mpr hno, hjson]
  intro heq
  have hlength := congrArg List.length heq
  have hle := length_le_doubled (rest ++ lit "$\r\n")
  have htail : (lit "$\r\n").length = 3 := rfl
  rw [List.length_append] at hle
  rw [List.length_cons, List.length_cons] at hlength
  omega

/-- A form directive is read as it is meant exactly if the action has no equals sign and no brace, and the object has
no square bracket and no equals sign, and its braces, counted outside of its quotes, close at its end only. An escaped
quote counts as any other here. -/
theorem formRead_iff {action object : Bytes} (hquote : (34 : Byte) ∉ action) (hclose : (93 : Byte) ∉ action)
    (hobject : object.head? = some 123) :
    FormRead action object ↔
      FormScan.Free action ∧ (∀ c ∈ object, Single c) ∧ (0 : Byte) ∉ object ∧ closes 0 false object = true := by
  obtain ⟨rest, rfl⟩ : ∃ rest, object = 123 :: rest := by
    cases object with
    | nil => cases hobject
    | cons c rest => exact ⟨rest, by rw [Option.some.inj hobject]⟩
  have hbody : (FormScan.inObject action).Body := ⟨rfl, rfl, rfl⟩
  have hcloses : closes 0 false (123 :: rest) = closes 1 false rest := rfl
  constructor
  · rintro ⟨s, hrun, haction, hjson⟩
    have hhead : FormScan.Head { sqbracket := true, action := true } := ⟨rfl, fun _ => rfl, rfl⟩
    have hempty : FormScan.Free [] := ⟨List.not_mem_nil, List.not_mem_nil, List.not_mem_nil⟩
    have hfree : FormScan.Free action := haction ▸ FormScan.run_free hhead hempty hquote hclose hrun
    rw [run_directive hfree hquote hclose] at hrun
    obtain ⟨consumed, hstart, hdoubled, hend⟩ := FormScan.run_consumed hrun hbody rfl Nat.one_pos (by decide)
    have hzero : (0 : Byte) ∉ 123 :: rest := hjson ▸ zero_notMem_cstr s.json
    have hrest : rest <+: consumed.flatMap doubled := by
      have hcstr := cstr_isPrefix s.json
      rw [hjson, hdoubled] at hcstr
      exact (List.cons_prefix_cons.mp hcstr).2
    rcases hend with hend | rfl
    · obtain ⟨rfl, hsingle⟩ := single_of_closes hend hstart hrest
      rw [hcloses]
      exact ⟨hfree, List.forall_mem_cons.mpr ⟨⟨by decide, by decide, by decide⟩, hsingle⟩, hzero, hend⟩
    · exact absurd hjson (cstr_all_ne hdoubled hzero)
  · rintro ⟨hfree, hsingle, hzero, hclosed⟩
    rw [hcloses] at hclosed
    obtain ⟨s, hrun, hjson, haction⟩ := FormScan.run_closes hbody rfl Nat.one_pos (by decide) hclosed (lit "$\r\n")
    refine ⟨s, (run_directive hfree hquote hclose rest).trans hrun, haction, ?_⟩
    rw [hjson, flatMap_doubled (List.forall_mem_cons.mp hsingle).2]
    exact cstr_eq_self_iff.mpr hzero

/-- The form of a directive that is read as it is meant: its action, and the inputs of its object. -/
theorem parseForm_of_read (parseJson : Bytes → Option (List (Bytes × Json Bytes))) {action object : Bytes} {lex : Lex}
    (hlex : lex.first = formDirective action object) (h : FormRead action object) {o : List (Bytes × Json Bytes)}
    (hparse : parseJson object = some o) {inputs : List Bytes} (hinputs : o.mapM formInput = .ok inputs) :
    parseForm parseJson lex = .ok (lit "<form action='" ++ action ++ lit "' method='POST'>\n" ++ inputs.flatten ++
      lit "\t<input type='hidden' csrf-token='dfsdkfhj4jh3489sdyhksdf' />\n" ++ lit "</form>\n") := by
  obtain ⟨s, hrun, rfl, rfl⟩ := h
  refine bind_eq_ok.mpr ⟨s, hlex ▸ hrun, ?_⟩
  rw [hparse]
  exact bind_eq_ok.mpr ⟨inputs, hinputs, rfl⟩

/-- A login form, whose only string with a brace in it has no escaped quote. -/
theorem formRead_login :
    FormRead (lit "/login") (lit "\x7b\"submit\":\x7b\"value\":\"\x7bGo\"\x7d\x7d") ∧
      parseForm (fun _ => some [(lit "submit", .object [(lit "value", .string (lit "\x7bGo"))])])
          ⟨formDirective (lit "/login") (lit "\x7b\"submit\":\x7b\"value\":\"\x7bGo\"\x7d\x7d"), 0⟩ =
        .ok (lit "<form action='/login' method='POST'>\n\t<input type='submit' value='\x7bGo' />\n" ++
          lit "\t<input type='hidden' csrf-token='dfsdkfhj4jh3489sdyhksdf' />\n</form>\n") := by
  have hread : FormRead (lit "/login") (lit "\x7b\"submit\":\x7b\"value\":\"\x7bGo\"\x7d\x7d") :=
    (formRead_iff (by decide) (by decide) rfl).mpr
      ⟨⟨by decide, by decide, by decide⟩,
        fun c hc => ⟨fun h => absurd (h ▸ hc) (by decide), fun h => absurd (h ▸ hc) (by decide),
          fun h => absurd (h ▸ hc) (by decide)⟩, by decide, by decide⟩
  exact ⟨hread, (parseForm_of_read _ rfl hread rfl rfl).trans rfl⟩

/-- A query in the action loses its equals sign, and an array in the object has its brackets twice. -/
theorem formRead_query :
    (FormScan.run {} (formDirective (lit "/s?q=1") (lit "\x7b\"submit\":[]\x7d"))).map
        (fun s => (s.actionStr, cstr s.json)) =
      .ok (lit "/s?q1", lit "\x7b\"submit\":[[]]\x7d") ∧
      ¬ FormRead (lit "/s?q=1") (lit "\x7b\"submit\":\x7b\x7d\x7d") ∧
      ¬ FormRead (lit "/s") (lit "\x7b\"submit\":[]\x7d") := by
  have hquery : FormScan.run {} (formDirective (lit "/s?q=1") (lit "\x7b\"submit\":\x7b\x7d\x7d")) =
      .ok { initBracket := false, actionStr := lit "/s?q1", json := lit "\x7b\"submit\":\x7b\x7d\x7d" } := rfl
  have harray : FormScan.run {} (formDirective (lit "/s") (lit "\x7b\"submit\":[]\x7d")) =
      .ok { initBracket := false, actionStr := lit "/s", json := lit "\x7b\"submit\":[[]]\x7d" } := rfl
  refine ⟨rfl, ?_, ?_⟩
  · rintro ⟨s, hrun, haction, -⟩
    obtain rfl := Except.ok.inj (hquery.symm.trans hrun)
    revert haction
    decide
  · rintro ⟨s, hrun, -, hjson⟩
    obtain rfl := Except.ok.inj (harray.symm.trans hrun)
    revert hjson
    decide

end Jericho.Iris
