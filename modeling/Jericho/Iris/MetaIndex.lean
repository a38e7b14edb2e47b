import Jericho.Library.LineFile
import Jericho.Library.StdText

/-! `iris::createMeta` and `iris::checkMeta`: a file with a line for each template and the time it was modified at. -/
namespace Jericho.Iris
open StdText LineFile

/-- `JFS::write`: a file with one more text and the end of a line. -/
def FileSystem.write (bytes toWrite : Bytes) (overwrite : Bool) : Bytes :=
  (if overwrite then [] else bytes) ++ (toWrite ++ lit "\n")

/-- `strncpy`: what it puts in place of `n` characters. -/
def strncpy (src : Bytes) (n : Nat) : Bytes := (cstr src).take n ++ List.replicate (n - (cstr src).length) 0

/-- The index after a call for a path whose file was modified at `mod`. -/
def createMeta (bytes path : Bytes) (mod : Int) : Exec Bytes :=
  let offset := path ++ lit ": "
  if (Occurrence.find offset bytes).isSome then
    match Occurrence.find (cstr offset) (cstr bytes) with
    | none => .error .undefined
    | some p =>
      match Occurrence.find (lit "\n") ((cstr bytes).drop p) with
      | none => .error .undefined
      | some p2 =>
        let idx1 := p + (cstr offset).length
        let idx2 := p + p2
        if inInt idx2 ∧ idx1 ≤ idx2 then
          .ok (FileSystem.write bytes
            (cstr (bytes.take idx1 ++ strncpy (toText mod) (idx2 - idx1) ++ bytes.drop idx2)) true)
        else .error .undefined
  else .ok (FileSystem.write bytes (offset ++ toText mod ++ lit "\n") false)

/-- The memory behind the two arrays of `checkMeta`, which have no room for their terminators: whether the byte
behind so many bytes of the copy of the index is zero, and whether the one behind the copy of a time belongs to
nobody. -/
structure Behind where
  zero : Nat → Bool
  spare : Nat → Bool

/-- Whether the index has the time a file was modified at. The index is searched in the first copy up to a
terminator, and a terminator is stored behind the second one. -/
def checkMeta (behind : Behind) (bytes path : Bytes) (mod : Int) : Exec Bool :=
  let offset := path ++ lit ": "
  if (Occurrence.find offset bytes).isSome then
    if 0 ∈ bytes ∨ behind.zero bytes.length then
      match Occurrence.find (cstr offset) (cstr bytes) with
      | none => .error .undefined
      | some start =>
        let p := (cstr bytes).drop (start + (cstr offset).length)
        match Occurrence.find (lit "\n") p with
        | none => .ok false
        | some p2 => if behind.spare p2 then .ok (p.take p2 = toText mod) else .error .undefined
    else .error .undefined
  else .ok false

/-- An index after calls of `createMeta`, of which it does not exist before. -/
def createMetas (calls : List (Bytes × Int)) : Exec Bytes :=
  calls.foldlM (fun bytes call => createMeta bytes call.1 call.2) []

/-- The line of an entry. -/
def entryLine (e : Bytes × Int) : Bytes := e.1 ++ lit ": " ++ toText e.2

/-- The index has an entry with a time for a path. -/
def Stored (bytes path : Bytes) (time : Int) : Prop := entryLine (path, time) ∈ bytes.splitOn 10

/-- The time of the last call for a path. -/
def lastTime (calls : List (Bytes × Int)) (path : Bytes) : Option Int := calls.reverse.lookup path

/-- What a call is meant to do: its path has the time from then on. -/
def record (path : Bytes) (mod : Int) : List (Bytes × Int) → List (Bytes × Int)
  | [] => [(path, mod)]
  | e :: entries => if e.1 = path then (path, mod) :: entries else e :: record path mod entries

def recorded (calls : List (Bytes × Int)) : List (Bytes × Int) :=
  calls.foldl (fun entries call => record call.1 call.2 entries) []

/-- The line of a path is the first that contains the path with its colon, or no line does. -/
def Found (entries : List (Bytes × Int)) (path : Bytes) : Prop :=
  ∀ e ∈ entries.takeWhile (·.1 ≠ path), ¬ path ++ lit ": " <:+: entryLine e

instance (entries : List (Bytes × Int)) (path : Bytes) : Decidable (Found entries path) := by
  unfold Found
  infer_instance

/-- A call that does what it is meant to: its path is found, and its time has as many characters as the time there, or
less if no entry follows. -/
structure Meets (entries : List (Bytes × Int)) (bytes path : Bytes) (mod : Int) : Prop where
  noZero : (0 : Byte) ∉ path
  found : Found entries path
  width : ∀ time ∈ entries.lookup path, (toText mod).length = (toText time).length ∨
    (toText mod).length < (toText time).length ∧ entries.getLast? = some (path, time)
  small : bytes.length < 2 ^ 31 ∨ path ∉ entries.map Prod.fst

/-- Calls each of which finds the index as it needs it. -/
def AllMeet : List (Bytes × Int) → Bytes → List (Bytes × Int) → Prop
  | _, _, [] => True
  | entries, bytes, call :: calls =>
    Meets entries bytes call.1 call.2 ∧
      ∀ bytes', createMeta bytes call.1 call.2 = .ok bytes' →
        AllMeet (record call.1 call.2 entries) bytes' calls

/-- The index has a line for each entry, in order, and blank lines. -/
structure Holds (bytes : Bytes) (entries : List (Bytes × Int)) (lines : List Bytes) : Prop where
  bytes_eq : bytes = text 10 lines
  lines : lines.filter (· ≠ []) = entries.map entryLine
  paths : (entries.map Prod.fst).Nodup
  plain : ∀ e ∈ entries, (10 : Byte) ∉ e.1 ∧ (0 : Byte) ∉ e.1

/-- The time is what stands behind the last blank of a line. -/
theorem entryLine_injective {e f : Bytes × Int} (h : entryLine e = entryLine f) : e = f := by
  obtain ⟨path, time⟩ := e
  obtain ⟨path', time'⟩ := f
  have hblank (n : Int) : (32 : Byte) ∉ toText n := notMem_toText (by decide) (by decide) n
  have hlast (path : Bytes) (n : Int) : ((entryLine (path, n)).reverse.takeWhile (· ≠ 32)) = (toText n).reverse := by
    have hsplit : (entryLine (path, n)).reverse = (toText n).reverse ++ 32 :: (path ++ [58]).reverse := by
      rw [entryLine, List.reverse_append, List.reverse_append, List.reverse_append]
      rfl
    rw [hsplit, List.takeWhile_append_of_pos, List.takeWhile_cons_of_neg (by decide), List.append_nil]
    intro c hc
    exact decide_eq_true fun heq => hblank n (heq ▸ List.mem_reverse.mp hc)
  have htext : (toText time).reverse = (toText time').reverse := by
    rw [← hlast path, h, hlast]
  obtain rfl : time = time' := toText_injective (List.reverse_injective htext)
  obtain rfl : path = path' := List.append_cancel_right (List.append_cancel_right h)
  rfl

theorem entryLine_ne_nil (e : Bytes × Int) : entryLine e ≠ [] := by
  obtain ⟨path, time⟩ := e
  intro h
  have hlength := congrArg List.length h
  rw [entryLine, List.length_append, List.length_append] at hlength
  exact absurd hlength (Nat.ne_of_gt (Nat.lt_add_right _ (Nat.lt_add_left _ Nat.two_pos)))

/-- A call comes to the entry of its path, or has none before it. -/
theorem record_cases (path : Bytes) (mod : Int) (entries : List (Bytes × Int)) :
    (path ∉ entries.map Prod.fst ∧ entries.takeWhile (·.1 ≠ path) = entries ∧
        record path mod entries = entries ++ [(path, mod)]) ∨
      ∃ before time after, entries = before ++ (path, time) :: after ∧ entries.takeWhile (·.1 ≠ path) = before ∧
        entries.lookup path = some time ∧ record path mod entries = before ++ (path, mod) :: after := by
  induction entries with
  | nil => exact .inl ⟨List.not_mem_nil, rfl, rfl⟩
  | cons e entries ih =>
    obtain ⟨key, time⟩ := e
    by_cases hkey : key = path
    · subst hkey
      refine .inr ⟨[], time, entries, rfl, ?_, List.lookup_cons_self, if_pos rfl⟩
      exact List.takeWhile_cons_of_neg (by simp)
    · have htake : ((key, time) :: entries).takeWhile (·.1 ≠ path) = (key, time) :: entries.takeWhile (·.1 ≠ path) :=
        List.takeWhile_cons_of_pos (decide_eq_true hkey)
      have hrecord : record path mod ((key, time) :: entries) = (key, time) :: record path mod entries := if_neg hkey
      rw [htake, hrecord]
      rcases ih with ⟨hnot, hall, hlast⟩ | ⟨before, time', after, rfl, hbefore, hlookup, hreplaced⟩
      · rw [hall, hlast, List.map_cons]
        exact .inl ⟨List.not_mem_cons_of_ne_of_not_mem (Ne.symm hkey) hnot, rfl, rfl⟩
      · rw [hbefore, hreplaced]
        refine .inr ⟨(key, time) :: before, time', after, rfl, rfl, ?_, rfl⟩
        rw [List.lookup_cons, beq_eq_false_iff_ne.mpr (Ne.symm hkey)]
        exact hlookup

theorem keys_record (path : Bytes) (mod : Int) {entries : List (Bytes × Int)} (h : (entries.map Prod.fst).Nodup) :
    ((record path mod entries).map Prod.fst).Nodup := by
  rcases record_cases path mod entries with ⟨hnot, -, hrecord⟩ | ⟨before, time, after, rfl, -, -, hrecord⟩
  · rw [hrecord, List.map_append]
    refine List.nodup_append.mpr ⟨h, List.nodup_singleton path, fun a ha b hb heq => hnot ?_⟩
    obtain rfl : b = path := List.mem_singleton.mp hb
    exact heq ▸ ha
  · rw [hrecord, List.map_append, List.map_cons]
    rw [List.map_append, List.map_cons] at h
    exact h

theorem forall_record {P : Bytes → Prop} {path : Bytes} (mod : Int) (hpath : P path) {entries : List (Bytes × Int)}
    (h : ∀ e ∈ entries, P e.1) : ∀ e ∈ record path mod entries, P e.1 := by
  induction entries with
  | nil => exact List.forall_mem_singleton.mpr hpath
  | cons e entries ih =>
    obtain ⟨he, hentries⟩ := List.forall_mem_cons.mp h
    unfold record
    split_ifs
    · exact List.forall_mem_cons.mpr ⟨hpath, hentries⟩
    · exact List.forall_mem_cons.mpr ⟨he, ih hentries⟩

/-- A call gives its path its time, and no other path another. -/
theorem lookup_record (path : Bytes) (mod : Int) (entries : List (Bytes × Int)) (other : Bytes) :
    (record path mod entries).lookup other = if other = path then some mod else entries.lookup other := by
  induction entries with
  | nil =>
    unfold record
    rw [List.lookup_cons, List.lookup_nil]
    split_ifs with h
    · rw [beq_iff_eq.mpr h]
    · rw [beq_eq_false_iff_ne.mpr h]
  | cons e entries ih =>
    obtain ⟨key, time⟩ := e
    unfold record
    by_cases hkey : key = path <;> by_cases hother : other = key
    · subst hkey hother
      simp
    · rw [if_pos hkey, List.lookup_cons, List.lookup_cons, beq_eq_false_iff_ne.mpr hother,
        beq_eq_false_iff_ne.mpr (hkey ▸ hother), if_neg (hkey ▸ hother)]
    · rw [if_neg hkey, List.lookup_cons, List.lookup_cons, beq_iff_eq.mpr hother, if_neg (hother ▸ hkey)]
    · rw [if_neg hkey, List.lookup_cons, List.lookup_cons, beq_eq_false_iff_ne.mpr hother]
      exact ih

section Index
variable {bytes path : Bytes} {entries : List (Bytes × Int)} {lines : List Bytes}

theorem newline_notMem_entryLine {e : Bytes × Int} (h : (10 : Byte) ∉ e.1) : (10 : Byte) ∉ entryLine e := by
  have hcolon : (10 : Byte) ∉ lit ": " := by decide
  exact List.not_mem_append (List.not_mem_append h hcolon) (notMem_toText (by decide) (by decide) e.2)

theorem zero_notMem_entryLine {e : Bytes × Int} (h : (0 : Byte) ∉ e.1) : (0 : Byte) ∉ entryLine e := by
  have hcolon : (0 : Byte) ∉ lit ": " := by decide
  exact List.not_mem_append (List.not_mem_append h hcolon) (notMem_toText (by decide) (by decide) e.2)

/-- Every line is blank or that of an entry. -/
theorem Holds.mem_lines (h : Holds bytes entries lines) {line : Bytes} (hline : line ∈ lines) :
    line = [] ∨ ∃ e ∈ entries, entryLine e = line := by
  by_cases hne : line = []
  · exact .inl hne
  · have hmem : line ∈ lines.filter (· ≠ []) := List.mem_filter.mpr ⟨hline, decide_eq_true hne⟩
    rw [h.lines] at hmem
    exact .inr (List.mem_map.mp hmem)

theorem Holds.notMem (h : Holds bytes entries lines) {c : Byte} (hentries : ∀ e ∈ entries, c ∉ entryLine e) :
    ∀ line ∈ lines, c ∉ line := by
  intro line hline
  rcases h.mem_lines hline with rfl | ⟨e, he, rfl⟩
  · exact List.not_mem_nil
  · exact hentries e he

theorem Holds.zero_notMem (h : Holds bytes entries lines) : (0 : Byte) ∉ bytes := by
  rw [h.bytes_eq, mem_text (by decide)]
  rintro ⟨line, hline, hzero⟩
  exact h.notMem (fun e he => zero_notMem_entryLine (h.plain e he).2) line hline hzero

theorem offset_ne_nil (path : Bytes) : path ++ lit ": " ≠ [] := List.append_ne_nil_of_right_ne_nil path (by decide)

/-- Lines of entries without a path in them have no occurrence of it, nor have blank lines. -/
theorem notInfix_lines {front : List (Bytes × Int)} (hlines : lines.filter (· ≠ []) = front.map entryLine)
    (hfront : ∀ e ∈ front, ¬ path ++ lit ": " <:+: entryLine e) : ∀ line ∈ lines, ¬ path ++ lit ": " <:+: line := by
  intro line hline
  by_cases hne : line = []
  · rw [hne, List.infix_nil]
    exact offset_ne_nil path
  · have hmem : line ∈ lines.filter (· ≠ []) := List.mem_filter.mpr ⟨hline, decide_eq_true hne⟩
    rw [hlines] at hmem
    obtain ⟨e, he, rfl⟩ := List.mem_map.mp hmem
    exact hfront e he

/-- The line of an entry, with the lines of the entries before and after it. -/
theorem Holds.split {before after : List (Bytes × Int)} {e : Bytes × Int} (h : Holds bytes entries lines)
    (hentries : entries = before ++ e :: after) :
    ∃ front back, lines = front ++ entryLine e :: back ∧ front.filter (· ≠ []) = before.map entryLine ∧
      back.filter (· ≠ []) = after.map entryLine := by
  have hlines := h.lines
  rw [hentries, List.map_append, List.map_cons] at hlines
  obtain ⟨front, rest, rfl, hfront, hrest⟩ := List.filter_eq_append_iff.mp hlines
  obtain ⟨blank, back, rfl, hblank, -, hback⟩ := List.filter_eq_cons_iff.mp hrest
  refine ⟨front ++ blank, back, (List.append_assoc _ _ _).symm, ?_, hback⟩
  rw [List.filter_append, hfront, List.filter_eq_nil_iff.mpr hblank, List.append_nil]

/-- The copy of a time into the place of another. -/
theorem strncpy_toText (mod : Int) {n : Nat} (h : (toText mod).length ≤ n) :
    strncpy (toText mod) n = toText mod ++ List.replicate (n - (toText mod).length) 0 := by
  have hcstr : cstr (toText mod) = toText mod := cstr_eq_self_iff.mpr (notMem_toText (by decide) (by decide) mod)
  rw [strncpy, hcstr, List.take_of_length_le h]

/-- With the new time in place of the old one no line has a NUL. -/
theorem zero_notMem_lines {front back : List Bytes} {time : Int} (hnot : (0 : Byte) ∉ path)
    (hzero : (0 : Byte) ∉ text 10 (front ++ entryLine (path, time) :: back)) (mod : Int) :
    ∀ line ∈ front ++ [entryLine (path, mod)] ++ back, (0 : Byte) ∉ line := by
  rw [mem_text (by decide)] at hzero
  intro line hline hmem
  rcases List.mem_append.mp hline with hline | hline
  · rcases List.mem_append.mp hline with hline | hline
    · exact hzero ⟨line, List.mem_append_left _ hline, hmem⟩
    · rw [List.mem_singleton.mp hline] at hmem
      exact zero_notMem_entryLine hnot hmem
  · exact hzero ⟨line, List.mem_append_right _ (List.mem_cons_of_mem _ hline), hmem⟩

section Present
variable {front back : List Bytes} {time : Int} (hbytes : bytes = text 10 (front ++ entryLine (path, time) :: back))
  (hzero : (0 : Byte) ∉ bytes) (hpath : (10 : Byte) ∉ path) (hnot : (0 : Byte) ∉ path)
  (hfront : ∀ line ∈ front, ¬ path ++ lit ": " <:+: line)

include hbytes hzero hpath hnot hfront

/-- The search comes to the start of the line of a path. -/
theorem find_entry :
    Occurrence.find (path ++ lit ": ") bytes = some (text 10 front).length ∧
      Occurrence.find (cstr (path ++ lit ": ")) (cstr bytes) = some (text 10 front).length := by
  have hnewline : (10 : Byte) ∉ path ++ lit ": " := List.not_mem_append hpath (by decide)
  have hoffset : (0 : Byte) ∉ path ++ lit ": " := List.not_mem_append hnot (by decide)
  have hfind : Occurrence.find (path ++ lit ": ") bytes = some (text 10 front).length := by
    rw [hbytes, text_append, text_cons, entryLine, List.append_assoc (path ++ lit ": ")]
    exact find_start hnewline (offset_ne_nil path) hfront _
  refine ⟨hfind, ?_⟩
  rw [cstr_eq_self_iff.mpr hoffset, cstr_eq_self_iff.mpr hzero]
  exact hfind

theorem createMeta_present (mod : Int) (hsmall : bytes.length < 2 ^ 31) :
    createMeta bytes path mod = .ok (cstr (text 10 front ++ (path ++ lit ": ") ++
      strncpy (toText mod) (toText time).length ++ 10 :: text 10 back) ++ [10]) := by
  obtain ⟨hfind, hcfind⟩ := find_entry hbytes hzero hpath hnot hfront
  have hoffset : cstr (path ++ lit ": ") = path ++ lit ": " :=
    cstr_eq_self_iff.mpr (List.not_mem_append hnot (by decide))
  have hsplit : bytes = text 10 front ++ (entryLine (path, time) ++ 10 :: text 10 back) := by
    rw [hbytes, text_append, text_cons]
  have hend : Occurrence.find (lit "\n") ((cstr bytes).drop (text 10 front).length) =
      some (entryLine (path, time)).length := by
    rw [cstr_eq_self_iff.mpr hzero, hsplit, List.drop_left]
    exact find_end (newline_notMem_entryLine hpath) _
  have hlength : (entryLine (path, time)).length = (path ++ lit ": ").length + (toText time).length :=
    List.length_append
  have htotal := congrArg List.length hsplit
  rw [List.length_append, List.length_append] at htotal
  have htake : bytes.take ((text 10 front).length + (path ++ lit ": ").length) =
      text 10 front ++ (path ++ lit ": ") := by
    rw [hsplit, List.take_length_add_append, entryLine, List.append_assoc (path ++ lit ": "), List.take_left]
  have hdrop : bytes.drop ((text 10 front).length + (entryLine (path, time)).length) = 10 :: text 10 back := by
    rw [hsplit, List.drop_length_add_append, List.drop_left]
  have hin : inInt ((text 10 front).length + (entryLine (path, time)).length : ℕ) := ⟨by omega, by omega⟩
  unfold createMeta
  dsimp only
  rw [hfind, hcfind]
  dsimp only
  rw [hend]
  dsimp only
  rw [hoffset, Option.isSome_some, if_pos rfl, if_pos ⟨hin, by omega⟩, htake, hdrop]
  have hwidth : (text 10 front).length + (entryLine (path, time)).length -
      ((text 10 front).length + (path ++ lit ": ").length) = (toText time).length := by omega
  rw [hwidth]
  rfl

/-- A time as wide as the old one takes its place, and a blank line comes to the end. -/
theorem createMeta_same {mod : Int} (hsmall : bytes.length < 2 ^ 31)
    (hwidth : (toText mod).length = (toText time).length) :
    createMeta bytes path mod = .ok (text 10 (front ++ [entryLine (path, mod)] ++ back ++ [[]])) := by
  have hlines : text 10 front ++ (path ++ lit ": ") ++ strncpy (toText mod) (toText time).length ++
      10 :: text 10 back = text 10 (front ++ [entryLine (path, mod)] ++ back) := by
    rw [strncpy_toText mod hwidth.le, hwidth, Nat.sub_self, text_append, text_concat, entryLine]
    simp only [List.append_assoc, List.replicate_zero, List.append_nil, List.cons_append, List.nil_append]
  have hno : (0 : Byte) ∉ text 10 (front ++ [entryLine (path, mod)] ++ back) := by
    rw [mem_text (by decide)]
    rintro ⟨line, hline, hmem⟩
    exact zero_notMem_lines hnot (hbytes ▸ hzero) mod line hline hmem
  rw [createMeta_present hbytes hzero hpath hnot hfront mod hsmall, hlines, cstr_eq_self_iff.mpr hno, text_concat,
    List.append_nil]

/-- Behind a time that is not as wide as the old one the index ends. -/
theorem createMeta_cut {mod : Int} (hsmall : bytes.length < 2 ^ 31)
    (hshort : (toText mod).length < (toText time).length) :
    createMeta bytes path mod = .ok (text 10 (front ++ [entryLine (path, mod)])) := by
  obtain ⟨k, hk⟩ : ∃ k, (toText time).length - (toText mod).length = k + 1 :=
    ⟨(toText time).length - (toText mod).length - 1, by omega⟩
  have hlines : text 10 front ++ (path ++ lit ": ") ++ strncpy (toText mod) (toText time).length ++
      10 :: text 10 back =
        text 10 front ++ entryLine (path, mod) ++ 0 :: (List.replicate k 0 ++ 10 :: text 10 back) := by
    rw [strncpy_toText mod hshort.le, hk, List.replicate_succ, entryLine]
    simp only [List.append_assoc, List.cons_append]
  have hno : (0 : Byte) ∉ text 10 front ++ entryLine (path, mod) := by
    refine List.not_mem_append ?_ (zero_notMem_entryLine hnot)
    rw [mem_text (by decide)]
    rintro ⟨line, hline, hmem⟩
    have hall := zero_notMem_lines hnot (hbytes ▸ hzero) mod
    exact hall line (List.mem_append_left _ (List.mem_append_left _ hline)) hmem
  rw [createMeta_present hbytes hzero hpath hnot hfront mod hsmall, hlines, cstr_append_zero hno, text_concat]

theorem checkMeta_present {behind : Behind} (hindex : behind.zero bytes.length = true)
    (htime : behind.spare (toText time).length = true) (mod : Int) :
    checkMeta behind bytes path mod = .ok (decide (time = mod)) := by
  obtain ⟨hfind, hcfind⟩ := find_entry hbytes hzero hpath hnot hfront
  have hoffset : cstr (path ++ lit ": ") = path ++ lit ": " :=
    cstr_eq_self_iff.mpr (List.not_mem_append hnot (by decide))
  have hdrop : (cstr bytes).drop ((text 10 front).length + (path ++ lit ": ").length) =
      toText time ++ 10 :: text 10 back := by
    rw [cstr_eq_self_iff.mpr hzero, hbytes, text_append, text_cons, List.drop_length_add_append, entryLine,
      List.append_assoc (path ++ lit ": "), List.drop_left]
  have hend : Occurrence.find (lit "\n") (toText time ++ 10 :: text 10 back) = some (toText time).length :=
    find_end (notMem_toText (by decide) (by decide) time) _
  unfold checkMeta
  dsimp only
  rw [hfind, hcfind, Option.isSome_some, if_pos rfl, if_pos (.inr hindex)]
  dsimp only
  rw [hoffset, hdrop, hend]
  dsimp only
  rw [if_pos htime, List.take_left]
  exact congrArg Except.ok (decide_eq_decide.mpr ⟨toText_injective, congrArg toText⟩)

end Present

theorem find_absent (h : Holds bytes entries lines) (hpath : (10 : Byte) ∉ path) (hfound : Found entries path)
    (hall : entries.takeWhile (·.1 ≠ path) = entries) : Occurrence.find (path ++ lit ": ") bytes = none := by
  unfold Found at hfound
  rw [hall] at hfound
  rw [h.bytes_eq]
  exact find_none (List.not_mem_append hpath (by decide)) (offset_ne_nil path) (notInfix_lines h.lines hfound)

/-- A call that meets its condition does what it is meant to. -/
theorem Holds.createMeta {mod : Int} (h : Holds bytes entries lines) (hpath : (10 : Byte) ∉ path)
    (hmeets : Meets entries bytes path mod) :
    ∃ bytes' lines', createMeta bytes path mod = .ok bytes' ∧ Holds bytes' (record path mod entries) lines' := by
  have hkept : ([entryLine (path, mod)] : List Bytes).filter (· ≠ []) = [entryLine (path, mod)] :=
    List.filter_cons_of_pos (decide_eq_true (entryLine_ne_nil (path, mod)))
  have hplain : ∀ e ∈ record path mod entries, (10 : Byte) ∉ e.1 ∧ (0 : Byte) ∉ e.1 :=
    forall_record (P := fun path => (10 : Byte) ∉ path ∧ (0 : Byte) ∉ path) mod ⟨hpath, hmeets.noZero⟩ h.plain
  have hkeys := keys_record path mod h.paths
  rcases record_cases path mod entries with
    ⟨-, hall, hrecord⟩ | ⟨before, time, after, hentries, hbefore, hlookup, hrecord⟩
  · -- The line is put behind the others, with a blank one.
    have hnone := find_absent h hpath hmeets.found hall
    refine ⟨text 10 (lines ++ [entryLine (path, mod)] ++ [[]]), _, ?_, rfl, ?_, hkeys, hplain⟩
    · unfold Iris.createMeta
      dsimp only
      rw [hnone, text_concat, text_concat, ← h.bytes_eq]
      simp [FileSystem.write, entryLine]
      rfl
    · rw [hrecord, List.filter_append, List.filter_append, hkept, h.lines, List.map_append]
      exact List.append_nil _
  · obtain ⟨front, back, hlines, hfront, hback⟩ := h.split hentries
    have hfound := hmeets.found
    unfold Found at hfound
    rw [hbefore] at hfound
    have hsmall : bytes.length < 2 ^ 31 := by
      refine hmeets.small.resolve_right fun hnot => hnot ?_
      rw [hentries, List.map_append, List.map_cons]
      exact List.mem_append_right _ List.mem_cons_self
    have hbytes : bytes = text 10 (front ++ entryLine (path, time) :: back) := hlines ▸ h.bytes_eq
    have hnone := notInfix_lines hfront hfound
    rcases hmeets.width time hlookup with hwidth | ⟨hshort, hlast⟩
    · have hcreate := createMeta_same hbytes h.zero_notMem hpath hmeets.noZero hnone hsmall hwidth
      refine ⟨_, _, hcreate, rfl, ?_, hkeys, hplain⟩
      rw [hrecord, List.filter_append, List.filter_append, List.filter_append, hkept, hfront, hback]
      simp
    · -- The entry is the last, as its path stands in no other.
      obtain rfl : after = [] := by
        by_contra hne
        have hpaths := h.paths
        rw [hentries, List.getLast?_append_of_ne_nil _ (List.cons_ne_nil _ _),
          List.getLast?_cons_of_ne_nil hne] at hlast
        rw [hentries, List.map_append, List.map_cons] at hpaths
        have hmem : path ∈ after.map Prod.fst := List.mem_map_of_mem (List.mem_of_getLast? hlast)
        exact (List.nodup_cons.mp (List.nodup_append.mp hpaths).2.1).1 hmem
      have hcreate := createMeta_cut hbytes h.zero_notMem hpath hmeets.noZero hnone hsmall hshort
      refine ⟨_, _, hcreate, rfl, ?_, hkeys, hplain⟩
      rw [hrecord, List.filter_append, hkept, hfront, List.map_append]
      rfl

/-- A path that is found is checked against its time, if the memory behind the copies allows it. -/
theorem Holds.checkMeta (h : Holds bytes entries lines) (hpath : (10 : Byte) ∉ path) (hnot : (0 : Byte) ∉ path)
    (hfound : Found entries path) {behind : Behind} (hbehind : ∀ time ∈ entries.lookup path,
      behind.zero bytes.length = true ∧ behind.spare (toText time).length = true) (mod : Int) :
    checkMeta behind bytes path mod = .ok (decide (entries.lookup path = some mod)) := by
  rcases record_cases path mod entries with ⟨hnone, hall, -⟩ | ⟨before, time, after, hentries, hbefore, hlookup, -⟩
  · have hlookup : entries.lookup path = none := by
      rw [List.lookup_eq_none_iff]
      intro e he
      exact bne_iff_ne.mpr fun heq => hnone (heq ▸ List.mem_map_of_mem he)
    unfold Iris.checkMeta
    dsimp only
    rw [find_absent h hpath hfound hall, hlookup]
    rfl
  · obtain ⟨front, back, hlines, hfront, -⟩ := h.split hentries
    unfold Found at hfound
    rw [hbefore] at hfound
    have hbytes : bytes = text 10 (front ++ entryLine (path, time) :: back) := hlines ▸ h.bytes_eq
    obtain ⟨hindex, htime⟩ := hbehind time hlookup
    rw [checkMeta_present hbytes h.zero_notMem hpath hnot (notInfix_lines hfront hfound) hindex htime mod, hlookup]
    exact congrArg Except.ok (decide_eq_decide.mpr Option.some_inj.symm)

theorem splitOn_text {lines : List Bytes} (h : ∀ line ∈ lines, (10 : Byte) ∉ line) :
    (text 10 lines).splitOn 10 = lines ++ [[]] := by
  induction lines with
  | nil => rfl
  | cons line lines ih =>
    obtain ⟨hline, hlines⟩ := List.forall_mem_cons.mp h
    rw [text_cons, List.splitOn_append_cons_self_of_not_mem hline, ih hlines]
    rfl

theorem Holds.stored_iff (h : Holds bytes entries lines) (path : Bytes) (time : Int) :
    Stored bytes path time ↔ (path, time) ∈ entries := by
  have hnewline := h.notMem fun e he => newline_notMem_entryLine (h.plain e he).1
  unfold Stored
  rw [h.bytes_eq, splitOn_text hnewline]
  constructor
  · intro hmem
    rcases List.mem_append.mp hmem with hmem | hmem
    · obtain ⟨e, he, heq⟩ := (h.mem_lines hmem).resolve_left (entryLine_ne_nil _)
      exact entryLine_injective heq ▸ he
    · exact absurd (List.mem_singleton.mp hmem) (entryLine_ne_nil _)
  · intro hmem
    have hline : entryLine (path, time) ∈ lines.filter (· ≠ []) := h.lines ▸ List.mem_map_of_mem hmem
    exact List.mem_append_left _ (List.mem_filter.mp hline).1

theorem lookup_recorded (calls : List (Bytes × Int)) (path : Bytes) :
    (recorded calls).lookup path = lastTime calls path := by
  unfold recorded lastTime
  induction calls using List.reverseRecOn with
  | nil => rfl
  | append_singleton calls call ih =>
    rw [List.foldl_concat, lookup_record, List.reverse_concat, ih]
    obtain ⟨key, time⟩ := call
    rw [List.lookup_cons]
    split_ifs with h
    · rw [beq_iff_eq.mpr h]
    · rw [beq_eq_false_iff_ne.mpr h]

/-- Calls that meet their conditions leave the index with what they record. -/
theorem Holds.run {calls : List (Bytes × Int)} (h : Holds bytes entries lines)
    (hpaths : ∀ call ∈ calls, (10 : Byte) ∉ call.1) (hmeets : AllMeet entries bytes calls) :
    ∃ bytes' lines', calls.foldlM (fun bytes call => Iris.createMeta bytes call.1 call.2) bytes = .ok bytes' ∧
      Holds bytes' (calls.foldl (fun entries call => record call.1 call.2 entries) entries) lines' := by
  induction calls generalizing bytes entries lines with
  | nil => exact ⟨bytes, lines, rfl, h⟩
  | cons call calls ih =>
    obtain ⟨hpath, hpaths⟩ := List.forall_mem_cons.mp hpaths
    obtain ⟨hmeet, hrest⟩ := hmeets
    obtain ⟨next, lines', hcreate, hnext⟩ := h.createMeta hpath hmeet
    obtain ⟨bytes', lines'', hrun, hholds⟩ := ih hnext hpaths (hrest next hcreate)
    exact ⟨bytes', lines'', bind_eq_ok.mpr ⟨next, hcreate, hrun⟩, hholds⟩

end Index

/-- After calls that meet their conditions the index stores the time of the last call for each path and no other, and a
path that is found is checked against it, if the memory behind the copies of the index and of the time allows it. -/
theorem createMetas_stored (behind : Behind) {calls : List (Bytes × Int)} (hpaths : ∀ call ∈ calls, (10 : Byte) ∉ call.1)
    (hmeets : AllMeet [] [] calls) :
    ∃ bytes, createMetas calls = .ok bytes ∧
      (∀ path time, Stored bytes path time ↔ lastTime calls path = some time) ∧
        ∀ path mod, (10 : Byte) ∉ path → (0 : Byte) ∉ path → Found (recorded calls) path →
          (∀ time ∈ lastTime calls path, behind.zero bytes.length = true ∧ behind.spare (toText time).length = true) →
          checkMeta behind bytes path mod = .ok (decide (lastTime calls path = some mod)) := by
  have hempty : Holds [] [] [] := ⟨rfl, rfl, List.nodup_nil, fun _ h => absurd h List.not_mem_nil⟩
  obtain ⟨bytes, lines, hrun, h⟩ := hempty.run hpaths hmeets
  refine ⟨bytes, hrun, fun path time => ?_, fun path mod hpath hzero hfound hbehind => ?_⟩
  · rw [h.stored_iff, ← lookup_recorded]
    exact (lookup_eq_some_of_nodup h.paths).symm
  · rw [← lookup_recorded] at hbehind ⊢
    exact h.checkMeta hpath hzero hfound hbehind mod

/-- The arrays are rounded up to 16 bytes, and the rest is zero. -/
def Behind.rounded : Behind := ⟨fun n => n % 16 ≠ 0, fun n => n % 16 ≠ 0⟩

/-- Two templates, the first of which is modified later. -/
theorem createMetas_stored_two :
    ∃ bytes, createMetas [(lit "/a.iris", 100), (lit "/b.iris", 200), (lit "/a.iris", 300)] = .ok bytes ∧
      Stored bytes (lit "/a.iris") 300 ∧ Stored bytes (lit "/b.iris") 200 ∧
        checkMeta .rounded bytes (lit "/b.iris") 200 = .ok true := by
  have hpaths : ∀ call ∈ [(lit "/a.iris", (100 : Int)), (lit "/b.iris", 200), (lit "/a.iris", 300)],
      (10 : Byte) ∉ call.1 := by simp only [List.forall_mem_cons]; decide
  have hfirst : createMeta [] (lit "/a.iris") 100 = .ok (lit "/a.iris: 100\n\n") := by decide
  have hsecond : createMeta (lit "/a.iris: 100\n\n") (lit "/b.iris") 200 =
      .ok (lit "/a.iris: 100\n\n/b.iris: 200\n\n") := by decide
  have hmeets : AllMeet [] [] [(lit "/a.iris", 100), (lit "/b.iris", 200), (lit "/a.iris", 300)] := by
    refine ⟨⟨by decide, by decide, fun _ h => (by cases h), .inr (by decide)⟩, fun bytes h => ?_⟩
    obtain rfl := Except.ok.inj (hfirst.symm.trans h)
    refine ⟨⟨by decide, by decide, fun time h => ?_, .inr (by decide)⟩, fun bytes h => ?_⟩
    · have hnone : none = some time := h
      cases hnone
    obtain rfl := Except.ok.inj (hsecond.symm.trans h)
    refine ⟨⟨by decide, by decide, fun time h => ?_, .inl (by decide)⟩, fun _ _ => trivial⟩
    · have htime : (some 100 : Option Int) = some time := h
      obtain rfl := Option.some.inj htime
      decide
  obtain ⟨bytes, hrun, hstored, hcheck⟩ := createMetas_stored .rounded hpaths hmeets
  have hbytes : createMetas [(lit "/a.iris", 100), (lit "/b.iris", 200), (lit "/a.iris", 300)] =
      .ok (lit "/a.iris: 300\n\n/b.iris: 200\n\n\n") := by decide
  refine ⟨bytes, hrun, (hstored _ _).mpr (by decide), (hstored _ _).mpr (by decide),
    hcheck _ 200 (by decide) (by decide) (by decide) fun time h => ?_⟩
  obtain rfl := Except.ok.inj (hbytes.symm.trans hrun)
  have htime : (some 200 : Option Int) = some time := h
  obtain rfl := Option.some.inj htime
  decide

/-- A path in which another ends is taken for it, a longer time is cut, and a shorter one cuts the index. -/
theorem createMetas_lost :
    (createMetas [(lit "/aa", 100), (lit "a", 200)] = .ok (lit "/aa: 200\n\n\n") ∧
        ¬ Stored (lit "/aa: 200\n\n\n") (lit "/aa") 100 ∧ ¬ Stored (lit "/aa: 200\n\n\n") (lit "a") 200 ∧
          checkMeta .rounded (lit "/aa: 200\n\n\n") (lit "a") 200 = .ok true) ∧
      (createMetas [(lit "a", 9), (lit "a", 10)] = .ok (lit "a: 1\n\n\n") ∧
        ¬ Stored (lit "a: 1\n\n\n") (lit "a") 10) ∧
      createMetas [(lit "a", 100), (lit "b", 100), (lit "a", 10)] = .ok (lit "a: 10\n") ∧
        ¬ Stored (lit "a: 10\n") (lit "b") 100 := by
  unfold Stored
  decide

end Jericho.Iris
