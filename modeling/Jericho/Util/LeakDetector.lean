import Jericho.Util.Leaks

/-! What the leak detector says after any calls of `trace` and `clean`. -/
namespace Jericho.Util.Trace
open StdText Heap Tally

inductive Call where
  | trace (name : Bytes)
  | clean (name : Bytes)
  deriving DecidableEq

def Call.name : Call → Bytes
  | .trace name => name
  | .clean name => name

def step (t : Trace) : Call → Exec Trace
  | .trace name => t.trace name
  | .clean name => t.clean name

def run (calls : List Call) : Exec Trace := calls.foldlM step {}

/-- The calls from the first `trace` of a name on. -/
def since (name : Bytes) (calls : List Call) : List Call := calls.dropWhile (· ≠ .trace name)

/-- How often a name was traced, less how often it was cleaned since the first time. -/
def balance (name : Bytes) (calls : List Call) : Int :=
  (since name calls).count (.trace name) - (since name calls).count (.clean name)

/-- The sorted tally of the calls. -/
def tallyStep (l : List (Bytes × Int)) : Call → List (Bytes × Int)
  | .trace name => bump chars name l
  | .clean name => lower name l

theorem since_eq_nil {name : Bytes} {calls : List Call} (h : .trace name ∉ calls) : since name calls = [] := by
  refine List.dropWhile_eq_nil_iff.mpr ?_
  intro call hcall
  have hne : call ≠ .trace name := fun heq => h (heq ▸ hcall)
  simpa using hne

/-- Once a name is traced, later calls are counted from there. -/
theorem since_append {name : Bytes} {calls : List Call} (h : .trace name ∈ calls) (call : Call) :
    since name (calls ++ [call]) = since name calls ++ [call] := by
  have hne : since name calls ≠ [] := by
    intro hnil
    have hall := List.dropWhile_eq_nil_iff.mp hnil _ h
    simp at hall
  have happ : since name (calls ++ [call]) =
      if (since name calls).isEmpty then [call].dropWhile (· ≠ .trace name) else since name calls ++ [call] :=
    List.dropWhile_append
  rw [happ, if_neg (by simpa using hne)]

theorem balance_append {name : Bytes} {calls : List Call} (h : .trace name ∈ calls) (call : Call) :
    balance name (calls ++ [call]) =
      balance name calls + ([call].count (.trace name) - [call].count (.clean name) : Int) := by
  unfold balance
  rw [since_append h, List.count_append, List.count_append]
  push_cast
  ring

/-- A name that is traced for the first time. -/
theorem balance_first {name : Bytes} {calls : List Call} (h : .trace name ∉ calls) :
    balance name (calls ++ [.trace name]) = 1 := by
  have hsince : since name (calls ++ [.trace name]) = [.trace name] := by
    have happ : since name (calls ++ [.trace name]) =
        if (since name calls).isEmpty then [Call.trace name].dropWhile (· ≠ .trace name)
        else since name calls ++ [.trace name] :=
      List.dropWhile_append
    rw [happ, since_eq_nil h]
    simp
  unfold balance
  rw [hsince]
  simp

/-- The tally is sorted, lists the traced names and counts them right. -/
structure Tallied (calls : List Call) (l : List (Bytes × Int)) : Prop where
  sorted : Sorted chars l
  names : ∀ name, name ∈ l.map Prod.fst ↔ .trace name ∈ calls
  counts : ∀ e ∈ l, e.2 = balance e.1 calls

theorem Tallied.trace {calls : List Call} {l : List (Bytes × Int)} (h : Tallied calls l) (name : Bytes) :
    Tallied (calls ++ [.trace name]) (bump chars name l) := by
  have hother : ∀ e ∈ l, e.1 ≠ name → e.2 = balance e.1 (calls ++ [.trace name]) := by
    intro e he hne
    have htraced := (h.names e.1).mp (List.mem_map_of_mem he)
    rw [balance_append htraced, h.counts e he]
    simp [Ne.symm hne]
  refine ⟨h.sorted.bump name, ?_, ?_⟩
  · intro other
    rw [mem_names_bump chars_injective h.sorted, h.names, List.mem_append, List.mem_singleton, Call.trace.injEq]
    exact or_comm
  · have hnodup := h.sorted.nodup
    rcases bump_cases name h.sorted with ⟨front, back, rfl, hbump, hfront, hback⟩ | ⟨front, e, back, rfl, hbump, hkey⟩
    · -- a new name
      have hnew : Call.trace name ∉ calls := by
        rw [← h.names]
        intro hmem
        obtain ⟨e, he, rfl⟩ := List.mem_map.mp hmem
        rcases List.mem_append.mp he with he | he
        · exact (hfront e he).false
        · exact (hback e he).false
      rw [hbump]
      intro e he
      rcases List.mem_append.mp he with he | he
      · exact hother e (List.mem_append_left _ he) fun heq => (hfront e he).ne (congrArg chars heq)
      · rcases List.mem_cons.mp he with rfl | he
        · exact (balance_first hnew).symm
        · exact hother e (List.mem_append_right _ he) fun heq => (hback e he).ne' (congrArg chars heq)
    · -- a name that stands in the list
      obtain rfl := chars_injective hkey
      have htraced := (h.names e.1).mp (by simp)
      rw [List.map_append, List.map_cons] at hnodup
      obtain ⟨-, hnodupb, hdisjoint⟩ := List.nodup_append'.mp hnodup
      rw [hbump]
      intro f hf
      rcases List.mem_append.mp hf with hf | hf
      · refine hother f (List.mem_append_left _ hf) fun heq => ?_
        exact hdisjoint (List.mem_map_of_mem hf) (heq ▸ List.mem_cons_self)
      · rcases List.mem_cons.mp hf with rfl | hf
        · rw [balance_append htraced, ← h.counts e (by simp)]
          simp
        · refine hother f (by simp [hf]) fun heq => ?_
          exact (List.nodup_cons.mp hnodupb).1 (heq ▸ List.mem_map_of_mem hf)

theorem Tallied.clean {calls : List Call} {l : List (Bytes × Int)} (h : Tallied calls l) (name : Bytes) :
    Tallied (calls ++ [.clean name]) (lower name l) := by
  refine ⟨h.sorted.lower name, ?_, ?_⟩
  · intro other
    rw [names_lower, h.names]
    simp
  · intro f hf
    obtain ⟨e, he, rfl⟩ := List.mem_map.mp hf
    have htraced := (h.names e.1).mp (List.mem_map_of_mem he)
    have hcount := h.counts e he
    by_cases heq : e.1 = name
    · rw [if_pos heq, balance_append htraced, ← hcount, heq]
      simp
      ring
    · rw [if_neg heq, balance_append htraced, ← hcount]
      simp [Ne.symm heq]

/-- The names that were traced. -/
def tracedNames (calls : List Call) : List Bytes :=
  (calls.filterMap fun
    | .trace name => some name
    | .clean _ => none).dedup

/-- The `int` counters can count a call after others: the comparisons with the names that were traced, and the calls
for the name, or the names if it is a new one. -/
def CountsNext (done : List Call) : Call → Prop
  | .trace name => (∀ other, .trace other ∈ done → Countable name other) ∧
      (.trace name ∈ done → inInt (balance name done + 1)) ∧
      (.trace name ∉ done → inInt ((tracedNames done).length + 1))
  | .clean name => .trace name ∈ done → inInt (balance name done - 1)

theorem Tallied.mem_iff {calls : List Call} {l : List (Bytes × Int)} (h : Tallied calls l) (name : Bytes) :
    (∃ e ∈ l, e.1 = name) ↔ .trace name ∈ calls := by
  rw [← h.names]
  simp

theorem Tallied.length {calls : List Call} {l : List (Bytes × Int)} (h : Tallied calls l) :
    l.length = (tracedNames calls).length := by
  have hperm : (l.map Prod.fst).Perm (tracedNames calls) := by
    refine (List.perm_ext_iff_of_nodup h.sorted.nodup (List.nodup_dedup _)).mpr fun name => ?_
    rw [h.names, List.mem_dedup, List.mem_filterMap]
    constructor
    · exact fun hmem => ⟨_, hmem, rfl⟩
    · rintro ⟨call, hmem, hcall⟩
      cases call with
      | trace other =>
        obtain rfl := Option.some.inj hcall
        exact hmem
      | clean other => cases hcall
  rw [← hperm.length_eq, List.length_map]

/-- There is room in the list for a name if the counters can count it. -/
theorem Tallied.room_iff {calls : List Call} {l : List (Bytes × Int)} (h : Tallied calls l) (name : Bytes) :
    Room name l l.length ↔ CountsNext calls (.trace name) := by
  constructor
  · rintro ⟨hcompared, hcounted, hlisted⟩
    refine ⟨fun other hother => ?_, fun hmem => ?_, fun hmem => ?_⟩
    · obtain ⟨e, he, rfl⟩ := (h.mem_iff other).mpr hother
      exact hcompared e he
    · obtain ⟨e, he, rfl⟩ := (h.mem_iff name).mpr hmem
      rw [← h.counts e he]
      exact hcounted e he rfl
    · rw [← h.length]
      exact hlisted fun e he heq => hmem ((h.mem_iff name).mp ⟨e, he, heq⟩)
  · rintro ⟨hcompared, hcounted, hlisted⟩
    refine ⟨fun e he => hcompared e.1 ((h.mem_iff e.1).mp ⟨e, he, rfl⟩), ?_, fun hne => ?_⟩
    · rintro e he rfl
      rw [h.counts e he]
      exact hcounted ((h.mem_iff e.1).mp ⟨e, he, rfl⟩)
    · rw [h.length]
      refine hlisted fun hmem => ?_
      obtain ⟨e, he, heq⟩ := (h.mem_iff name).mpr hmem
      exact hne e he heq

theorem Tallied.clean_iff {calls : List Call} {l : List (Bytes × Int)} (h : Tallied calls l) (name : Bytes) :
    (∀ e ∈ l, e.1 = name → inInt (e.2 - 1)) ↔ CountsNext calls (.clean name) := by
  constructor
  · intro hall hmem
    obtain ⟨e, he, rfl⟩ := (h.mem_iff name).mpr hmem
    rw [← h.counts e he]
    exact hall e he rfl
  · rintro hcounts e he rfl
    rw [h.counts e he]
    exact hcounts ((h.mem_iff e.1).mp ⟨e, he, rfl⟩)

theorem step_spec {calls : List Call} {t : Trace} {nodes : List (Nat × (Bytes × Int))} (hl : Listed t nodes)
    (htallied : Tallied calls (nodes.map Prod.snd)) (hcalls : ∀ call ∈ calls, call.name ≠ []) {call : Call}
    (hcall : call.name ≠ []) :
    Returns (step t call) (CountsNext calls call) fun t' =>
      ∃ nodes', Listed t' nodes' ∧ nodes'.map Prod.snd = tallyStep (nodes.map Prod.snd) call := by
  cases call with
  | clean name => exact (clean_spec hl name).imp (htallied.clean_iff name) fun _ h => h
  | trace name =>
    have hnames : ∀ node ∈ nodes, node.2.1 ≠ [] := fun node hnode =>
      hcalls _ ((htallied.mem_iff _).mp ⟨node.2, List.mem_map_of_mem hnode, rfl⟩)
    have hroom := htallied.room_iff name
    rw [List.length_map] at hroom
    exact (trace_spec hl hcall hnames htallied.sorted).imp hroom fun _ h => h

end Jericho.Util.Trace
