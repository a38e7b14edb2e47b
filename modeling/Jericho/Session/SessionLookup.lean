import Jericho.Session.SessionManager

/-! What a session lookup finds, and what it leaves of the list. -/
namespace Jericho
open StdText Server

/-- `sessionValid`: the address of the request is not looked at. -/
def SessionManager.sessionValid (now : Int) (req : Request) : SessionManager → Bool × SessionManager
  | [] => (false, [])
  | sesh :: rest =>
    if localhost = sesh.addr then
      if sesh.expired now then (false, rest) else (true, sesh :: rest)
    else
      let (found, rest') := sessionValid now req rest
      (found, sesh :: rest')

/-- Some session of the address has not expired. -/
def SessionManager.Live (now : Int) (addr : Bytes) (sm : SessionManager) : Prop :=
  ∃ sesh ∈ sm, sesh.addr = addr ∧ sesh.expired now = false

/-- The first session of the address has not expired. -/
def SessionManager.FirstLive (now : Int) (addr : Bytes) (sm : SessionManager) : Prop :=
  ∃ sesh, sm.find? (·.addr = addr) = some sesh ∧ sesh.expired now = false

/-- What is left of a list of sessions: in the same order, and with all that have not expired. -/
structure Cleaned (now : Int) (sm left : SessionManager) : Prop where
  order : left.Sublist sm
  unexpired : left.filter (!·.expired now) = sm.filter (!·.expired now)

/-- A lookup that succeeds if there is a session to find, and drops expired sessions at most. -/
structure LookupMeant (now : Int) (addr : Bytes) (sm : SessionManager) (found : Bool) (left : SessionManager) :
    Prop where
  found : found = true ↔ sm.Live now addr
  left : Cleaned now sm left

theorem Cleaned.cons {now : Int} {sm left : SessionManager} (sesh : Session) (h : Cleaned now sm left) :
    Cleaned now (sesh :: sm) (sesh :: left) :=
  ⟨h.order.cons_cons sesh, by rw [List.filter_cons, List.filter_cons, h.unexpired]⟩

theorem Cleaned.refl (now : Int) (sm : SessionManager) : Cleaned now sm sm := ⟨List.Sublist.refl sm, rfl⟩

namespace SessionManager
variable {now : Int} {addr : Bytes} {sm : SessionManager}

theorem firstLive_cons (sesh : Session) :
    FirstLive now addr (sesh :: sm) ↔
      if addr = sesh.addr then sesh.expired now = false else FirstLive now addr sm := by
  unfold FirstLive
  rw [List.find?_cons]
  by_cases haddr : addr = sesh.addr
  · rw [if_pos haddr, decide_eq_true haddr.symm]
    simp
  · rw [if_neg haddr, decide_eq_false (Ne.symm haddr)]

theorem FirstLive.live (h : FirstLive now addr sm) : Live now addr sm := by
  obtain ⟨sesh, hfind, hlive⟩ := h
  have haddr := List.find?_some hfind
  exact ⟨sesh, List.mem_of_find?_eq_some hfind, by simpa using haddr, hlive⟩

/-- A lookup finds a session if the first one of the address has not expired. -/
theorem verify_spec (now : Int) (cookie : Cookie) (sm : SessionManager) :
    ((verify now cookie sm).1.isSome ↔ sm.FirstLive now cookie.addr) ∧ Cleaned now sm (verify now cookie sm).2 := by
  induction sm with
  | nil =>
    refine ⟨iff_of_false Bool.false_ne_true ?_, Cleaned.refl now []⟩
    rintro ⟨_, h, _⟩
    exact absurd h (Option.some_ne_none _).symm
  | cons sesh rest ih =>
    rw [verify, firstLive_cons]
    split_ifs with haddr hexpired
    · refine ⟨iff_of_false Bool.false_ne_true (by rw [hexpired]; decide), List.sublist_cons_self sesh rest, ?_⟩
      rw [List.filter_cons_of_neg]
      simpa using hexpired
    · exact ⟨iff_of_true rfl (Bool.eq_false_iff.mpr hexpired), Cleaned.refl now _⟩
    · exact ⟨ih.1, ih.2.cons sesh⟩

theorem sessionValid_eq (now : Int) (req : Request) (sm : SessionManager) :
    sessionValid now req sm =
      ((verify now { addr := localhost } sm).1.isSome, (verify now { addr := localhost } sm).2) := by
  induction sm with
  | nil => rfl
  | cons sesh rest ih =>
    rw [sessionValid, verify, ih]
    split_ifs <;> rfl

theorem lookupMeant_iff {found : Bool} {left : SessionManager} (h : Cleaned now sm left) :
    LookupMeant now addr sm found left ↔ (found = true ↔ Live now addr sm) :=
  ⟨fun hmeant => hmeant.found, fun hfound => ⟨hfound, h⟩⟩

/-- The first session of an address decides. For `verify` it has to be live if any is, and for `sessionValid`,
which takes every request to come from this machine, its first local session has to be live if and only if a
session of the address of the request is. -/
theorem lookup_meant_iff (now : Int) (cookie : Cookie) (req : Request) (sm : SessionManager) :
    (LookupMeant now cookie.addr sm (verify now cookie sm).1.isSome (verify now cookie sm).2 ↔
      (sm.Live now cookie.addr → sm.FirstLive now cookie.addr)) ∧
    (LookupMeant now req.client.address sm (sessionValid now req sm).1 (sessionValid now req sm).2 ↔
      (sm.FirstLive now localhost ↔ sm.Live now req.client.address)) := by
  constructor
  · obtain ⟨hfound, hleft⟩ := verify_spec now cookie sm
    rw [lookupMeant_iff hleft, hfound]
    exact ⟨fun h => h.mpr, fun h => ⟨FirstLive.live, h⟩⟩
  · obtain ⟨hfound, hleft⟩ := verify_spec now { addr := localhost } sm
    rw [sessionValid_eq, lookupMeant_iff hleft, hfound]

/-- An expired session in front of a live one hides it. -/
theorem lookup_hidden :
    ¬ LookupMeant 5 localhost [⟨localhost, 0, 0⟩, ⟨localhost, 10, 0⟩]
        (verify 5 { addr := localhost } [⟨localhost, 0, 0⟩, ⟨localhost, 10, 0⟩]).1.isSome
        (verify 5 { addr := localhost } [⟨localhost, 0, 0⟩, ⟨localhost, 10, 0⟩]).2 ∧
      ¬ LookupMeant 5 localhost [⟨localhost, 0, 0⟩, ⟨localhost, 10, 0⟩]
        (sessionValid 5 { client := ⟨[], Nat.zero_le _, localhost⟩ } [⟨localhost, 0, 0⟩, ⟨localhost, 10, 0⟩]).1
        (sessionValid 5 { client := ⟨[], Nat.zero_le _, localhost⟩ } [⟨localhost, 0, 0⟩, ⟨localhost, 10, 0⟩]).2 := by
  have hlive : SessionManager.Live 5 localhost [⟨localhost, 0, 0⟩, ⟨localhost, 10, 0⟩] :=
    ⟨_, List.mem_cons_of_mem _ List.mem_cons_self, rfl, rfl⟩
  constructor
  · intro h
    exact Bool.false_ne_true (h.found.mpr hlive)
  · intro h
    exact Bool.false_ne_true (h.found.mpr hlive)

end SessionManager
end Jericho
