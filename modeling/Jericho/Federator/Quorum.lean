import Mathlib.Tactic.Linarith
import Jericho.Federator.Aggregator

/-! When `fuse` succeeds, and when a round is complete. -/
namespace Jericho.Federator.Aggregator
open StdText Util Runs

/-- Clients join once, and send weights only then. -/
def Joining (done : List Call) : Call → Prop
  | .addClient client => client ∉ (run done).clients
  | .storeWeights client _ => client ∈ (run done).clients
  | .dropClient _ => False
  | .fuse => True

/-- An aggregator with the clients that stored weights since its last successful `fuse`. -/
structure Round where
  aggregator : Aggregator := {}
  fresh : List Bytes := []

def Round.step (r : Round) (call : Call) : Round where
  aggregator := r.aggregator.step call
  fresh :=
    match call with
    | .storeWeights client _ => r.fresh.insert client
    | .fuse => if r.aggregator.fuse then [] else r.fresh
    | _ => r.fresh

def round (calls : List Call) : Round := calls.foldl Round.step {}

/-- The distinct clients that stored weights since the last successful `fuse`. -/
def fresh (calls : List Call) : List Bytes := (round calls).fresh

@[simp]
theorem round_append (calls : List Call) (call : Call) : round (calls ++ [call]) = (round calls).step call :=
  List.foldl_concat ..

theorem round_aggregator (calls : List Call) : (round calls).aggregator = run calls := by
  induction calls using List.reverseRecOn with
  | nil => rfl
  | append_singleton calls call ih =>
    rw [round_append, run_append, ← ih]
    rfl

@[simp]
theorem fresh_store (calls : List Call) (client weights : Bytes) :
    fresh (calls ++ [.storeWeights client weights]) = (fresh calls).insert client := by
  unfold fresh
  rw [round_append]
  rfl

@[simp]
theorem fresh_fuse (calls : List Call) :
    fresh (calls ++ [.fuse]) = if (run calls).fuse then [] else fresh calls := by
  unfold fresh
  rw [round_append, ← round_aggregator]
  rfl

@[simp]
theorem fresh_addClient (calls : List Call) (client : Bytes) : fresh (calls ++ [.addClient client]) = fresh calls := by
  unfold fresh
  rw [round_append]
  rfl

/-- Each client that stored weights since the last fusion counts once, and their number exceeds the
fraction of the clients. -/
def Fresh (calls : List Call) : Prop :=
  (run calls).clients.length ≠ 0 ∧
    (run calls).quorum < ((fresh calls).length : ℚ) / ((run calls).clients.length : ℚ)

/-- Every client has stored weights, in this round or an earlier one. -/
def Complete (calls : List Call) : Prop := ∀ client ∈ (run calls).clients, client ∈ (run calls).weights

/-- What holds of the tables while clients join once and send weights only then. -/
structure Rounds (calls : List Call) : Prop where
  members : (run calls).Members
  quorum : (run calls).quorum = 13421773 / 16777216
  nodup : (fresh calls).Nodup
  stored : ∀ client ∈ fresh calls, client ∈ (run calls).weights

theorem rounds_nil : Rounds [] :=
  ⟨inOrder_nil.members, rfl, List.nodup_nil, fun _ hclient => absurd hclient List.not_mem_nil⟩

theorem Rounds.step {calls : List Call} {call : Call} (h : Rounds calls) (hcall : Joining calls call) :
    Rounds (calls ++ [call]) := by
  cases call with
  | addClient client =>
    refine ⟨?_, ?_, ?_, ?_⟩
    · rw [run_append]
      exact (h.members.addClient_iff client).mpr hcall
    · rw [run_append]
      exact h.quorum
    · rw [fresh_addClient]
      exact h.nodup
    · rw [fresh_addClient, run_append]
      exact h.stored
  | storeWeights client weights =>
    refine ⟨?_, ?_, ?_, ?_⟩
    · rw [run_append]
      exact (h.members.storeWeights_iff client weights).mpr hcall
    · rw [run_append]
      exact h.quorum
    · rw [fresh_store]
      exact h.nodup.insert
    · rw [fresh_store, run_append]
      intro other hother
      apply (AList.mem_insert _).mpr
      rcases List.mem_insert_iff.mp hother with rfl | hother
      · exact .inl rfl
      · exact .inr (h.stored other hother)
  | dropClient client => exact absurd hcall id
  | fuse =>
    refine ⟨?_, ?_, ?_, ?_⟩
    · rw [run_append]
      exact h.members
    · rw [run_append]
      exact h.quorum
    · rw [fresh_fuse]
      split
      · exact List.nodup_nil
      · exact h.nodup
    · rw [fresh_fuse, run_append]
      intro other hother
      split at hother
      · exact absurd hother List.not_mem_nil
      · exact h.stored other hother

theorem rounds_of_joining {calls : List Call} (h : Obeys Joining calls) : Throughout Rounds calls :=
  h.throughout rounds_nil fun _ _ => Rounds.step

/-- The quotient of the sizes exceeds a proper fraction when it is not zero. -/
theorem quorumMet_iff {a : Aggregator} (h0 : 0 ≤ a.quorum) (h1 : a.quorum < 1) :
    a.quorumMet ↔ a.clients.length ≠ 0 ∧ a.clients.length ≤ a.weights.keys.length := by
  unfold quorumMet
  by_cases hempty : a.clients.length = 0
  · simp [hempty]
  · rw [if_pos hempty, decide_eq_true_iff]
    have hpos : 0 < a.clients.length := Nat.pos_of_ne_zero hempty
    constructor
    · intro hless
      refine ⟨hempty, ?_⟩
      have hquotient : 0 < a.weights.keys.length / a.clients.length := by
        have hcast := h0.trans_lt hless
        exact_mod_cast hcast
      exact (Nat.div_pos_iff.mp hquotient).2
    · rintro ⟨-, hle⟩
      have hquotient : 1 ≤ a.weights.keys.length / a.clients.length := Nat.div_pos hle hpos
      have hcast : (1 : ℚ) ≤ (a.weights.keys.length / a.clients.length : ℕ) := by exact_mod_cast hquotient
      exact h1.trans_le hcast

/-- Where weights are kept for members only, there are as many as clients when none is missing. -/
theorem Members.length_le_iff {a : Aggregator} (h : a.Members) :
    a.clients.length ≤ a.weights.keys.length ↔ ∀ client ∈ a.clients, client ∈ a.weights := by
  have hkeys : a.weights.keys.Nodup := a.weights.keys_nodup
  have hsub : a.weights.keys ⊆ a.clients := fun key hkey => h.clients key hkey
  constructor
  · intro hle client hclient
    have hperm := (hkeys.subperm hsub).perm_of_length_le hle
    exact hperm.mem_iff.mpr hclient
  · intro hall
    exact (h.nodup.subperm fun client hclient => hall client hclient).length_le

/-- What the code decides. -/
theorem Rounds.fuse_iff {calls : List Call} (h : Rounds calls) :
    (run calls).fuse ↔ (run calls).clients.length ≠ 0 ∧ Complete calls := by
  have h0 : 0 ≤ (run calls).quorum := by
    rw [h.quorum]
    norm_num
  have h1 : (run calls).quorum < 1 := by
    rw [h.quorum]
    norm_num
  unfold fuse
  rw [quorumMet_iff h0 h1, h.members.length_le_iff]
  rfl

/-- Among clients that join once and send weights only then, `fuse` succeeds at the right times
exactly when at each of its calls that has clients everyone's weights are there if more than the
fraction of them is fresh, and only then. -/
theorem fuse_fresh_iff (calls : List Call) (h : Obeys Joining calls) :
    (∀ done, done ++ [.fuse] <+: calls → ((run done).fuse ↔ Fresh done)) ↔
      ∀ done, done ++ [.fuse] <+: calls → (run done).clients.length ≠ 0 →
        (Complete done ∧ (run done).quorum * (run done).clients.length < (fresh done).length ∨
          ¬ Complete done ∧ (fresh done).length ≤ (run done).quorum * (run done).clients.length) := by
  refine forall_congr' fun done => forall_congr' fun hdone => ?_
  have hrounds : Rounds done := rounds_of_joining h done ((List.prefix_append done [.fuse]).trans hdone)
  rw [hrounds.fuse_iff]
  unfold Fresh
  by_cases hempty : (run done).clients.length = 0
  · simp [hempty]
  · have hpos : (0 : ℚ) < (run done).clients.length := by exact_mod_cast Nat.pos_of_ne_zero hempty
    rw [lt_div_iff₀ hpos, ← not_lt]
    by_cases hcomplete : Complete done <;> simp [hempty, hcomplete]

/-- A client that joins, sends its weights, and a fusion. -/
def firstRound : List Call := [.addClient (lit "a"), .storeWeights (lit "a") (lit "w"), .fuse]

theorem firstRound_joining : Obeys Joining firstRound := by
  have hnew : Joining [] (.addClient (lit "a")) := List.not_mem_nil
  have hmember : Joining [.addClient (lit "a")] (.storeWeights (lit "a") (lit "w")) := by
    unfold Joining
    decide
  have hfuse : Joining [.addClient (lit "a"), .storeWeights (lit "a") (lit "w")] .fuse := trivial
  exact ((obeys_nil.concat hnew).concat hmember).concat hfuse

theorem fuse_firstRound :
    (∀ done, done ++ [.fuse] <+: firstRound → ((run done).fuse ↔ Fresh done)) ↔
      ∀ done, done ++ [.fuse] <+: firstRound → (run done).clients.length ≠ 0 →
        (Complete done ∧ (run done).quorum * (run done).clients.length < (fresh done).length ∨
          ¬ Complete done ∧ (fresh done).length ≤ (run done).quorum * (run done).clients.length) :=
  fuse_fresh_iff firstRound firstRound_joining

/-- The fusion after the first one succeeds again, with the weights of the round before. -/
theorem fuse_stale :
    ¬ ∀ calls, Obeys Joining calls →
      ∀ done, done ++ [.fuse] <+: calls → ((run done).fuse ↔ Fresh done) := by
  intro h
  have hagain : Joining firstRound .fuse := trivial
  have hjoining := firstRound_joining.concat hagain
  have hrounds := rounds_of_joining hjoining firstRound (List.prefix_append firstRound [.fuse])
  have hcomplete : Complete firstRound := by
    unfold Complete
    decide
  have hfuse : (run firstRound).fuse := hrounds.fuse_iff.mpr ⟨by decide, hcomplete⟩
  have hnone : fresh firstRound = [] :=
    (fresh_fuse [.addClient (lit "a"), .storeWeights (lit "a") (lit "w")]).trans (if_pos hfuse)
  have hfresh := ((h _ hjoining firstRound List.prefix_rfl).mp hfuse).2
  rw [hnone, hrounds.quorum] at hfresh
  norm_num at hfresh

end Jericho.Federator.Aggregator
