import Jericho.Cluster.Cluster
import Jericho.Library.FairShare

/-! The rounds of a quorum: `quorumSelect` chooses members and `quorumUpdate` counts their rounds. -/
namespace Jericho.Clustering
open StdText Util FairShare

/-- `std::sort` with a `QuorumSorter`, in some order of the members with equal rounds. -/
structure QuorumSorter where
  sort : List ClusterQuorum → List ClusterQuorum
  perm : ∀ vec, (sort vec).Perm vec
  sorted : ∀ vec, (sort vec).Pairwise fun struct1 struct2 => struct1.rounds ≤ struct2.rounds

/-- A sort that keeps members with equal rounds in order. -/
def QuorumSorter.stable : QuorumSorter where
  sort vec := vec.mergeSort fun struct1 struct2 => struct1.rounds ≤ struct2.rounds
  perm vec := List.mergeSort_perm vec _
  sorted vec := by
    have htrans (a b c : ClusterQuorum) (hab : decide (a.rounds ≤ b.rounds) = true)
        (hbc : decide (b.rounds ≤ c.rounds) = true) : decide (a.rounds ≤ c.rounds) = true :=
      decide_eq_true ((of_decide_eq_true hab).trans (of_decide_eq_true hbc))
    have htotal (a b : ClusterQuorum) : (decide (a.rounds ≤ b.rounds) || decide (b.rounds ≤ a.rounds)) = true := by
      rw [Bool.or_eq_true, decide_eq_true_iff, decide_eq_true_iff]
      exact le_total a.rounds b.rounds
    exact (List.pairwise_mergeSort htrans htotal vec).imp of_decide_eq_true

/-- The key of a member on this host. -/
def localName (port : Bytes) : Bytes := hostPort (lit "127.0.0.1") port

/-- A member after one more round. -/
def ClusterQuorum.counted (q : ClusterQuorum) : ClusterQuorum := { q with rounds := q.rounds + 1, status := .dormant }

namespace ClusterIndex

def members (index : ClusterIndex) : List ClusterQuorum := index.quorum.entries.map Sigma.snd

def quorumSelect (index : ClusterIndex) (sorter : QuorumSorter) (num : Int) : List Bytes :=
  let vec := sorter.sort index.members
  -- A negative number is compared with the size as an unsigned one.
  if num < 0 ∨ vec.length < num then [] else (vec.take num.toNat).map ClusterQuorum.port

/-- A round of a member. A port without a member leaves a null pointer behind its key. -/
def countRound (index : ClusterIndex) (p : Bytes) : Exec ClusterIndex :=
  match index.quorum.lookup (localName p) with
  | none => .error .undefined
  | some q =>
    if inInt (q.rounds + 1) then .ok (index.setQuorum (lit "127.0.0.1") p q.counted) else .error .undefined

def quorumUpdate (index : ClusterIndex) (ports : List Bytes) : Exec ClusterIndex := ports.foldlM countRound index

/-- Members are selected and their rounds are counted, some number of times. -/
def play (index : ClusterIndex) (steps : List (QuorumSorter × Nat)) : Exec ClusterIndex :=
  steps.foldlM (fun index step => index.quorumUpdate (index.quorumSelect step.1 step.2)) index

/-- Every member is on this host and stands under its name. -/
def Local (index : ClusterIndex) : Prop :=
  ∀ name, ∀ q ∈ index.quorum.lookup name, q.host = lit "127.0.0.1" ∧ name = hostPort q.host q.port

def names (index : ClusterIndex) : Finset Bytes := index.quorum.keys.toFinset

def rounds (index : ClusterIndex) (name : Bytes) : Int := (index.quorum.lookup name).elim 0 ClusterQuorum.rounds

end ClusterIndex

theorem localName_injective : Function.Injective localName := fun _ _ h => List.append_cancel_left h

namespace ClusterIndex
variable {index index' : ClusterIndex} {name : Bytes} {q : ClusterQuorum}

theorem mem_names : name ∈ index.names ↔ name ∈ index.quorum := List.mem_toFinset.trans AList.mem_keys.symm

theorem mem_members : q ∈ index.members ↔ ∃ name, index.quorum.lookup name = some q := by
  unfold members
  rw [List.mem_map]
  constructor
  · rintro ⟨⟨name, q⟩, he, rfl⟩
    exact ⟨name, AList.mem_lookup_iff.mpr he⟩
  · rintro ⟨name, hq⟩
    exact ⟨⟨name, q⟩, AList.mem_lookup_iff.mp hq, rfl⟩

theorem rounds_of_lookup (h : index.quorum.lookup name = some q) : index.rounds name = q.rounds := by
  unfold rounds
  rw [h]
  rfl

theorem Local.name_eq (h : index.Local) (hq : index.quorum.lookup name = some q) : name = localName q.port := by
  obtain ⟨hhost, hname⟩ := h name q hq
  rw [hname, hhost, localName]

theorem Local.lookup_port (h : index.Local) (hq : q ∈ index.members) :
    index.quorum.lookup (localName q.port) = some q := by
  obtain ⟨name, hlookup⟩ := mem_members.mp hq
  rwa [← h.name_eq hlookup]

/-- The members of a local quorum have different ports. -/
theorem Local.nodup_ports (h : index.Local) : (index.members.map ClusterQuorum.port).Nodup := by
  have hkeys : (index.members.map ClusterQuorum.port).map localName = index.quorum.keys := by
    unfold members AList.keys List.keys
    rw [List.map_map, List.map_map]
    refine List.map_congr_left fun e he => ?_
    exact (h.name_eq (AList.mem_lookup_iff.mpr he)).symm
  exact (hkeys ▸ index.quorum.keys_nodup).of_map localName

theorem card_names (index : ClusterIndex) : index.names.card = index.members.length := by
  unfold names members
  rw [List.toFinset_card_of_nodup index.quorum.keys_nodup, AList.keys, List.keys, List.length_map, List.length_map]

/-- What is selected: different members, as many as wanted, of those that have least rounds. -/
theorem Local.select (h : index.Local) (sorter : QuorumSorter) {k : Nat} (hk : k ≤ index.members.length) :
    (index.quorumSelect sorter k).length = k ∧ (index.quorumSelect sorter k).Nodup ∧
      (∀ p ∈ index.quorumSelect sorter k, ∃ q ∈ index.members, q.port = p) ∧
      Least index.names ((index.quorumSelect sorter k).map localName).toFinset index.rounds := by
  let vec := sorter.sort index.members
  have hperm : vec.Perm index.members := sorter.perm index.members
  have hselect : index.quorumSelect sorter k = (vec.take k).map ClusterQuorum.port := by
    unfold quorumSelect
    dsimp only
    rw [if_neg (by rw [(sorter.perm index.members).length_eq]; omega), Int.toNat_natCast]
  have hmember : ∀ q ∈ vec.take k, q ∈ index.members := fun q hq => hperm.mem_iff.mp (List.mem_of_mem_take hq)
  rw [hselect]
  refine ⟨?_, ?_, ?_, ?_, ?_⟩
  · rw [List.length_map, List.length_take, hperm.length_eq, Nat.min_eq_left hk]
  · have hnodup := (hperm.map ClusterQuorum.port).nodup_iff.mpr h.nodup_ports
    exact hnodup.sublist ((List.take_sublist k vec).map ClusterQuorum.port)
  · intro p hp
    obtain ⟨q, hq, rfl⟩ := List.mem_map.mp hp
    exact ⟨q, hmember q hq, rfl⟩
  · intro name hname
    obtain ⟨p, hp, rfl⟩ := List.mem_map.mp (List.mem_toFinset.mp hname)
    obtain ⟨q, hq, rfl⟩ := List.mem_map.mp hp
    exact mem_names.mpr (AList.lookup_isSome.mp (h.lookup_port (hmember q hq) ▸ rfl))
  · intro name hname other hother hout
    obtain ⟨p, hp, rfl⟩ := List.mem_map.mp (List.mem_toFinset.mp hname)
    obtain ⟨q, hq, rfl⟩ := List.mem_map.mp hp
    obtain ⟨r, hr⟩ := Option.isSome_iff_exists.mp (AList.lookup_isSome.mpr (mem_names.mp hother))
    rw [rounds_of_lookup (h.lookup_port (hmember q hq)), rounds_of_lookup hr]
    -- The other member stands behind those taken.
    have hdrop : r ∈ vec.drop k := by
      have hvec : r ∈ vec.take k ++ vec.drop k := by
        rw [List.take_append_drop]
        exact hperm.mem_iff.mpr (mem_members.mpr ⟨other, hr⟩)
      refine (List.mem_append.mp hvec).resolve_left fun htake => hout ?_
      rw [h.name_eq hr]
      exact List.mem_toFinset.mpr (List.mem_map_of_mem (List.mem_map_of_mem htake))
    have hsorted := sorter.sorted index.members
    rw [← List.take_append_drop k (sorter.sort index.members)] at hsorted
    exact (List.pairwise_append.mp hsorted).2.2 q hq r hdrop

/-- One round of a member is counted, if the counter can count it. -/
theorem countRound_eq_ok {p : Bytes} : index.countRound p = .ok index' ↔
    ∃ q, index.quorum.lookup (localName p) = some q ∧ inInt (q.rounds + 1) ∧
      index' = index.setQuorum (lit "127.0.0.1") p q.counted := by
  unfold countRound
  cases index.quorum.lookup (localName p) with
  | none =>
    constructor
    · intro h
      cases h
    · rintro ⟨q, hq, -⟩
      cases hq
  | some q =>
    dsimp only
    split_ifs with hfits
    · constructor
      · intro h
        exact ⟨q, rfl, hfits, (Except.ok.inj h).symm⟩
      · rintro ⟨_, hq, -, rfl⟩
        obtain rfl := Option.some.inj hq
        rfl
    · constructor
      · intro h
        cases h
      · rintro ⟨_, hq, hin, -⟩
        obtain rfl := Option.some.inj hq
        exact absurd hin hfits

theorem countRound_lookup {p : Bytes} (h : index.countRound p = .ok index') (name : Bytes) :
    index'.quorum.lookup name =
      if name = localName p then (index.quorum.lookup name).map ClusterQuorum.counted
      else index.quorum.lookup name := by
  obtain ⟨q, hq, -, rfl⟩ := countRound_eq_ok.mp h
  split_ifs with hname
  · rw [hname, hq]
    exact AList.lookup_insert _
  · exact AList.lookup_insert_ne hname

/-- An update counts a round for each of its ports. -/
theorem quorumUpdate_lookup {ports : List Bytes} (hnodup : ports.Nodup) (h : index.quorumUpdate ports = .ok index')
    (name : Bytes) :
    index'.quorum.lookup name =
      if name ∈ ports.map localName then (index.quorum.lookup name).map ClusterQuorum.counted
      else index.quorum.lookup name := by
  induction ports generalizing index with
  | nil =>
    obtain rfl := Except.ok.inj h
    exact (if_neg List.not_mem_nil).symm
  | cons p ports ih =>
    obtain ⟨hp, hnodup⟩ := List.nodup_cons.mp hnodup
    obtain ⟨mid, hcount, hrest⟩ := bind_eq_ok.mp h
    have hpname : localName p ∉ ports.map localName := by
      rw [List.mem_map_of_injective localName_injective]
      exact hp
    rw [ih hnodup hrest, countRound_lookup hcount, List.map_cons]
    by_cases hname : name = localName p
    · subst hname
      rw [if_neg hpname, if_pos rfl, if_pos List.mem_cons_self]
    · rw [if_neg hname]
      exact if_congr (List.mem_cons.trans (or_iff_right hname)).symm rfl rfl

/-- An update goes through if its ports are those of members that can count one more round. -/
theorem quorumUpdate_isOk {ports : List Bytes} (hnodup : ports.Nodup)
    (h : ∀ p ∈ ports, ∃ q, index.quorum.lookup (localName p) = some q ∧ inInt (q.rounds + 1)) :
    ∃ index', index.quorumUpdate ports = .ok index' := by
  induction ports generalizing index with
  | nil => exact ⟨index, rfl⟩
  | cons p ports ih =>
    obtain ⟨hp, hnodup⟩ := List.nodup_cons.mp hnodup
    obtain ⟨⟨q, hq, hfits⟩, hports⟩ := List.forall_mem_cons.mp h
    have hcount : index.countRound p = .ok (index.setQuorum (lit "127.0.0.1") p q.counted) :=
      countRound_eq_ok.mpr ⟨q, hq, hfits, rfl⟩
    have hnext : ∀ p' ∈ ports, ∃ q', (index.setQuorum (lit "127.0.0.1") p q.counted).quorum.lookup (localName p') =
        some q' ∧ inInt (q'.rounds + 1) := by
      intro p' hp'
      have hne : localName p' ≠ localName p := fun heq => hp (localName_injective heq ▸ hp')
      rw [countRound_lookup hcount, if_neg hne]
      exact hports p' hp'
    obtain ⟨index', hrest⟩ := ih hnodup hnext
    exact ⟨index', bind_eq_ok.mpr ⟨_, hcount, hrest⟩⟩

theorem quorumUpdate_names {ports : List Bytes} (hnodup : ports.Nodup) (h : index.quorumUpdate ports = .ok index') :
    index'.names = index.names := by
  ext name
  rw [mem_names, mem_names, ← AList.lookup_isSome, ← AList.lookup_isSome, quorumUpdate_lookup hnodup h]
  split_ifs
  · rw [Option.isSome_map]
  · rfl

theorem quorumUpdate_local {ports : List Bytes} (hnodup : ports.Nodup) (h : index.quorumUpdate ports = .ok index')
    (hlocal : index.Local) : index'.Local := by
  intro name q hq
  rw [Option.mem_def, quorumUpdate_lookup hnodup h] at hq
  split_ifs at hq
  · obtain ⟨old, hold, rfl⟩ := Option.map_eq_some_iff.mp hq
    exact hlocal name old hold
  · exact hlocal name q hq

theorem quorumUpdate_rounds {ports : List Bytes} (hnodup : ports.Nodup) (h : index.quorumUpdate ports = .ok index')
    (hname : name ∈ index.names) :
    index'.rounds name = serve (ports.map localName).toFinset index.rounds name := by
  obtain ⟨q, hq⟩ := Option.isSome_iff_exists.mp (AList.lookup_isSome.mpr (mem_names.mp hname))
  have hlookup := quorumUpdate_lookup hnodup h name
  by_cases hserved : name ∈ ports.map localName
  · rw [if_pos hserved, hq] at hlookup
    rw [serve_of_mem (List.mem_toFinset.mpr hserved), rounds_of_lookup hlookup, rounds_of_lookup hq]
    rfl
  · rw [if_neg hserved, hq] at hlookup
    rw [serve_of_notMem (List.mem_toFinset.not.mpr hserved), rounds_of_lookup hlookup, rounds_of_lookup hq]

/-- A counter that is counted up is still an `int`. -/
theorem quorumUpdate_fits {ports : List Bytes} (h : index.quorumUpdate ports = .ok index')
    (hfits : ∀ name, ∀ q ∈ index.quorum.lookup name, inInt q.rounds) :
    ∀ name, ∀ q ∈ index'.quorum.lookup name, inInt q.rounds := by
  induction ports generalizing index with
  | nil =>
    obtain rfl := Except.ok.inj h
    exact hfits
  | cons p ports ih =>
    obtain ⟨mid, hcount, hrest⟩ := bind_eq_ok.mp h
    refine ih hrest fun name q hq => ?_
    rw [Option.mem_def, countRound_lookup hcount] at hq
    obtain ⟨old, hold, hin, -⟩ := countRound_eq_ok.mp hcount
    split_ifs at hq with hname
    · rw [hname, hold] at hq
      obtain rfl := Option.some.inj hq
      exact hin
    · exact hfits name q hq

/-- A quorum that has been played: its members have had so many rounds together, evenly. -/
structure Rotating (start : ClusterIndex) (r : Int) (total : Nat) (index : ClusterIndex) : Prop where
  isLocal : index.Local
  names : index.names = start.names
  balanced : Balanced index.names index.rounds
  sum : ∑ name ∈ index.names, index.rounds name = index.names.card * r + total
  fits : ∀ name, ∀ q ∈ index.quorum.lookup name, inInt q.rounds

variable {start : ClusterIndex} {r : Int} {total : Nat}

theorem Rotating.init (hlocal : start.Local) (hr : inInt r) (hequal : ∀ q ∈ start.members, q.rounds = r) :
    Rotating start r 0 start := by
  have hrounds : ∀ name ∈ start.names, start.rounds name = r := by
    intro name hname
    obtain ⟨q, hq⟩ := Option.isSome_iff_exists.mp (AList.lookup_isSome.mpr (mem_names.mp hname))
    rw [rounds_of_lookup hq]
    exact hequal q (mem_members.mpr ⟨name, hq⟩)
  refine ⟨hlocal, rfl, .of_eq fun i hi j hj => (hrounds i hi).trans (hrounds j hj).symm, ?_, ?_⟩
  · rw [Finset.sum_congr rfl hrounds, Finset.sum_const, nsmul_eq_mul]
    exact (add_zero _).symm
  · intro name q hq
    rw [hequal q (mem_members.mpr ⟨name, hq⟩)]
    exact hr

theorem Rotating.sum_le (h : Rotating start r total index) :
    index.names.card * r + total ≤ index.names.card * (2 ^ 31 - 1) := by
  rw [← h.sum, ← nsmul_eq_mul]
  refine Finset.sum_le_card_nsmul _ _ _ fun name hname => ?_
  obtain ⟨q, hq⟩ := Option.isSome_iff_exists.mp (AList.lookup_isSome.mpr (mem_names.mp hname))
  have hfits := h.fits name q hq
  rw [rounds_of_lookup hq]
  unfold inInt at hfits
  omega

section Step
variable (sorter : QuorumSorter) {k : Nat}

theorem Rotating.card_selected (h : Rotating start r total index) (hk : k ≤ index.members.length) :
    ((index.quorumSelect sorter k).map localName).toFinset.card = k := by
  obtain ⟨hlength, hnodup, -, -⟩ := h.isLocal.select sorter hk
  rw [List.toFinset_card_of_nodup (hnodup.map localName_injective), List.length_map, hlength]

/-- While the rounds fit if they are spread evenly, a step goes through. -/
theorem Rotating.step_isOk (h : Rotating start r total index) (hk : k ≤ index.members.length)
    (hfits : index.names.card * r + total + k ≤ index.names.card * (2 ^ 31 - 1)) :
    ∃ index', index.quorumUpdate (index.quorumSelect sorter k) = .ok index' := by
  obtain ⟨-, hnodup, hmembers, hleast⟩ := h.isLocal.select sorter hk
  refine quorumUpdate_isOk hnodup fun p hp => ?_
  obtain ⟨q, hq, rfl⟩ := hmembers p hp
  have hlookup := h.isLocal.lookup_port hq
  have hchosen : localName q.port ∈ ((index.quorumSelect sorter k).map localName).toFinset :=
    List.mem_toFinset.mpr (List.mem_map_of_mem hp)
  have hsum : ∑ name ∈ index.names, index.rounds name + ((index.quorumSelect sorter k).map localName).toFinset.card ≤
      index.names.card * (2 ^ 31 - 1) := by
    rw [h.sum, h.card_selected sorter hk]
    exact hfits
  have hlt := h.balanced.lt_of_sum_le hleast hsum hchosen
  have hin := h.fits _ q hlookup
  rw [rounds_of_lookup hlookup] at hlt
  refine ⟨q, hlookup, ?_⟩
  unfold inInt at hin ⊢
  omega

theorem Rotating.step (h : Rotating start r total index) (hk : k ≤ index.members.length)
    (hupdate : index.quorumUpdate (index.quorumSelect sorter k) = .ok index') :
    Rotating start r (total + k) index' := by
  obtain ⟨-, hnodup, hmembers, hleast⟩ := h.isLocal.select sorter hk
  have hnames := quorumUpdate_names hnodup hupdate
  have hrounds : ∀ name ∈ index.names, index'.rounds name = _ := fun name => quorumUpdate_rounds hnodup hupdate
  refine ⟨quorumUpdate_local hnodup hupdate h.isLocal, hnames.trans h.names, ?_, ?_, quorumUpdate_fits hupdate h.fits⟩
  · rw [hnames]
    intro i hi j hj
    rw [hrounds i hi, hrounds j hj]
    exact h.balanced.serve hleast i hi j hj
  · rw [hnames, Finset.sum_congr rfl hrounds, sum_serve hleast.subset, h.sum, h.card_selected sorter hk]
    push_cast
    rw [add_assoc]

end Step

/-- Steps go through exactly if the rounds fit when they are spread evenly, and leave them spread so. -/
theorem Rotating.play (h : Rotating start r total index) {steps : List (QuorumSorter × Nat)}
    (hsteps : ∀ step ∈ steps, step.2 ≤ start.names.card) :
    ((∃ index', index.play steps = .ok index') ↔
        start.names.card * r + total + (steps.map Prod.snd).sum ≤ start.names.card * (2 ^ 31 - 1)) ∧
      ∀ index', index.play steps = .ok index' → Rotating start r (total + (steps.map Prod.snd).sum) index' := by
  induction steps generalizing index total with
  | nil =>
    have hle := h.sum_le
    rw [h.names] at hle
    refine ⟨iff_of_true ⟨index, rfl⟩ ((add_zero _).trans_le hle), fun index' hplay => ?_⟩
    obtain rfl := Except.ok.inj hplay
    exact h
  | cons step steps ih =>
    obtain ⟨hk, hsteps⟩ := List.forall_mem_cons.mp hsteps
    have hsum : ((step :: steps).map Prod.snd).sum = step.2 + (steps.map Prod.snd).sum := List.sum_cons
    rw [← h.names, card_names] at hk
    have hnext {mid : ClusterIndex} (hupdate : index.quorumUpdate (index.quorumSelect step.1 step.2) = .ok mid) :=
      ih (h.step step.1 hk hupdate) hsteps
    rw [hsum]
    refine ⟨⟨?_, ?_⟩, ?_⟩
    · rintro ⟨index', hplay⟩
      obtain ⟨mid, hupdate, hrest⟩ := bind_eq_ok.mp hplay
      have hle := (hnext hupdate).1.mp ⟨index', hrest⟩
      omega
    · intro hle
      have hfits : index.names.card * r + total + step.2 ≤ index.names.card * (2 ^ 31 - 1) := by
        rw [h.names]
        omega
      obtain ⟨mid, hupdate⟩ := h.step_isOk step.1 hk hfits
      have hle' : start.names.card * r + (total + step.2 : ℕ) + (steps.map Prod.snd).sum ≤
          start.names.card * (2 ^ 31 - 1) := by
        omega
      obtain ⟨index', hrest⟩ := (hnext hupdate).1.mpr hle'
      exact ⟨index', bind_eq_ok.mpr ⟨mid, hupdate, hrest⟩⟩
    · intro index' hplay
      obtain ⟨mid, hupdate, hrest⟩ := bind_eq_ok.mp hplay
      rw [← add_assoc]
      exact (hnext hupdate).2 index' hrest

/-- A quorum of new members on this host, whose counters hold what the allocation left there. -/
def ofPorts (ports : List Bytes) (uninitialised : Int) : ClusterIndex :=
  ports.foldr (fun port index => index.setQuorum (lit "127.0.0.1") port
    (.create (lit "127.0.0.1") port 0 uninitialised)) {}

theorem ofPorts_lookup (ports : List Bytes) (uninitialised : Int)
    (h : (ofPorts ports uninitialised).quorum.lookup name = some q) :
    q.host = lit "127.0.0.1" ∧ name = hostPort q.host q.port ∧ q.rounds = uninitialised := by
  induction ports with
  | nil => cases h
  | cons port ports ih =>
    by_cases hname : name = localName port
    · rw [hname] at h
      obtain rfl := Option.some.inj ((AList.lookup_insert _).symm.trans h)
      exact ⟨rfl, hname, rfl⟩
    · exact ih ((AList.lookup_insert_ne hname).symm.trans h)

theorem ofPorts_local (ports : List Bytes) (uninitialised : Int) : (ofPorts ports uninitialised).Local := by
  intro name q hq
  obtain ⟨hhost, hname, -⟩ := ofPorts_lookup ports uninitialised hq
  exact ⟨hhost, hname⟩

theorem ofPorts_rounds (ports : List Bytes) (uninitialised : Int) :
    ∀ q ∈ (ofPorts ports uninitialised).members, q.rounds = uninitialised := by
  intro q hq
  obtain ⟨name, hlookup⟩ := mem_members.mp hq
  exact (ofPorts_lookup ports uninitialised hlookup).2.2

/-- Selection is fair: in a quorum of members on this host that start with equal rounds, steps that select no more
members than there are go through exactly if the rounds, spread evenly, fit into their counters. Then no member has
come, the rounds of two members differ by at most one, and what is selected next are different members. -/
theorem play_fair {start : ClusterIndex} (hlocal : start.Local) {r : Int} (hr : inInt r)
    (hequal : ∀ q ∈ start.members, q.rounds = r) {steps : List (QuorumSorter × Nat)}
    (hsteps : ∀ step ∈ steps, step.2 ≤ start.members.length) :
    ((∃ index, start.play steps = .ok index) ↔
        start.members.length * r + (steps.map Prod.snd).sum ≤ start.members.length * (2 ^ 31 - 1)) ∧
      ∀ index, start.play steps = .ok index →
        (∀ name, name ∈ index.quorum ↔ name ∈ start.quorum) ∧
          (∀ q ∈ index.members, ∀ q' ∈ index.members, q.rounds ≤ q'.rounds + 1) ∧
          ∀ sorter, ∀ k ≤ start.members.length,
            (index.quorumSelect sorter k).length = k ∧ (index.quorumSelect sorter k).Nodup ∧
              ∀ p ∈ index.quorumSelect sorter k, ∃ q ∈ index.members, q.port = p := by
  have hinit := Rotating.init hlocal hr hequal
  rw [← card_names] at hsteps
  obtain ⟨hok, hrotating⟩ := hinit.play hsteps
  rw [Nat.cast_zero, add_zero, card_names] at hok
  refine ⟨hok, fun index hplay => ?_⟩
  have h := hrotating index hplay
  refine ⟨fun name => ?_, fun q hq q' hq' => ?_, fun sorter k hk => ?_⟩
  · rw [← mem_names, h.names, mem_names]
  · have hlookup := h.isLocal.lookup_port hq
    have hlookup' := h.isLocal.lookup_port hq'
    have hmem {name : Bytes} {q : ClusterQuorum} (hq : index.quorum.lookup name = some q) : name ∈ index.names :=
      mem_names.mpr (AList.lookup_isSome.mp (hq ▸ rfl))
    rw [← rounds_of_lookup hlookup, ← rounds_of_lookup hlookup']
    exact h.balanced _ (hmem hlookup) _ (hmem hlookup')
  · have hk' : k ≤ index.members.length := by
      rw [← card_names, h.names, card_names]
      exact hk
    obtain ⟨hlength, hnodup, hmembers, -⟩ := h.isLocal.select sorter hk'
    exact ⟨hlength, hnodup, hmembers⟩

/-- Three members, two and then one of which are selected. -/
theorem play_fair_trio : ∃ index,
    (ofPorts [lit "8081", lit "8082", lit "8083"] 0).play [(.stable, 2), (.stable, 1)] = .ok index ∧
      ∀ q ∈ index.members, ∀ q' ∈ index.members, q.rounds ≤ q'.rounds + 1 := by
  have hlength : (ofPorts [lit "8081", lit "8082", lit "8083"] 0).members.length = 3 := by decide
  have hsteps : ∀ step ∈ [(QuorumSorter.stable, 2), (QuorumSorter.stable, 1)],
      step.2 ≤ (ofPorts [lit "8081", lit "8082", lit "8083"] 0).members.length := by
    rw [hlength]
    simp
  obtain ⟨hok, hfair⟩ := play_fair (ofPorts_local _ 0) ⟨by decide, by decide⟩ (ofPorts_rounds _ 0) hsteps
  have hfits : ((ofPorts [lit "8081", lit "8082", lit "8083"] 0).members.length : Int) * 0 +
      (([(QuorumSorter.stable, 2), (QuorumSorter.stable, 1)].map Prod.snd).sum : ℕ) ≤
        (ofPorts [lit "8081", lit "8082", lit "8083"] 0).members.length * (2 ^ 31 - 1) := by
    rw [hlength]
    simp
  obtain ⟨index, hplay⟩ := hok.mpr hfits
  exact ⟨index, hplay, (hfair index hplay).2.1⟩

/-- A member whose counter is at its end is not counted on. -/
theorem quorumUpdate_overflow :
    (ofPorts [lit "8081"] (2 ^ 31 - 1)).Local ∧
      (∀ q ∈ (ofPorts [lit "8081"] (2 ^ 31 - 1)).members, q.rounds = 2 ^ 31 - 1) ∧
      (ofPorts [lit "8081"] (2 ^ 31 - 1)).play [(.stable, 1)] = .error .undefined := by
  refine ⟨ofPorts_local _ _, ofPorts_rounds _ _, ?_⟩
  have hmembers : (ofPorts [lit "8081"] (2 ^ 31 - 1)).members =
      [.create (lit "127.0.0.1") (lit "8081") 0 (2 ^ 31 - 1)] := rfl
  have hselect : (ofPorts [lit "8081"] (2 ^ 31 - 1)).quorumSelect .stable 1 = [lit "8081"] := by
    unfold quorumSelect
    rw [hmembers, List.perm_singleton.mp (QuorumSorter.stable.perm [_])]
    rfl
  have hcount : (ofPorts [lit "8081"] (2 ^ 31 - 1)).countRound (lit "8081") = .error .undefined := rfl
  unfold play quorumUpdate
  rw [List.foldlM_cons]
  dsimp only
  rw [Nat.cast_one, hselect, List.foldlM_cons, hcount]
  rfl

end ClusterIndex

end Jericho.Clustering
