import Jericho.Cluster.Cluster

/-! The three tables of the members of a cluster. -/
namespace Jericho.Clustering
open StdText Util Runs

variable {start c : Cluster} {calls : List Call} {name : Bytes}

/-- A name stands once in each table. -/
structure Listed (c : Cluster) (name : Bytes) : Prop where
  hosts : c.index.hosts.count name = 1
  quorum : c.index.quorum.keys.count name = 1
  names : c.names.count name = 1

/-- A name stands in no table. -/
structure Unlisted (c : Cluster) (name : Bytes) : Prop where
  hosts : name ∉ c.index.hosts
  quorum : name ∉ c.index.quorum.keys
  names : name ∉ c.names

/-- The tables list the names joined since the last reset, no other name that was ever joined, and
the last call, if it was `join`, told whether its name was new. -/
structure Agree (start : Cluster) (calls : List Call) : Prop where
  listed : ∀ name ∈ joined calls, Listed (start.run calls) name
  unlisted : ∀ name ∈ named calls, name ∉ joined calls → Unlisted (start.run calls) name
  answered : ∀ done host port world, calls = done ++ [.join host port world] →
    (((start.run done).join host port world).2 = true ↔ hostPort host port ∉ joined done)

/-- A call the tables survive: a name that is new joins with a directory of one entry and is no host
by another way, and there is nobody below the boss at a reset. -/
def Harmless (start : Cluster) (done : List Call) : Call → Prop
  | .join host port world =>
    hostPort host port ∈ joined done ∨
      hostPort host port ∉ (start.run done).index.hosts ∧ world.directory.entries.length = 1
  | .resetQuorum => (start.run done).nodes = []

/-- Nobody joined a new cluster yet. -/
structure New (start : Cluster) : Prop where
  quorum : start.index.quorum = ∅
  nodes : start.nodes = []

/-- Only names that were joined stand in the quorum and below the boss. -/
theorem New.named (h : New start) (calls : List Call) :
    (∀ name ∈ (start.run calls).index.quorum.keys, name ∈ named calls) ∧
      ∀ name ∈ (start.run calls).names, name ∈ named calls := by
  induction calls using List.reverseRecOn with
  | nil =>
    refine ⟨fun name hname => ?_, fun name hname => ?_⟩
    · rw [Cluster.run, List.foldl_nil, h.quorum] at hname
      exact absurd hname (AList.notMem_empty name)
    · rw [Cluster.run, List.foldl_nil, Cluster.names, h.nodes] at hname
      exact absurd hname List.not_mem_nil
  | append_singleton calls call ih =>
    obtain ⟨ihquorum, ihnames⟩ := ih
    rw [run_append]
    cases call with
    | resetQuorum =>
      rw [named_reset]
      exact ⟨fun name hname => absurd hname (AList.notMem_empty name), ihnames⟩
    | join host port world =>
      rw [named_join]
      by_cases hhost : hostPort host port ∈ (start.run calls).index.hosts
      · simp only [Cluster.step, join_of_mem world hhost]
        exact ⟨fun name hname => List.mem_append_left _ (ihquorum name hname),
          fun name hname => List.mem_append_left _ (ihnames name hname)⟩
      · obtain ⟨q, hjoin⟩ := join_of_notMem world hhost
        simp only [Cluster.step, hjoin]
        refine ⟨fun name hname => ?_, fun name hname => ?_⟩
        · rcases (AList.mem_insert _).mp (AList.mem_keys.mpr hname) with rfl | hname
          · exact List.mem_append_right _ (List.mem_singleton_self _)
          · exact List.mem_append_left _ (ihquorum name hname)
        · rw [Cluster.names, List.map_append] at hname
          rcases List.mem_append.mp hname with hname | hname
          · exact List.mem_append_left _ (ihnames name hname)
          · exact List.mem_append_right _ hname

/-- A name that is not joined stands in no table, unless as a host. -/
theorem Agree.unlisted_of_notMem (hnew : New start) (h : Agree start calls) (hname : name ∉ joined calls) :
    name ∉ (start.run calls).index.quorum.keys ∧ name ∉ (start.run calls).names := by
  by_cases hnamed : name ∈ named calls
  · have hno := h.unlisted name hnamed hname
    exact ⟨hno.quorum, hno.names⟩
  · obtain ⟨hquorum, hnames⟩ := hnew.named calls
    exact ⟨fun hmem => hnamed (hquorum name hmem), fun hmem => hnamed (hnames name hmem)⟩

theorem count_keys_insert (m : AList (fun _ : Bytes => ClusterQuorum)) (key name : Bytes) (q : ClusterQuorum)
    (hnew : key ∉ m.keys) : (m.insert key q).keys.count name = m.keys.count name + [key].count name := by
  have hkeys : (m.insert key q).keys = key :: m.keys :=
    congrArg List.keys (AList.entries_insert_of_notMem (s := m) hnew)
  rw [hkeys, List.count_cons, List.count_singleton]

/-- A new name with one entry is listed once, and all others stand as before. -/
theorem Agree.join (hnew : New start) (h : Agree start calls) {host port : Bytes} {world : World}
    (hname : hostPort host port ∉ joined calls) (hhost : hostPort host port ∉ (start.run calls).index.hosts)
    (hone : world.directory.entries.length = 1) : Agree start (calls ++ [.join host port world]) := by
  obtain ⟨q, hjoin⟩ := join_of_notMem world hhost
  obtain ⟨hquorum, hnames⟩ := h.unlisted_of_notMem hnew hname
  have hrun : start.run (calls ++ [.join host port world]) = ((start.run calls).join host port world).1 := run_append ..
  rw [hone, List.replicate_one] at hjoin
  -- each table gains the name, whatever its order
  have hcount : ∀ name,
      (start.run (calls ++ [.join host port world])).index.hosts.count name =
          (start.run calls).index.hosts.count name + [hostPort host port].count name ∧
        (start.run (calls ++ [.join host port world])).index.quorum.keys.count name =
          (start.run calls).index.quorum.keys.count name + [hostPort host port].count name ∧
        (start.run (calls ++ [.join host port world])).names.count name =
          (start.run calls).names.count name + [hostPort host port].count name := by
    intro name
    rw [hrun, hjoin]
    refine ⟨List.count_append, count_keys_insert _ _ _ _ hquorum, ?_⟩
    unfold Cluster.names
    rw [List.map_append, List.count_append]
    rfl
  refine ⟨?_, ?_, ?_⟩
  · intro name hmem
    obtain ⟨hcount1, hcount2, hcount3⟩ := hcount name
    rw [joined_append] at hmem
    rcases List.mem_insert_iff.mp hmem with rfl | hmem
    · rw [List.count_singleton_self] at hcount1 hcount2 hcount3
      rw [List.count_eq_zero_of_not_mem hhost] at hcount1
      rw [List.count_eq_zero_of_not_mem hquorum] at hcount2
      rw [List.count_eq_zero_of_not_mem hnames] at hcount3
      exact ⟨hcount1, hcount2, hcount3⟩
    · have hne : hostPort host port ≠ name := by
        rintro rfl
        exact hname hmem
      have hold := h.listed name hmem
      rw [List.count_singleton, if_neg (by simpa using hne), Nat.add_zero] at hcount1 hcount2 hcount3
      exact ⟨hcount1.trans hold.hosts, hcount2.trans hold.quorum, hcount3.trans hold.names⟩
  · intro name hmem hnot
    obtain ⟨hcount1, hcount2, hcount3⟩ := hcount name
    rw [joined_append] at hnot
    have hboth := not_or.mp (mt List.mem_insert_iff.mpr hnot)
    have hne : hostPort host port ≠ name := fun heq => hboth.1 heq.symm
    rw [named_join, List.mem_append, List.mem_singleton] at hmem
    have hold := h.unlisted name (hmem.resolve_right hboth.1) hboth.2
    rw [List.count_singleton, if_neg (by simpa using hne), Nat.add_zero] at hcount1 hcount2 hcount3
    refine ⟨?_, ?_, ?_⟩
    · rw [← List.count_eq_zero, hcount1, List.count_eq_zero]
      exact hold.hosts
    · rw [← List.count_eq_zero, hcount2, List.count_eq_zero]
      exact hold.quorum
    · rw [← List.count_eq_zero, hcount3, List.count_eq_zero]
      exact hold.names
  · intro done host' port' world' heq
    obtain ⟨rfl, hlast⟩ := List.append_inj' heq rfl
    obtain ⟨rfl, rfl, rfl⟩ := Call.join.inj (List.singleton_inj.mp hlast)
    rw [join_answer]
    exact iff_of_true hhost hname

/-- A member that joins again is turned away. -/
theorem Agree.rejoin (h : Agree start calls) {host port : Bytes} (world : World)
    (hname : hostPort host port ∈ joined calls) : Agree start (calls ++ [.join host port world]) := by
  have hhost : hostPort host port ∈ (start.run calls).index.hosts := by
    rw [← List.count_pos_iff, (h.listed _ hname).hosts]
    exact Nat.one_pos
  have hrun : start.run (calls ++ [.join host port world]) = start.run calls := by
    rw [run_append, Cluster.step, join_of_mem world hhost]
  have hjoined : joined (calls ++ [.join host port world]) = joined calls := by
    rw [joined_append]
    exact List.insert_of_mem hname
  refine ⟨?_, ?_, ?_⟩
  · rw [hrun, hjoined]
    exact h.listed
  · rw [hrun, hjoined, named_join]
    intro name hmem hnot
    rcases List.mem_append.mp hmem with hmem | hmem
    · exact h.unlisted name hmem hnot
    · rw [List.mem_singleton.mp hmem] at hnot
      exact absurd hname hnot
  · intro done host' port' world' heq
    obtain ⟨rfl, hlast⟩ := List.append_inj' heq rfl
    obtain ⟨rfl, rfl, rfl⟩ := Call.join.inj (List.singleton_inj.mp hlast)
    rw [join_answer]
    exact ⟨fun hno => absurd hhost hno, fun hno => absurd hname hno⟩

/-- After a reset the names below the boss are those that should be gone. -/
theorem agree_reset_iff (hnew : New start) (calls : List Call) :
    Agree start (calls ++ [.resetQuorum]) ↔ (start.run calls).nodes = [] := by
  have hrun : start.run (calls ++ [.resetQuorum]) = { start.run calls with index := {} } := run_append ..
  constructor
  · intro h
    by_contra hnodes
    obtain ⟨node, rest, hcons⟩ := List.exists_cons_of_ne_nil hnodes
    have hmem : node.name ∈ (start.run calls).names := by
      rw [Cluster.names, hcons]
      exact List.mem_cons_self
    have hnamed := (hnew.named calls).2 _ hmem
    have hno := h.unlisted node.name (by simpa using hnamed) (by simp [joinedStep])
    rw [hrun] at hno
    exact hno.names hmem
  · intro hnodes
    refine ⟨?_, ?_, ?_⟩
    · intro name hmem
      rw [joined_append] at hmem
      exact absurd hmem List.not_mem_nil
    · intro name _ _
      rw [hrun]
      refine ⟨List.not_mem_nil, AList.notMem_empty name, ?_⟩
      rw [Cluster.names, hnodes]
      exact List.not_mem_nil
    · intro done host port world heq
      cases List.singleton_inj.mp (List.append_inj' heq rfl).2

/-- What each call needs. -/
theorem agree_append_iff (hnew : New start) (done : List Call) (call : Call) (h : Agree start done) :
    Harmless start done call ↔ Agree start (done ++ [call]) := by
  cases call with
  | resetQuorum => exact (agree_reset_iff hnew done).symm
  | join host port world =>
    constructor
    · rintro (hmember | ⟨hhost, hone⟩)
      · exact h.rejoin world hmember
      · by_cases hmember : hostPort host port ∈ joined done
        · exact h.rejoin world hmember
        · exact h.join hnew hmember hhost hone
    · intro hafter
      by_cases hmember : hostPort host port ∈ joined done
      · exact .inl hmember
      · have hhost := (join_answer _ _ _ _).mp ((hafter.answered done host port world rfl).mpr hmember)
        obtain ⟨q, hjoin⟩ := join_of_notMem world hhost
        refine .inr ⟨hhost, ?_⟩
        have hlisted := (hafter.listed (hostPort host port) (by simp [joinedStep])).hosts
        rw [run_append, Cluster.step, hjoin] at hlisted
        simpa [List.count_eq_zero_of_not_mem hhost] using hlisted

theorem start_new (host port dir : Bytes) (world : World) : New (Cluster.start host port dir world) := by
  refine ⟨?_, rfl⟩
  exact congrArg ClusterIndex.quorum (create_index {} host port dir world.directory world.now)

theorem agree_nil (start : Cluster) : Agree start [] := by
  refine ⟨?_, ?_, ?_⟩
  · intro name hmem
    exact absurd hmem List.not_mem_nil
  · intro name hmem
    exact absurd hmem List.not_mem_nil
  · intro done host port world h
    exact absurd h.symm (List.append_ne_nil_of_right_ne_nil done (List.cons_ne_nil _ []))

/-- The tables of a cluster agree through a history exactly when every call is harmless. -/
theorem agree_throughout_iff (host port dir : Bytes) (world : World) (calls : List Call) :
    Throughout (Agree (Cluster.start host port dir world)) calls ↔
      Obeys (Harmless (Cluster.start host port dir world)) calls :=
  (obeys_iff_throughout (agree_nil _) (agree_append_iff (start_new host port dir world)) calls).symm

/-- The cluster of a server whose directory cannot be read. -/
def lone : Cluster :=
  Cluster.start (lit "127.0.0.1") (lit "8080") (lit "./public/cluster/8080") ⟨⟨none, false, none⟩, 0, 0⟩

/-- The directory of a node that just joined holds its own entry and its parent's: both are counted. -/
theorem hosts_doubled : ¬ ∀ calls, Throughout (Agree lone) calls := by
  intro h
  have hone := ((h [.join (lit "127.0.0.1") (lit "8081") ⟨⟨some [lit ".", lit ".."], true, none⟩, 0, 0⟩] _
    List.prefix_rfl).listed (lit "127.0.0.1:8081") (by decide)).hosts
  exact absurd hone (by decide)

end Jericho.Clustering
