import Jericho.Library.Runs
import Jericho.Util.Prizm

/-! The cluster of a server: its boss node, and the index with the hosts and the quorum. -/
namespace Jericho.Clustering
open StdText Util Runs

inductive FLStatusType where
  | null
  | joined
  | training
  | delivered
  | dormant
  | dropped
  | waitlisted
  | blacklisted
  | exited
  deriving DecidableEq

structure ClusterQuorum where
  host : Bytes
  port : Bytes
  status : FLStatusType
  timestamp : Int
  updated : Int
  rounds : Int
  served : Int

/-- The constructor leaves `rounds` as the allocation has it. -/
def ClusterQuorum.create (host port : Bytes) (timestamp uninitialised : Int) : ClusterQuorum :=
  ⟨host, port, .joined, timestamp, timestamp, uninitialised, 0⟩

structure ClusterIndex where
  hosts : List Bytes := []
  quorum : AList (fun _ : Bytes => ClusterQuorum) := ∅

structure ClusterNode where
  host : Bytes
  port : Bytes
  dir : Bytes
  timestamp : Int

def hostPort (host port : Bytes) : Bytes := host ++ lit ":" ++ port

def ClusterNode.name (node : ClusterNode) : Bytes := hostPort node.host node.port

namespace ClusterIndex

def addNode (index : ClusterIndex) (node : ClusterNode) : ClusterIndex :=
  { index with hosts := index.hosts ++ [node.name] }

def setQuorum (index : ClusterIndex) (host port : Bytes) (q : ClusterQuorum) : ClusterIndex :=
  { index with quorum := index.quorum.insert (hostPort host port) q }

def resetQuorum (_ : ClusterIndex) : ClusterIndex := {}

end ClusterIndex

/-- What the file system answers about a directory: the entries if it opens, whether it can be
created, the entries after that. -/
structure Directory where
  opendir : Option (List Bytes)
  mkdir : Bool := true
  reopen : Option (List Bytes) := none

/-- The names `readdir` goes through. -/
def Directory.entries (d : Directory) : List Bytes :=
  match d.opendir with
  | some entries => entries
  | none => if d.mkdir then d.reopen.getD [] else []

/-- The constructor of a node adds it to the index once for each entry of its directory. -/
def ClusterNode.create (index : ClusterIndex) (host port dir : Bytes) (d : Directory) (now : Int) :
    ClusterNode × ClusterIndex :=
  let node := ⟨host, port, dir, now⟩
  (node, d.entries.foldl (fun index _ => index.addNode node) index)

/-- `nodes` are those of the boss, which its edge keeps. -/
structure Cluster where
  boss : ClusterNode
  index : ClusterIndex
  nodes : List ClusterNode := []

/-- What a call of `join` meets outside the program: the directory, the time and the content of the
allocated block. -/
structure World where
  directory : Directory
  now : Int := 0
  uninitialised : Int := 0

/-- The cluster `main` creates. -/
def Cluster.start (host port dir : Bytes) (world : World) : Cluster :=
  let (boss, index) := ClusterNode.create {} host port dir world.directory world.now
  { boss := boss, index := index }

def Cluster.addNode (c : Cluster) (node : ClusterNode) : Cluster := { c with nodes := c.nodes ++ [node] }

def Cluster.join (c : Cluster) (host port : Bytes) (world : World) : Cluster × Bool :=
  let dir := lit "./public/cluster/" ++ port
  if hostPort host port ∉ c.index.hosts then
    let (node, index) := ClusterNode.create c.index host port dir world.directory world.now
    let quor := ClusterQuorum.create host port node.timestamp world.uninitialised
    (Cluster.addNode { c with index := index.setQuorum host port quor } node, true)
  else (c, false)

inductive Call where
  | join (host port : Bytes) (world : World)
  | resetQuorum

def Cluster.step (c : Cluster) : Call → Cluster
  | .join host port world => (c.join host port world).1
  | .resetQuorum => { c with index := c.index.resetQuorum }

/-- A cluster after some calls. -/
def Cluster.run (start : Cluster) (calls : List Call) : Cluster := calls.foldl Cluster.step start

/-- The names of the nodes below the boss. -/
def Cluster.names (c : Cluster) : List Bytes := c.nodes.map ClusterNode.name

/-- The names that the calls of `join` gave. -/
def named (calls : List Call) : List Bytes :=
  calls.filterMap fun
    | .join host port _ => some (hostPort host port)
    | .resetQuorum => none

def joinedStep (names : List Bytes) : Call → List Bytes
  | .join host port _ => names.insert (hostPort host port)
  | .resetQuorum => []

/-- The names joined since the last reset. -/
def joined (calls : List Call) : List Bytes := calls.foldl joinedStep []

@[simp]
theorem run_append (start : Cluster) (calls : List Call) (call : Call) :
    start.run (calls ++ [call]) = (start.run calls).step call :=
  List.foldl_concat ..

@[simp]
theorem joined_append (calls : List Call) (call : Call) : joined (calls ++ [call]) = joinedStep (joined calls) call :=
  List.foldl_concat ..

@[simp]
theorem named_join (calls : List Call) (host port : Bytes) (world : World) :
    named (calls ++ [.join host port world]) = named calls ++ [hostPort host port] := by
  simp [named]

@[simp]
theorem named_reset (calls : List Call) : named (calls ++ [.resetQuorum]) = named calls := by
  simp [named]

theorem create_index (index : ClusterIndex) (host port dir : Bytes) (d : Directory) (now : Int) :
    (ClusterNode.create index host port dir d now).2 =
      { index with hosts := index.hosts ++ List.replicate d.entries.length (hostPort host port) } := by
  unfold ClusterNode.create
  dsimp only
  induction d.entries generalizing index with
  | nil => simp
  | cons entry entries ih =>
    rw [List.foldl_cons, ih]
    simp [ClusterIndex.addNode, ClusterNode.name, List.replicate_succ]

theorem join_of_mem {c : Cluster} {host port : Bytes} (world : World) (h : hostPort host port ∈ c.index.hosts) :
    c.join host port world = (c, false) := by
  simp [Cluster.join, h]

/-- A name that is not listed yet is listed once for each entry, and joins the quorum and the boss. -/
theorem join_of_notMem {c : Cluster} {host port : Bytes} (world : World) (h : hostPort host port ∉ c.index.hosts) :
    ∃ q, c.join host port world =
      ({ boss := c.boss
         index :=
          { hosts := c.index.hosts ++ List.replicate world.directory.entries.length (hostPort host port)
            quorum := c.index.quorum.insert (hostPort host port) q }
         nodes := c.nodes ++ [⟨host, port, lit "./public/cluster/" ++ port, world.now⟩] }, true) := by
  refine ⟨ClusterQuorum.create host port world.now world.uninitialised, ?_⟩
  unfold Cluster.join
  rw [if_pos h]
  have hindex := create_index c.index host port (lit "./public/cluster/" ++ port) world.directory world.now
  simp only [ClusterIndex.setQuorum, Cluster.addNode]
  rw [hindex]
  rfl

theorem join_answer (c : Cluster) (host port : Bytes) (world : World) :
    (c.join host port world).2 = true ↔ hostPort host port ∉ c.index.hosts := by
  unfold Cluster.join
  split <;> simp [*]

end Jericho.Clustering
