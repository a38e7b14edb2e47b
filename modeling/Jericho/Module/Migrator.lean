import Jericho.Federator.Aggregator
import Jericho.Library.JsonTree

/-! `migrate::federator`: from the topology file to a node of the federator, with its parents and children. -/
namespace Jericho.Migrate
open StdText Util JsonTree

abbrev Fields := List (Bytes × Json Bytes)

/-- `get<std::string>` -/
def getString : Json Bytes → Exec Bytes
  | .string s => .ok s
  | _ => .error .runtimeError

/-- A map to vectors; a missing key reads as an empty one. -/
abbrev ListMap := AList (fun _ : Bytes => List Bytes)

namespace ListMap

def get (m : ListMap) (key : Bytes) : List Bytes := (m.lookup key).getD []

/-- `m[key].push_back(val)` -/
def push (m : ListMap) (key val : Bytes) : ListMap := m.insert key (m.get key ++ [val])

end ListMap

/-- The two objects of a topology file. -/
structure Topology where
  nodes : Fields
  edges : Fields

/-- The checks on the file as a whole; each of them returns `nullptr`. -/
def checkFile (data : Json Bytes) : Option Topology := do
  let o ← data.fields?
  let nodes ← (← o.lookup (lit "nodes")).fields?
  let _name ← (← o.lookup (lit "name")).text?
  let edges ← (← o.lookup (lit "edges")).fields?
  return ⟨nodes, edges⟩

/-- The fields of a node that are checked. -/
structure NodeEntry where
  url : Bytes
  role : Bytes
  options : Fields

/-- The checks on a node; each of them returns `nullptr`. -/
def checkNode (value : Json Bytes) : Option NodeEntry := do
  let node ← value.fields?
  let url ← (← node.lookup (lit "url")).text?
  let role ← (← node.lookup (lit "role")).text?
  let options ← (← node.lookup (lit "options")).fields?
  return ⟨url, role, options⟩

/-- The path of the configuration, which is not checked: a missing key reads as null. -/
def NodeEntry.config (node : NodeEntry) : Exec Bytes :=
  getString ((node.options.lookup (lit "federation")).getD .null)

/-- The maps that are filled from the nodes, and the node that is looked for. -/
structure NodeMaps where
  keyToUrl : StrMap := ∅
  keyToConfig : StrMap := ∅
  targetKey : Bytes := []
  targetRole : Bytes := []

def NodeMaps.add (maps : NodeMaps) (url key : Bytes) (node : NodeEntry) (config : Bytes) : NodeMaps where
  keyToUrl := maps.keyToUrl.insert key node.url
  keyToConfig := maps.keyToConfig.insert key config
  targetKey := if node.url = url then key else maps.targetKey
  targetRole := if node.url = url then node.role else maps.targetRole

/-- The loop over the nodes. -/
def readNodes (url : Bytes) : Fields → NodeMaps → Exec (Option NodeMaps)
  | [], maps => .ok (some maps)
  | (key, value) :: rest, maps =>
    match checkNode value with
    | none => .ok none
    | some node => do
      let config ← node.config
      readNodes url rest (maps.add url key node config)

/-- The maps that are filled from the edges. -/
structure EdgeMaps where
  parents : ListMap := ∅
  children : ListMap := ∅

/-- One name in the list of a node: the parent of the node, and the node as a child of the name. -/
def addName (keyToUrl : StrMap) (key : Bytes) (maps : List Bytes × ListMap) (value : Json Bytes) :
    Exec (List Bytes × ListMap) := do
  let name ← getString value
  return (maps.1 ++ [keyToUrl.get name], maps.2.push name (keyToUrl.get key))

/-- The loop over the edges. -/
def readEdges (keyToUrl : StrMap) : Fields → EdgeMaps → Exec (Option EdgeMaps)
  | [], maps => .ok (some maps)
  | (key, value) :: rest, maps =>
    match value.elements? with
    | none => .ok none
    | some arr => do
      let (edgeUrls, children) ← arr.foldlM (addName keyToUrl key) ([], maps.children)
      readEdges keyToUrl rest ⟨maps.parents.insert key edgeUrls, children⟩

/-- The arguments of `FedNodeFactory::create`. -/
structure CreateCall where
  url : Bytes
  role : Bytes
  configPath : Bytes
  parents : List Bytes
  children : List Bytes

def CreateCall.ofMaps (nodes : NodeMaps) (edges : EdgeMaps) : CreateCall where
  url := nodes.keyToUrl.get nodes.targetKey
  role := nodes.targetRole
  configPath := nodes.keyToConfig.get nodes.targetKey
  parents := edges.parents.get nodes.targetKey
  children := edges.children.get nodes.targetKey

/-- The call of `create` that a topology leads to, if it is reached. -/
def federatorCall (data : Json Bytes) (url : Bytes) : Exec (Option CreateCall) :=
  match checkFile data with
  | none => .ok none
  | some top => do
    match ← readNodes url top.nodes {} with
    | none => return none
    | some nodes =>
      if nodes.targetKey = [] then return none
      else
        let edges ← readEdges nodes.keyToUrl top.edges {}
        return edges.map (CreateCall.ofMaps nodes)

/-- A node of the federator: an aggregator, or the leader of all. -/
structure FedNode extends Federator.Aggregator where
  children : List Bytes := []
  leader : Bool := false

/-- The JSON files that can be read and parsed. -/
abbrev JsonFiles := Bytes → Option (Document Bytes)

/-- `readJson`, which takes objects only. -/
def readJson (files : JsonFiles) (path : Bytes) : Option (Json Bytes) := do
  let doc ← files path
  let _fields ← doc.value.fields?
  return doc.value

/-- `FedNodeFactory::create`: the role `cli` has no node yet. -/
def create (files : JsonFiles) (call : CreateCall) : Option FedNode := do
  let _config ← readJson files call.configPath
  if call.role = lit "agg" then some { parents := call.parents, children := call.children }
  else if call.role = lit "cli" then none
  else if call.role = lit "main" then some { parents := call.parents, children := call.children, leader := true }
  else none

/-- `migrate::federator` -/
def federator (files : JsonFiles) (path url : Bytes) : Exec (Option FedNode) :=
  match readJson files path with
  | none => .ok none
  | some data => do
    match ← federatorCall data url with
    | none => return none
    | some call => return create files call

/-- The nodes with their URLs, as far as they can be read. -/
def urlEntries (nodes : Fields) : List Field :=
  nodes.filterMap fun n => (checkNode n.2).map fun node => ⟨n.1, node.url⟩

/-- The key of the last node with a URL, or else the key given. -/
def targetKey (url : Bytes) (nodes : Fields) (key : Bytes) : Bytes :=
  nodes.foldl (fun key n => if (checkNode n.2).map NodeEntry.url = some url then n.1 else key) key

/-- The names in a list. -/
def names (value : Json Bytes) : List Bytes := (value.elements?.getD []).filterMap Json.text?

/-- The configuration of a node has a path. -/
def Configured (value : Json Bytes) : Prop := ∀ node ∈ checkNode value, ∃ config, node.config = .ok config

theorem getString_eq_ok {value : Json Bytes} {s : Bytes} : getString value = .ok s ↔ value.text? = some s := by
  cases value <;> simp [getString, Json.text?]

theorem ListMap.get_insert (m : ListMap) (key k : Bytes) (vals : List Bytes) :
    ListMap.get (m.insert key vals) k = if k = key then vals else m.get k := by
  unfold ListMap.get
  split_ifs with hk
  · rw [hk, AList.lookup_insert]
    rfl
  · rw [AList.lookup_insert_ne hk]

theorem ListMap.get_push (m : ListMap) (key val k : Bytes) :
    (m.push key val).get k = m.get k ++ if k = key then [val] else [] := by
  rw [push, get_insert]
  split_ifs with hk
  · rw [hk]
  · rw [List.append_nil]

/-- The loop over the nodes throws at a node without a configuration path, if no bad node stands before it. -/
theorem readNodes_isOk (url : Bytes) (nodes : Fields) (maps : NodeMaps) :
    (∃ r, readNodes url nodes maps = .ok r) ↔
      ∀ n ∈ nodes.takeWhile (fun n => (checkNode n.2).isSome), Configured n.2 := by
  induction nodes generalizing maps with
  | nil => exact iff_of_true ⟨_, rfl⟩ fun _ h => absurd h List.not_mem_nil
  | cons n rest ih =>
    obtain ⟨key, value⟩ := n
    unfold readNodes
    cases hcheck : checkNode value with
    | none =>
      refine iff_of_true ⟨_, rfl⟩ ?_
      rw [List.takeWhile_cons_of_neg (by simp [hcheck])]
      exact fun _ h => absurd h List.not_mem_nil
    | some node =>
      rw [List.takeWhile_cons_of_pos (by simp [hcheck]), List.forall_mem_cons]
      constructor
      · rintro ⟨r, hr⟩
        obtain ⟨config, hconfig, hrest⟩ := bind_eq_ok.mp hr
        refine ⟨fun node' hnode => ⟨config, ?_⟩, (ih _).mp ⟨r, hrest⟩⟩
        rw [← Option.some.inj (hcheck.symm.trans hnode)]
        exact hconfig
      · rintro ⟨hhead, hrest⟩
        obtain ⟨config, hconfig⟩ := hhead node hcheck
        obtain ⟨r, hr⟩ := (ih (maps.add url key node config)).mpr hrest
        exact ⟨r, bind_eq_ok.mpr ⟨config, hconfig, hr⟩⟩

/-- What the loop over the nodes returns. -/
theorem readNodes_ok {url : Bytes} {nodes : Fields} {maps : NodeMaps} {r : Option NodeMaps}
    (h : readNodes url nodes maps = .ok r) :
    (r.isSome ↔ ∀ n ∈ nodes, (checkNode n.2).isSome) ∧
      ∀ maps' ∈ r, maps'.keyToUrl = StrMap.assign maps.keyToUrl (urlEntries nodes) ∧
        maps'.targetKey = targetKey url nodes maps.targetKey := by
  induction nodes generalizing maps with
  | nil =>
    obtain rfl := Except.ok.inj h
    refine ⟨iff_of_true rfl fun _ h => absurd h List.not_mem_nil, fun maps' hmaps => ?_⟩
    rw [← Option.some.inj hmaps]
    exact ⟨rfl, rfl⟩
  | cons n rest ih =>
    obtain ⟨key, value⟩ := n
    unfold readNodes at h
    cases hcheck : checkNode value with
    | none =>
      rw [hcheck] at h
      obtain rfl := Except.ok.inj h
      exact ⟨by simp [hcheck], fun maps' h => absurd h (Option.not_mem_none maps')⟩
    | some node =>
      rw [hcheck] at h
      obtain ⟨config, -, hrest⟩ := bind_eq_ok.mp h
      obtain ⟨hsome, hmaps⟩ := ih hrest
      refine ⟨by simp [hsome, hcheck], fun maps' hmem => ?_⟩
      obtain ⟨hurl, htarget⟩ := hmaps maps' hmem
      constructor
      · rw [hurl, urlEntries, urlEntries, List.filterMap_cons_some (by rw [hcheck]; rfl)]
        rfl
      · rw [htarget, targetKey, targetKey, List.foldl_cons, hcheck]
        simp [NodeMaps.add]

/-- A list is read if it has nothing but names. -/
theorem addName_isOk (keyToUrl : StrMap) (key : Bytes) (arr : List (Json Bytes)) (maps : List Bytes × ListMap) :
    (∃ r, arr.foldlM (addName keyToUrl key) maps = .ok r) ↔ ∀ v ∈ arr, v.text?.isSome := by
  induction arr generalizing maps with
  | nil => exact iff_of_true ⟨_, rfl⟩ fun _ h => absurd h List.not_mem_nil
  | cons v arr ih =>
    rw [List.forall_mem_cons, List.foldlM_cons]
    constructor
    · rintro ⟨r, hr⟩
      obtain ⟨maps', hv, hrest⟩ := bind_eq_ok.mp hr
      obtain ⟨name, hname, -⟩ := bind_eq_ok.mp hv
      exact ⟨Option.isSome_of_eq_some (getString_eq_ok.mp hname), (ih _).mp ⟨r, hrest⟩⟩
    · rintro ⟨hv, hrest⟩
      obtain ⟨name, hname⟩ := Option.isSome_iff_exists.mp hv
      obtain ⟨r, hr⟩ := (ih (maps.1 ++ [keyToUrl.get name], maps.2.push name (keyToUrl.get key))).mpr hrest
      exact ⟨r, bind_eq_ok.mpr ⟨_, bind_eq_ok.mpr ⟨name, getString_eq_ok.mpr hname, rfl⟩, hr⟩⟩

/-- A list gives its node the URLs of the names as parents, and the node once to each name as a child. -/
theorem addName_ok {keyToUrl : StrMap} {key : Bytes} {arr : List (Json Bytes)} {maps maps' : List Bytes × ListMap}
    (h : arr.foldlM (addName keyToUrl key) maps = .ok maps') :
    maps'.1 = maps.1 ++ (arr.filterMap Json.text?).map keyToUrl.get ∧
      ∀ k, maps'.2.get k = maps.2.get k ++ List.replicate ((arr.filterMap Json.text?).count k) (keyToUrl.get key) := by
  induction arr generalizing maps with
  | nil =>
    obtain rfl := Except.ok.inj h
    exact ⟨(List.append_nil _).symm, fun k => (List.append_nil _).symm⟩
  | cons v arr ih =>
    rw [List.foldlM_cons] at h
    obtain ⟨maps₁, hv, hrest⟩ := bind_eq_ok.mp h
    obtain ⟨name, hname, hmaps⟩ := bind_eq_ok.mp hv
    obtain rfl := Except.ok.inj hmaps
    obtain ⟨hparents, hchildren⟩ := ih hrest
    rw [List.filterMap_cons_some (getString_eq_ok.mp hname)]
    refine ⟨by rw [hparents, List.append_assoc]; rfl, fun k => ?_⟩
    rw [hchildren, ListMap.get_push, List.append_assoc, List.count_cons]
    by_cases hk : k = name
    · rw [if_pos hk, if_pos (beq_iff_eq.mpr hk.symm), List.replicate_succ]
      rfl
    · rw [if_neg hk, if_neg (fun hbeq => hk (beq_iff_eq.mp hbeq).symm)]
      rfl

/-- The loop over the edges throws at a list with something else than names, if no edge before it is not a list. -/
theorem readEdges_isOk (keyToUrl : StrMap) (edges : Fields) (maps : EdgeMaps) :
    (∃ r, readEdges keyToUrl edges maps = .ok r) ↔
      ∀ e ∈ edges.takeWhile (fun e => e.2.elements?.isSome), ∀ v ∈ e.2.elements?.getD [], v.text?.isSome := by
  induction edges generalizing maps with
  | nil => exact iff_of_true ⟨_, rfl⟩ fun _ h => absurd h List.not_mem_nil
  | cons e rest ih =>
    obtain ⟨key, value⟩ := e
    unfold readEdges
    cases harr : value.elements? with
    | none =>
      refine iff_of_true ⟨_, rfl⟩ ?_
      rw [List.takeWhile_cons_of_neg (by simp [harr])]
      exact fun _ h => absurd h List.not_mem_nil
    | some arr =>
      rw [List.takeWhile_cons_of_pos (by simp [harr]), List.forall_mem_cons, harr, Option.getD_some,
        ← addName_isOk keyToUrl key arr ([], maps.children)]
      constructor
      · rintro ⟨r, hr⟩
        obtain ⟨maps', hlist, hrest⟩ := bind_eq_ok.mp hr
        exact ⟨⟨maps', hlist⟩, (ih _).mp ⟨r, hrest⟩⟩
      · rintro ⟨⟨maps', hlist⟩, hrest⟩
        obtain ⟨r, hr⟩ := (ih ⟨maps.parents.insert key maps'.1, maps'.2⟩).mpr hrest
        exact ⟨r, bind_eq_ok.mpr ⟨maps', hlist, hr⟩⟩

/-- What the loop over the edges returns. -/
theorem readEdges_ok {keyToUrl : StrMap} {edges : Fields} {maps : EdgeMaps} {r : Option EdgeMaps}
    (hkeys : (edges.map Prod.fst).Nodup) (hnew : ∀ e ∈ edges, maps.parents.get e.1 = [])
    (h : readEdges keyToUrl edges maps = .ok r) :
    (r.isSome ↔ ∀ e ∈ edges, e.2.elements?.isSome) ∧
      ∀ maps' ∈ r, ∀ k,
        maps'.parents.get k =
          maps.parents.get k ++ edges.flatMap (fun e => if e.1 = k then (names e.2).map keyToUrl.get else []) ∧
        maps'.children.get k =
          maps.children.get k ++ edges.flatMap fun e => List.replicate ((names e.2).count k) (keyToUrl.get e.1) := by
  induction edges generalizing maps with
  | nil =>
    obtain rfl := Except.ok.inj h
    refine ⟨iff_of_true rfl fun _ h => absurd h List.not_mem_nil, fun maps' hmaps k => ?_⟩
    rw [← Option.some.inj hmaps]
    exact ⟨(List.append_nil _).symm, (List.append_nil _).symm⟩
  | cons e rest ih =>
    obtain ⟨key, value⟩ := e
    unfold readEdges at h
    cases harr : value.elements? with
    | none =>
      rw [harr] at h
      obtain rfl := Except.ok.inj h
      exact ⟨by simp [harr], fun maps' h => absurd h (Option.not_mem_none maps')⟩
    | some arr =>
      rw [harr] at h
      obtain ⟨⟨urls, children⟩, hlist, hrest⟩ := bind_eq_ok.mp h
      obtain ⟨hurls, hchildren⟩ := addName_ok hlist
      obtain ⟨hkey, hkeys⟩ := List.nodup_cons.mp hkeys
      have hnames : names value = arr.filterMap Json.text? := by rw [names, harr]; rfl
      obtain ⟨hsome, hmaps⟩ := ih hkeys (by
        intro e he
        have hne : e.1 ≠ key := fun heq => hkey (List.mem_map.mpr ⟨e, he, heq⟩)
        rw [ListMap.get_insert, if_neg hne]
        exact hnew e (List.mem_cons_of_mem _ he)) hrest
      refine ⟨by simp [hsome, harr], fun maps' hmem k => ?_⟩
      obtain ⟨hparents, hchild⟩ := hmaps maps' hmem k
      rw [List.flatMap_cons, List.flatMap_cons, ← List.append_assoc, ← List.append_assoc]
      constructor
      · rw [hparents, ListMap.get_insert, hnames]
        congr 1
        by_cases hk : k = key
        · have hold := hnew (key, value) List.mem_cons_self
          rw [if_pos hk, if_pos hk.symm, hk, hold]
          exact hurls
        · rw [if_neg hk, if_neg (Ne.symm hk), List.append_nil]
      · rw [hchild, hchildren, hnames]

/-- Without its nodes the file leads to no call. -/
theorem federatorCall_none {data : Json Bytes} {top : Topology} (htop : checkFile data = some top) {url : Bytes}
    (h : readNodes url top.nodes {} = .ok none) : federatorCall data url = .ok none := by
  unfold federatorCall
  rw [htop]
  dsimp only
  rw [h]
  rfl

/-- From the nodes on, only the loop over the edges is left. -/
theorem federatorCall_some {data : Json Bytes} {top : Topology} (htop : checkFile data = some top) {url : Bytes}
    {nodes : NodeMaps} (h : readNodes url top.nodes {} = .ok (some nodes)) :
    federatorCall data url =
      if nodes.targetKey = [] then .ok none
      else (readEdges nodes.keyToUrl top.edges {}).map (Option.map (CreateCall.ofMaps nodes)) := by
  unfold federatorCall
  rw [htop]
  dsimp only
  rw [h, ← bind_return]
  rfl

theorem readNodes_of_call {data : Json Bytes} {top : Topology} (htop : checkFile data = some top) {url : Bytes}
    {r : Option CreateCall} (h : federatorCall data url = .ok r) : ∃ nodes, readNodes url top.nodes {} = .ok nodes := by
  unfold federatorCall at h
  rw [htop] at h
  obtain ⟨nodes, hnodes, -⟩ := bind_eq_ok.mp h
  exact ⟨nodes, hnodes⟩

end Jericho.Migrate
