import Jericho.Module.Topology

/-! Which topology files are read without an exception, and into URLs of declared nodes only. -/
namespace Jericho.Migrate
open StdText Util JsonTree

/-- A node or `nullptr` is returned, and `create` is handed the URLs of declared nodes only. -/
structure Validated (files : JsonFiles) (path url : Bytes) (data : Json Bytes) : Prop where
  total : ∃ node, federator files path url = .ok node
  declared : ∀ call, federatorCall data url = .ok (some call) →
    ∀ u ∈ call.parents ++ call.children, u ∈ declaredUrls data

namespace Topology

/-- Every node passes its checks. -/
def NodesValid (top : Topology) : Prop := ∀ n ∈ top.nodes, (checkNode n.2).isSome

/-- The edges are looked at: the nodes are valid, and one with a key is found. -/
def Entered (top : Topology) (url : Bytes) : Prop := top.NodesValid ∧ targetKey url top.nodes [] ≠ []

/-- A name that stands for the URL of a node: it is declared, or some node has the empty URL it reads as. -/
def Named (top : Topology) (name : Bytes) : Prop :=
  name ∈ top.nodes.map Prod.fst ∨ [] ∈ (urlEntries top.nodes).map Sigma.snd

/-- What is read unchecked is as it is taken to be. -/
structure Sound (top : Topology) (url : Bytes) : Prop where
  configured : ∀ n ∈ top.nodes.takeWhile (fun n => (checkNode n.2).isSome), Configured n.2
  texts : top.Entered url →
    ∀ e ∈ top.edges.takeWhile (fun e => e.2.elements?.isSome), ∀ v ∈ e.2.elements?.getD [], v.text?.isSome
  named : top.Entered url → (∀ e ∈ top.edges, e.2.elements?.isSome) → ∀ e ∈ top.edges,
    (e.1 = targetKey url top.nodes [] → ∀ name ∈ names e.2, top.Named name) ∧
      (targetKey url top.nodes [] ∈ names e.2 → top.Named e.1)

end Topology

theorem fields_of_checkFile {data : Json Bytes} {top : Topology} (h : checkFile data = some top) :
    data.fields?.isSome := by
  obtain ⟨o, ho, -⟩ := Option.bind_eq_some_iff.mp h
  exact Option.isSome_of_eq_some ho

theorem readJson_of_file {files : JsonFiles} {path : Bytes} {doc : Document Bytes} (hfile : files path = some doc) :
    readJson files path = doc.value.fields?.map fun _ => doc.value := by
  unfold readJson
  rw [hfile, Option.bind_eq_bind, Option.bind_some]
  cases doc.value.fields? <;> rfl

/-- Nothing throws outside the two loops. -/
theorem federator_isOk {files : JsonFiles} {path : Bytes} {doc : Document Bytes} (hfile : files path = some doc)
    (url : Bytes) : (∃ node, federator files path url = .ok node) ↔ ∃ r, federatorCall doc.value url = .ok r := by
  unfold federator
  rw [readJson_of_file hfile]
  cases hfields : doc.value.fields? with
  | none =>
    refine iff_of_true ⟨none, rfl⟩ ⟨none, ?_⟩
    unfold federatorCall
    cases htop : checkFile doc.value with
    | none => rfl
    | some top =>
      have hsome := fields_of_checkFile htop
      rw [hfields] at hsome
      cases hsome
  | some fields =>
    constructor
    · rintro ⟨node, hnode⟩
      obtain ⟨r, hr, -⟩ := bind_eq_ok.mp hnode
      exact ⟨r, hr⟩
    · rintro ⟨r, hr⟩
      cases r with
      | none => exact ⟨none, bind_eq_ok.mpr ⟨none, hr, rfl⟩⟩
      | some call => exact ⟨create files call, bind_eq_ok.mpr ⟨some call, hr, rfl⟩⟩

section Read
variable {data : Json Bytes} {top : Topology} (htop : checkFile data = some top) {url : Bytes}

include htop

theorem federatorCall_of_not_entered {nodes : Option NodeMaps} (hnodes : readNodes url top.nodes {} = .ok nodes)
    (h : ¬ top.Entered url) : federatorCall data url = .ok none := by
  obtain ⟨hsome, hmaps⟩ := readNodes_ok hnodes
  cases nodes with
  | none => exact federatorCall_none htop hnodes
  | some maps =>
    rw [federatorCall_some htop hnodes]
    apply if_pos
    by_contra htarget
    rw [(hmaps maps rfl).2] at htarget
    exact h ⟨hsome.mp rfl, htarget⟩

theorem federatorCall_of_entered {nodes : Option NodeMaps} (hnodes : readNodes url top.nodes {} = .ok nodes)
    (h : top.Entered url) :
    ∃ maps, federatorCall data url =
      (readEdges maps.keyToUrl top.edges {}).map (Option.map (CreateCall.ofMaps maps)) := by
  obtain ⟨hsome, hmaps⟩ := readNodes_ok hnodes
  obtain ⟨maps, rfl⟩ := Option.isSome_iff_exists.mp (hsome.mpr h.1)
  refine ⟨maps, ?_⟩
  rw [federatorCall_some htop hnodes]
  apply if_neg
  rw [(hmaps maps rfl).2]
  exact h.2

/-- The call is found without an exception if both loops are run without one. -/
theorem federatorCall_isOk :
    (∃ r, federatorCall data url = .ok r) ↔
      (∀ n ∈ top.nodes.takeWhile (fun n => (checkNode n.2).isSome), Configured n.2) ∧
        (top.Entered url →
          ∀ e ∈ top.edges.takeWhile (fun e => e.2.elements?.isSome), ∀ v ∈ e.2.elements?.getD [], v.text?.isSome) := by
  rw [← readNodes_isOk url top.nodes {}]
  constructor
  · rintro ⟨r, hr⟩
    obtain ⟨nodes, hnodes⟩ := readNodes_of_call htop hr
    refine ⟨⟨nodes, hnodes⟩, fun hentered => ?_⟩
    obtain ⟨maps, hcall⟩ := federatorCall_of_entered htop hnodes hentered
    obtain ⟨edges, hedges, -⟩ := map_eq_ok.mp (hcall.symm.trans hr)
    exact (readEdges_isOk _ _ _).mp ⟨edges, hedges⟩
  · rintro ⟨⟨nodes, hnodes⟩, htexts⟩
    by_cases hentered : top.Entered url
    · obtain ⟨maps, hcall⟩ := federatorCall_of_entered htop hnodes hentered
      obtain ⟨edges, hedges⟩ := (readEdges_isOk maps.keyToUrl top.edges {}).mpr (htexts hentered)
      exact ⟨_, hcall.trans (map_eq_ok.mpr ⟨edges, hedges, rfl⟩)⟩
    · exact ⟨none, federatorCall_of_not_entered htop hnodes hentered⟩

/-- The call is made if all edges are lists. -/
theorem federatorCall_isSome (hdata : data.ordered = true) {r : Option CreateCall}
    (h : federatorCall data url = .ok r) :
    r.isSome ↔ top.Entered url ∧ ∀ e ∈ top.edges, e.2.elements?.isSome := by
  obtain ⟨nodes, hnodes⟩ := readNodes_of_call htop h
  by_cases hentered : top.Entered url
  · obtain ⟨maps, hcall⟩ := federatorCall_of_entered htop hnodes hentered
    obtain ⟨edges, hedges, rfl⟩ := map_eq_ok.mp (hcall.symm.trans h)
    rw [Option.isSome_map, (readEdges_ok (Topology.nodup hdata htop).2 (fun _ _ => rfl) hedges).1]
    exact (and_iff_right hentered).symm
  · have hnone := federatorCall_of_not_entered htop hnodes hentered
    obtain rfl := Except.ok.inj (hnone.symm.trans h)
    exact iff_of_false Bool.false_ne_true fun hboth => hentered hboth.1

end Read

/-- What a name reads as is the URL of a declared node if the name is declared, or the empty URL is. -/
theorem get_mem_urls {top : Topology} (hkeys : (top.nodes.map Prod.fst).Nodup) (hvalid : top.NodesValid)
    (name : Bytes) :
    (StrMap.assign ∅ (urlEntries top.nodes)).get name ∈ (urlEntries top.nodes).map Sigma.snd ↔ top.Named name := by
  have hnodup : (urlEntries top.nodes).NodupKeys := hkeys.sublist (urlEntries_keys top.nodes)
  rw [get_urls hkeys]
  cases hlookup : (urlEntries top.nodes).dlookup name with
  | none =>
    refine ⟨.inr, fun h => h.resolve_left fun hname => ?_⟩
    obtain ⟨n, hn, rfl⟩ := List.mem_map.mp hname
    obtain ⟨node, hnode⟩ := Option.isSome_iff_exists.mp (hvalid n hn)
    have hmem : ⟨n.1, node.url⟩ ∈ urlEntries top.nodes :=
      List.mem_filterMap.mpr ⟨n, hn, by rw [hnode]; rfl⟩
    exact List.dlookup_eq_none.mp hlookup (List.mem_keys_of_mem hmem)
  | some w =>
    have hmem := List.of_mem_dlookup hlookup
    refine iff_of_true (List.mem_map_of_mem hmem) (.inl ?_)
    exact (urlEntries_keys top.nodes).subset (List.mem_keys_of_mem hmem)

/-- A topology file is read without an exception, and `create` is handed URLs of declared nodes only, exactly if
everything that is read unchecked is sound. -/
theorem federator_validated_iff {files : JsonFiles} {path : Bytes} {doc : Document Bytes}
    (hfile : files path = some doc) (url : Bytes) :
    Validated files path url doc.value ↔ ∀ top, checkFile doc.value = some top → top.Sound url := by
  cases htop : checkFile doc.value with
  | none =>
    have hnone : federatorCall doc.value url = .ok none := by
      unfold federatorCall
      rw [htop]
    refine iff_of_true ⟨(federator_isOk hfile url).mpr ⟨none, hnone⟩, fun call hcall => ?_⟩ fun _ h => by cases h
    rw [hnone] at hcall
    cases hcall
  | some top =>
    have hkeys := (Topology.nodup doc.ordered htop).1
    have hdeclared : declaredUrls doc.value = (urlEntries top.nodes).map Sigma.snd := by
      unfold declaredUrls
      rw [htop]
      rfl
    constructor
    · rintro ⟨htotal, hall⟩ top' htop'
      obtain rfl := Option.some.inj htop'
      obtain ⟨hconfigured, htexts⟩ := (federatorCall_isOk htop).mp ((federator_isOk hfile url).mp htotal)
      refine ⟨hconfigured, htexts, fun hentered harrays e he => ?_⟩
      obtain ⟨r, hr⟩ := (federator_isOk hfile url).mp htotal
      obtain ⟨call, rfl⟩ := Option.isSome_iff_exists.mp
        ((federatorCall_isSome htop doc.ordered hr).mpr ⟨hentered, harrays⟩)
      obtain ⟨top', htop', -, hparents, hchildren⟩ := federatorCall_eq_some doc.ordered hr
      obtain rfl := Option.some.inj (htop.symm.trans htop')
      have hurls := hall call hr
      rw [hdeclared] at hurls
      constructor
      · intro htarget name hname
        refine (get_mem_urls hkeys hentered.1 name).mp (hurls _ (List.mem_append_left _ ?_))
        rw [hparents]
        exact List.mem_flatMap.mpr ⟨e, he, by rw [if_pos htarget]; exact List.mem_map_of_mem hname⟩
      · intro hname
        refine (get_mem_urls hkeys hentered.1 e.1).mp (hurls _ (List.mem_append_right _ ?_))
        rw [hchildren]
        exact List.mem_flatMap.mpr ⟨e, he, List.mem_replicate.mpr ⟨(List.count_pos_iff.mpr hname).ne', rfl⟩⟩
    · intro hsound
      obtain ⟨hconfigured, htexts, hnamed⟩ := hsound top rfl
      have hok := (federatorCall_isOk htop).mpr ⟨hconfigured, htexts⟩
      refine ⟨(federator_isOk hfile url).mpr hok, fun call hcall u hu => ?_⟩
      obtain ⟨hentered, harrays⟩ := (federatorCall_isSome htop doc.ordered hcall).mp rfl
      obtain ⟨top', htop', -, hparents, hchildren⟩ := federatorCall_eq_some doc.ordered hcall
      obtain rfl := Option.some.inj (htop.symm.trans htop')
      rw [hdeclared]
      rcases List.mem_append.mp hu with hu | hu
      · rw [hparents] at hu
        obtain ⟨e, he, hu⟩ := List.mem_flatMap.mp hu
        split_ifs at hu with htarget
        · obtain ⟨name, hname, rfl⟩ := List.mem_map.mp hu
          exact (get_mem_urls hkeys hentered.1 name).mpr ((hnamed hentered harrays e he).1 htarget name hname)
        · cases hu
      · rw [hchildren] at hu
        obtain ⟨e, he, hu⟩ := List.mem_flatMap.mp hu
        obtain ⟨hcount, rfl⟩ := List.mem_replicate.mp hu
        have hname := List.count_pos_iff.mp (Nat.pos_of_ne_zero hcount)
        exact (get_mem_urls hkeys hentered.1 e.1).mpr ((hnamed hentered harrays e he).2 hname)

theorem federator_validated_example :
    Validated (fun _ => some exampleTopology) (lit "topology.json") (lit "127.0.0.1:8081") exampleTopology.value ↔
      ∀ top, checkFile exampleTopology.value = some top → top.Sound (lit "127.0.0.1:8081") :=
  federator_validated_iff rfl _

/-- A node whose options have no configuration, and an edge to a node that is not declared. -/
def unsoundTopology (options : Fields) (name : Bytes) : Json Bytes :=
  .object
    [(lit "edges", .object [(lit "0", .array [.string name])]), (lit "name", .string (lit "tree")),
      (lit "nodes", .object
        [(lit "0", .object [(lit "options", .object options), (lit "role", .string (lit "main")),
          (lit "url", .string (lit "127.0.0.1:8080"))])])]

/-- The first throws, and the second is given an empty URL as its parent. -/
theorem unsound_topologies :
    ¬ Validated (fun _ => some ⟨unsoundTopology [] (lit "0"), by decide⟩) (lit "topology.json") (lit "127.0.0.1:8080")
        (unsoundTopology [] (lit "0")) ∧
      ¬ Validated
        (fun _ => some ⟨unsoundTopology [(lit "federation", .string (lit "config.json"))] (lit "9"), by decide⟩)
        (lit "topology.json") (lit "127.0.0.1:8080")
        (unsoundTopology [(lit "federation", .string (lit "config.json"))] (lit "9")) := by
  constructor
  · intro h
    obtain ⟨node, hnode⟩ := h.total
    have hthrow : federator (fun _ => some ⟨unsoundTopology [] (lit "0"), by decide⟩) (lit "topology.json")
        (lit "127.0.0.1:8080") = .error .runtimeError := rfl
    rw [hthrow] at hnode
    cases hnode
  · intro h
    have hparents := h.declared _ rfl [] (by decide)
    revert hparents
    decide

end Jericho.Migrate
