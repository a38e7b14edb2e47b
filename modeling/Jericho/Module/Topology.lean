import Jericho.Module.Migrator

/-! Parents and children in one topology: each node is told of its edges by its own run. -/
namespace Jericho.Migrate
open StdText Util JsonTree

/-- The URLs of the declared nodes. -/
def declaredUrls (data : Json Bytes) : List Bytes :=
  ((checkFile data).elim [] fun top => urlEntries top.nodes).map Sigma.snd

theorem Topology.nodup {data : Json Bytes} (hdata : data.ordered = true) {top : Topology}
    (htop : checkFile data = some top) : (top.nodes.map Prod.fst).Nodup ∧ (top.edges.map Prod.fst).Nodup := by
  unfold checkFile at htop
  simp only [Option.bind_eq_bind, Option.bind_eq_some_iff, Option.pure_def, Option.some.injEq] at htop
  obtain ⟨o, ho, vn, hvn, nodes, hnodes, -, -, -, -, ve, hve, edges, hedges, rfl⟩ := htop
  exact ⟨Json.nodup_keys (Json.ordered_of_lookup hdata ho hvn) hnodes,
    Json.nodup_keys (Json.ordered_of_lookup hdata ho hve) hedges⟩

theorem urlEntries_keys (nodes : Fields) : (urlEntries nodes).keys.Sublist (nodes.map Prod.fst) := by
  induction nodes with
  | nil => exact List.Sublist.slnil
  | cons n nodes ih =>
    unfold urlEntries at ih ⊢
    cases hcheck : checkNode n.2 with
    | none =>
      rw [List.filterMap_cons_none (by rw [hcheck]; rfl)]
      exact ih.cons n.1
    | some node =>
      rw [List.filterMap_cons_some (by rw [hcheck]; rfl)]
      exact ih.cons_cons n.1

/-- A declared name reads as its URL, and another one as an empty text. -/
theorem get_urls {nodes : Fields} (h : (nodes.map Prod.fst).Nodup) (name : Bytes) :
    (StrMap.assign ∅ (urlEntries nodes)).get name = ((urlEntries nodes).dlookup name).getD [] := by
  have hkeys : (urlEntries nodes).NodupKeys := h.sublist (urlEntries_keys nodes)
  rw [StrMap.get, StrMap.lookup_assign, AList.lookup_empty, Option.or_none,
    List.perm_dlookup name hkeys (List.reverse_perm _).symm]

/-- The node that is found has the URL. -/
theorem mem_of_targetKey {url : Bytes} {nodes : Fields} (h : targetKey url nodes [] ≠ []) :
    ⟨targetKey url nodes [], url⟩ ∈ urlEntries nodes := by
  induction nodes using List.reverseRecOn with
  | nil => exact absurd rfl h
  | append_singleton nodes n ih =>
    rw [targetKey, List.foldl_concat] at h ⊢
    rw [urlEntries, List.filterMap_append]
    split_ifs at h ⊢ with hn
    · obtain ⟨node, hnode, hurl⟩ := Option.map_eq_some_iff.mp hn
      apply List.mem_append_right
      rw [List.filterMap_cons_some (by rw [hnode]; rfl), ← hurl]
      exact List.mem_cons_self
    · exact List.mem_append_left _ (ih h)

/-- The arguments of a call of `create`. -/
theorem federatorCall_eq_some {data : Json Bytes} (hdata : data.ordered = true) {url : Bytes} {call : CreateCall}
    (h : federatorCall data url = .ok (some call)) :
    ∃ top, checkFile data = some top ∧ targetKey url top.nodes [] ≠ [] ∧
      call.parents = top.edges.flatMap (fun e =>
        if e.1 = targetKey url top.nodes [] then
          (names e.2).map (StrMap.assign ∅ (urlEntries top.nodes)).get
        else []) ∧
      call.children = top.edges.flatMap fun e =>
        List.replicate ((names e.2).count (targetKey url top.nodes []))
          ((StrMap.assign ∅ (urlEntries top.nodes)).get e.1) := by
  cases htop : checkFile data with
  | none =>
    unfold federatorCall at h
    rw [htop] at h
    cases h
  | some top =>
    obtain ⟨r, hr⟩ := readNodes_of_call htop h
    cases r with
    | none =>
      rw [federatorCall_none htop hr] at h
      cases h
    | some nodes =>
      obtain ⟨hurl, htarget⟩ := (readNodes_ok hr).2 nodes rfl
      rw [federatorCall_some htop hr] at h
      split_ifs at h with hempty
      · cases h
      · obtain ⟨r, hedges, hcall⟩ := map_eq_ok.mp h
        obtain ⟨edges, rfl, rfl⟩ := Option.map_eq_some_iff.mp hcall
        obtain ⟨hparents, hchildren⟩ :=
          (readEdges_ok (Topology.nodup hdata htop).2 (fun _ _ => rfl) hedges).2 edges rfl nodes.targetKey
        rw [htarget] at hempty hparents hchildren
        rw [hurl] at hparents hchildren
        refine ⟨top, rfl, hempty, ?_, ?_⟩
        · rw [CreateCall.ofMaps, htarget]
          exact hparents
        · rw [CreateCall.ofMaps, htarget]
          exact hchildren

section Distinct
variable {nodes : Fields} (hkeys : (nodes.map Prod.fst).Nodup) (hurls : ((urlEntries nodes).map Sigma.snd).Nodup)
  (hempty : [] ∉ (urlEntries nodes).map Sigma.snd)

include hkeys hurls hempty

/-- If no two nodes share a URL, only one name reads as it. -/
theorem get_urls_eq_iff {key url : Bytes} (hmem : ⟨key, url⟩ ∈ urlEntries nodes) (name : Bytes) :
    (StrMap.assign ∅ (urlEntries nodes)).get name = url ↔ name = key := by
  have hnodup : (urlEntries nodes).NodupKeys := hkeys.sublist (urlEntries_keys nodes)
  rw [get_urls hkeys]
  constructor
  · intro h
    cases hlookup : (urlEntries nodes).dlookup name with
    | none =>
      rw [hlookup] at h
      exact absurd (List.mem_map.mpr ⟨_, hmem, h.symm⟩) hempty
    | some w =>
      rw [hlookup] at h
      obtain rfl : w = url := h
      have hname : ⟨name, w⟩ ∈ urlEntries nodes := List.of_mem_dlookup hlookup
      exact congrArg Sigma.fst (List.inj_on_of_nodup_map hurls hname hmem rfl)
  · rintro rfl
    rw [List.mem_dlookup hnodup hmem]
    rfl

/-- A node is among the parents of another as often as the other names it. -/
theorem count_parents {key url : Bytes} (hmem : ⟨key, url⟩ ∈ urlEntries nodes) (l : List Bytes) :
    (l.map (StrMap.assign ∅ (urlEntries nodes)).get).count url = l.count key := by
  rw [List.count, List.countP_map, List.count]
  apply List.countP_congr
  intro name _
  rw [Function.comp_apply, beq_iff_eq, beq_iff_eq]
  exact get_urls_eq_iff hkeys hurls hempty hmem name

end Distinct

/-- In a topology whose nodes have distinct URLs, the run for one node lists another as its parent as often as
the run for the other lists the one as its child. -/
theorem parents_dual_children (doc : Document Bytes) (hurls : (declaredUrls doc.value).Nodup)
    (hempty : [] ∉ declaredUrls doc.value) {a b : Bytes} {callA callB : CreateCall}
    (hA : federatorCall doc.value a = .ok (some callA)) (hB : federatorCall doc.value b = .ok (some callB)) :
    callA.parents.count b = callB.children.count a := by
  obtain ⟨top, htop, htargetA, hparents, -⟩ := federatorCall_eq_some doc.ordered hA
  obtain ⟨top', htop', htargetB, -, hchildren⟩ := federatorCall_eq_some doc.ordered hB
  obtain rfl := Option.some.inj (htop.symm.trans htop')
  unfold declaredUrls at hurls hempty
  rw [htop] at hurls hempty
  have hkeys := (Topology.nodup doc.ordered htop).1
  have hmemA := mem_of_targetKey htargetA
  have hmemB := mem_of_targetKey htargetB
  rw [hparents, hchildren, List.count_flatMap, List.count_flatMap]
  -- Each edge list adds the same to both sides.
  congr 1
  apply List.map_congr_left
  intro e _
  rw [Function.comp_apply, Function.comp_apply, List.count_replicate]
  have hself := get_urls_eq_iff hkeys hurls hempty hmemA e.1
  by_cases he : e.1 = targetKey a top.nodes []
  · rw [if_pos he, if_pos (beq_iff_eq.mpr (hself.mpr he))]
    exact count_parents hkeys hurls hempty hmemB _
  · rw [if_neg he, if_neg (fun hbeq => he (hself.mp (beq_iff_eq.mp hbeq))), List.count_nil]

def exampleNode (url role : Bytes) : Json Bytes :=
  .object [(lit "options", .object [(lit "federation", .string (lit "config.json"))]), (lit "role", .string role),
    (lit "url", .string url)]

/-- A leader and an aggregator under it. -/
def exampleTopology : Document Bytes where
  value := .object
    [(lit "edges", .object [(lit "1", .array [.string (lit "0")])]), (lit "name", .string (lit "tree")),
      (lit "nodes", .object
        [(lit "0", exampleNode (lit "127.0.0.1:8080") (lit "main")),
          (lit "1", exampleNode (lit "127.0.0.1:8081") (lit "agg"))])]
  ordered := by decide

theorem parents_dual_children_example :
    ∃ callA callB, federatorCall exampleTopology.value (lit "127.0.0.1:8081") = .ok (some callA) ∧
      federatorCall exampleTopology.value (lit "127.0.0.1:8080") = .ok (some callB) ∧
      callA.parents.count (lit "127.0.0.1:8080") = callB.children.count (lit "127.0.0.1:8081") :=
  ⟨_, _, rfl, rfl, parents_dual_children exampleTopology (by decide) (by decide) rfl rfl⟩

end Jericho.Migrate
