import Jericho.Message.Barrier
import Jericho.Util.PicojsonRoundTrip

/-! What is to be read in the response to a broadcast: picojson gives every node with its first
reply, whatever bytes they hold. -/
namespace Jericho.Message
open StdText Util Server Runs JsonTree Picojson

/-- The object of one response. -/
def responseValue (res : Bytes × Bytes) : Json Bytes :=
  .object [(lit "message", .string res.2), (lit "status", .string (lit "200")), (lit "url", .string res.1)]

/-- The value `batch_serialize` builds. -/
def batchValue (responses : List (Bytes × Bytes)) : Json Bytes :=
  .object [(lit "command", .string (lit "null")), (lit "responses", .array (responses.map responseValue)),
    (lit "status", .string (lit "200"))]

/-- `serialize`, the response of `send`. -/
def serialize (url response : Bytes) : Bytes :=
  objectText [(lit "command", serializeStr (lit "null")),
    (lit "responses", arrayText [objectText [(lit "message", serializeStr response),
      (lit "status", serializeStr (lit "200")), (lit "url", serializeStr url)]]),
    (lit "status", serializeStr (lit "200"))]

/-- The responses, read back out of a value. -/
def readResponses (v : Json Bytes) : Option (List (Bytes × Bytes)) := do
  let fields ← v.fields?
  let responses ← fields.lookup (lit "responses")
  let elements ← responses.elements?
  elements.mapM fun w => do
    let fields ← w.fields?
    let url ← (← fields.lookup (lit "url")).text?
    let message ← (← fields.lookup (lit "message")).text?
    return (url, message)

variable {d : Numbers}

theorem flatten_intersperse (x : Bytes) (xs : List Bytes) :
    ((x :: xs).intersperse [44]).flatten = x ++ xs.flatMap (44 :: ·) := by
  induction xs generalizing x with
  | nil => simp
  | cons y ys ih =>
    rw [List.intersperse_cons_cons, List.flatten_cons, List.flatten_cons, ih y, List.flatMap_cons]
    rfl

theorem elementsText_compact (vs : List (Json Bytes)) :
    elementsText d (-1) false vs = (vs.map (valueText d (-1))).flatMap (44 :: ·) := by
  induction vs with
  | nil => rw [elementsText]; rfl
  | cons v vs ih =>
    rw [elementsText, ih]
    simp [breakText, lineEnd]

/-- Without indentation an array is the texts of its elements. -/
theorem valueText_array (vs : List (Json Bytes)) : valueText d (-1) (.array vs) = arrayText (vs.map (valueText d (-1))) := by
  cases vs with
  | nil => simp [valueText, elementsText, arrayText]
  | cons v vs =>
    have hcompact := elementsText_compact (d := d) vs
    simp [valueText, elementsText, deeper, breakText, lineEnd, arrayText, hcompact, flatten_intersperse]

theorem fieldsText_compact (fs : List (Bytes × Json Bytes)) :
    fieldsText d (-1) false fs = (fs.map fun f => serializeStr f.1 ++ 58 :: valueText d (-1) f.2).flatMap (44 :: ·) := by
  induction fs with
  | nil => rw [fieldsText]; rfl
  | cons f fs ih =>
    rw [fieldsText, ih]
    simp [breakText, lineEnd]

/-- And an object those of its fields. -/
theorem valueText_object (fs : List (Bytes × Json Bytes)) :
    valueText d (-1) (.object fs) = objectText (fs.map fun f => (f.1, valueText d (-1) f.2)) := by
  cases fs with
  | nil => simp [valueText, fieldsText, objectText]
  | cons f fs =>
    have hcompact := fieldsText_compact (d := d) fs
    simp [valueText, fieldsText, deeper, breakText, lineEnd, objectText, hcompact, flatten_intersperse, Function.comp_def]

theorem valueText_string (s : Bytes) : valueText d (-1) (.string s) = serializeStr s := by rw [valueText]

theorem valueText_responseValue (res : Bytes × Bytes) :
    valueText d (-1) (responseValue res) = objectText [(lit "message", serializeStr res.2),
      (lit "status", serializeStr (lit "200")), (lit "url", serializeStr res.1)] := by
  simp only [responseValue, valueText_object, List.map_cons, List.map_nil, valueText_string]

/-- The value and the text say the same. -/
theorem serialize_batchValue (responses : List (Bytes × Bytes)) :
    Picojson.serialize d false (batchValue responses) = batchSerialize responses := by
  have hindent : lineEnd (-1) = [] := rfl
  simp only [Picojson.serialize, Bool.false_eq_true, if_false, hindent, List.append_nil, batchValue, valueText_object,
    List.map_cons, List.map_nil, valueText_array, List.map_map, Function.comp_def, valueText_responseValue,
    valueText_string, batchSerialize]

theorem printable_responseValue (res : Bytes × Bytes) : Printable d (responseValue res) where
  doubles := by simp [responseValue, Json.numbers, Json.fieldsNumbers]
  ordered := Json.ordered_object.mpr ⟨by simp; decide, by simp [Json.ordered]⟩

theorem printable_batchValue (responses : List (Bytes × Bytes)) : Printable d (batchValue responses) where
  doubles := by simp [batchValue, Json.numbers, Json.fieldsNumbers, Json.mem_elementsNumbers, responseValue]
  ordered := by
    refine Json.ordered_object.mpr ⟨by simp; decide, ?_⟩
    have hall : ∀ v ∈ responses.map responseValue, v.ordered = true :=
      List.forall_mem_map.mpr fun res _ => (printable_responseValue (d := d) res).ordered
    simp [Json.elementsOrdered_iff.mpr hall, Json.ordered]

theorem need_batchValue (responses : List (Bytes × Bytes)) : need (batchValue responses) ≤ 2 := by
  have helements : elementsNeed (responses.map responseValue) ≤ 1 := by
    rw [elementsNeed_le_iff, List.forall_mem_map]
    intro res _
    simp [responseValue, need, fieldsNeed]
  simp [batchValue, need, fieldsNeed]
  omega

theorem readResponses_batchValue (responses : List (Bytes × Bytes)) :
    readResponses (batchValue responses) = some responses := by
  have hmap : (responses.map responseValue).mapM (fun w => do
      let fields ← w.fields?
      let url ← (← fields.lookup (lit "url")).text?
      let message ← (← fields.lookup (lit "message")).text?
      return (url, message)) = some responses := by
    induction responses with
    | nil => rfl
    | cons res responses ih =>
      rw [List.map_cons, List.mapM_cons, ih]
      rfl
  exact hmap

/-- Nothing is lost on the way to the client. -/
theorem read_batchSerialize (hd : d.Exact) (responses : List (Bytes × Bytes)) :
    ∃ v, parse d (batchSerialize responses) = .ok (some v, []) ∧ readResponses v = some responses := by
  have hdeep : need (batchValue responses) ≤ defaultMaxDepths := le_trans (need_batchValue responses) (by decide)
  obtain ⟨err, hparse, herr⟩ := parse_serialize hd (printable_batchValue responses) false
  rw [serialize_batchValue, if_pos hdeep, herr.mpr hdeep] at hparse
  exact ⟨_, hparse, readResponses_batchValue responses⟩

namespace Bifrost
variable {average : List UInt64 → Bytes}

/-- The messages of a broadcast have numbers of their own, one for each node. In every run of replies and
late fetches, the response that the resolving `fulfill` hands to the server loop is read as the nodes in the order
of the call, each with the first reply to its number, whatever bytes these hold. -/
theorem broadcast_response (hd : d.Exact) {s s₁ : Bifrost} {now t : Int} {urls : List Bytes} {content : Bytes}
    (hs : Reachable average s) (hurls : urls ≠ []) (hcontent : content ≠ [])
    (hissue : Move average s (.broadcastAsync now urls content, .ticket t) s₁) :
    ∃ ids : List Int, ids.Nodup ∧ ids.length = urls.length ∧
      ∀ ls u, Run (Restrict (Serving t) (Move average)) s₁ ls u → ∀ req out v, Answers t req →
        Move average u (.fulfill req, .fulfilled out) v → out.status = 1 →
        ∃ text w, out.response = some text ∧ parse d text = .ok (some w, []) ∧
          readResponses w = some (urls.zip (ids.map fun id =>
            ((replies (ls ++ [(.fulfill req, .fulfilled out)])).lookup id).getD [])) := by
  obtain ⟨b, rs, rfl, hnodup, -, hwaiting⟩ := broadcast_waiting hs.placed hurls hcontent hissue
  refine ⟨rs.map Recipient.id, hnodup, by simp, ?_⟩
  intro ls u hrun req out v ha hmove hstatus
  rcases hwaiting.run hrun with ⟨hu, -⟩ | ⟨hnone, -, -⟩
  · obtain ⟨id, hid, hout⟩ := hu.reply ha (step_spec hmove)
    rcases hout with ⟨hzero, -⟩ | ⟨-, -, -, hresponse⟩
    · exact absurd (hstatus.symm.trans hzero) (by decide)
    · obtain ⟨w, hparse, hread⟩ := read_batchSerialize hd (firstReplies rs (replies ls ++ [(id, req.content)]))
      refine ⟨_, w, hresponse, hparse, hread.trans ?_⟩
      have hone : replies [(.fulfill req, .fulfilled out)] = [(id, req.content)] := by
        simp [replies, hid, Except.toOption]
      rw [replies_append, hone, List.map_map, List.zip_map']
      rfl
  · obtain ⟨-, hresolves⟩ := resolved_step (l := (.fulfill req, .fulfilled out)) hnone ha hmove
    simp [resolves, hstatus, ha.carries] at hresolves

/-- Two nodes, whose replies hold a quote and a byte that is no character. -/
theorem broadcast_response_two : ∃ s₁ ls u v out text w, ∃ ids : List Int,
    Move (fun _ => []) (start (lit "a") (lit "80")) (.broadcastAsync 0 [peer, peer] (lit "x"), .ticket 0) s₁ ∧
    Run (Restrict (Serving 0) (Move fun _ => [])) s₁ ls u ∧
    Move (fun _ => []) u (.fulfill (nodeReply (lit "1") [255]), .fulfilled out) v ∧
    out.response = some text ∧ parse integers text = .ok (some w, []) ∧
    readResponses w = some ([peer, peer].zip (ids.map fun id =>
      ((replies (ls ++ [(.fulfill (nodeReply (lit "1") [255]), .fulfilled out)])).lookup id).getD [])) := by
  have hrun : ∃ s₁, Move (fun _ => []) (start (lit "a") (lit "80"))
      (.broadcastAsync 0 [peer, peer] (lit "x"), .ticket 0) s₁ ∧
      ∃ r u, Run (Move fun _ => []) s₁ [(.fulfill (nodeReply (lit "0") (lit "\"")), r)] u ∧
        ∃ out v, Move (fun _ => []) u (.fulfill (nodeReply (lit "1") [255]), .fulfilled out) v ∧ out.status = 1 :=
    ⟨_, rfl, _, _, run_calls [.fulfill (nodeReply (lit "0") (lit "\""))] rfl, _, _, rfl, rfl⟩
  obtain ⟨s₁, hissue, r, u, hrun, out, v, hmove, hstatus⟩ := hrun
  have hserving : Run (Restrict (Serving 0) (Move fun _ => [])) s₁ _ u :=
    hrun.restrict (by simp [Serving, Step.Serves, Late, answers_nodeReply])
  obtain ⟨ids, -, -, hall⟩ :=
    broadcast_response integers_exact ⟨lit "a", lit "80", [], .nil⟩ (by simp) (by decide) hissue
  obtain ⟨text, w, hresponse, hparse, hread⟩ := hall _ u hserving _ out v (answers_nodeReply _ _) hmove hstatus
  exact ⟨s₁, _, u, v, out, text, w, ids, hissue, hserving, hmove, hresponse, hparse, hread⟩

end Bifrost
end Jericho.Message
