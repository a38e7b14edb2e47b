import Jericho.Message.Handled
import Jericho.Server.HeaderSection

/-! A callback on its way: written into the headers of a message, read out of those of a request. -/
namespace Jericho.Message
open StdText Util Server Crypt

/-- The headers a callback is built from. -/
def callbackKeys : List Bytes :=
  [lit "Callback-Url", lit "Callback-Endpoint", lit "Callback-Type", lit "Callback-Satellite",
    lit "Callback-Fn", lit "Callback-Count", lit "Callback-Limit", lit "Callback-Resolved"]

theorem isCallbackKey_of_mem : ∀ k ∈ callbackKeys, isCallbackKey k := by decide

theorem ofMap_congr {map map' : StrMap} (h : ∀ k ∈ callbackKeys, map.get k = map'.get k) :
    Callback.ofMap map = Callback.ofMap map' := by
  unfold Callback.ofMap
  simp only [h _ (by decide : lit "Callback-Url" ∈ callbackKeys), h _ (by decide : lit "Callback-Type" ∈ callbackKeys),
    h _ (by decide : lit "Callback-Endpoint" ∈ callbackKeys), h _ (by decide : lit "Callback-Fn" ∈ callbackKeys),
    h _ (by decide : lit "Callback-Satellite" ∈ callbackKeys), h _ (by decide : lit "Callback-Count" ∈ callbackKeys),
    h _ (by decide : lit "Callback-Limit" ∈ callbackKeys), h _ (by decide : lit "Callback-Resolved" ∈ callbackKeys)]

theorem mem_assign {map : StrMap} {es : List Field} {f : Field} (h : f ∈ (map.assign es).entries) :
    f ∈ es ∨ f ∈ map.entries := by
  induction es generalizing map with
  | nil => exact .inr h
  | cons e es ih =>
    have hrest : f ∈ (StrMap.assign (map.insert e.1 e.2) es).entries := h
    rcases ih hrest with hes | hmap
    · exact .inl (List.mem_cons_of_mem _ hes)
    · rw [AList.entries_insert, List.mem_cons] at hmap
      rcases hmap with rfl | hmap
      · exact .inl List.mem_cons_self
      · exact .inr ((List.kerase_sublist _ _).subset hmap)

theorem mem_serialize_url (callback : Callback) (others : StrMap) :
    ⟨lit "Callback-Url", callback.url⟩ ∈ (callback.serialize others).entries := by
  have hlookup : (callback.serialize others).lookup (lit "Callback-Url") = some callback.url :=
    StrMap.lookup_assign others _ _
  exact AList.mem_lookup_iff.mp hlookup

/-- What a callback says in its headers is text for a line. -/
structure Callback.Written (callback : Callback) : Prop where
  url : Plain callback.url
  endpoint : Plain callback.endpoint
  type : Plain callback.type
  fn : Plain callback.fn
  count : inInt callback.count
  limit : inInt callback.limit

theorem plain_toText (n : Int) : Plain (toText n) := by
  unfold toText
  split_ifs
  · exact List.forall_mem_cons.mpr ⟨by decide, plain_decimal _⟩
  · exact plain_decimal _

/-- Headers that a message may have beside those of its callback. -/
def OtherHeader (f : Field) : Prop := PlainField f ∧ f.1 ≠ lit "Content-Size"

theorem otherHeader_of_mem {callback : Callback} (hc : callback.Written) {others : StrMap}
    (hothers : ∀ f ∈ others.entries, OtherHeader f) :
    ∀ f ∈ (callback.serialize others).entries, OtherHeader f := by
  intro f hf
  have hkey : ∀ k ∈ callbackKeys, Plain k ∧ ¬ lit ": " <:+: k ∧ k ≠ lit "Content-Size" := by decide
  have hfield : ∀ k ∈ callbackKeys, ∀ v, Plain v → OtherHeader ⟨k, v⟩ :=
    fun k hk v hv => ⟨⟨(hkey k hk).1, hv, (hkey k hk).2.1⟩, (hkey k hk).2.2⟩
  rcases mem_assign hf with hown | hother
  · simp only [List.mem_cons, List.not_mem_nil, or_false] at hown
    obtain rfl | rfl | rfl | rfl | rfl | rfl | rfl | rfl := hown
    · exact hfield _ (by decide) _ hc.url
    · exact hfield _ (by decide) _ hc.endpoint
    · exact hfield _ (by decide) _ hc.type
    · exact hfield _ (by decide) _ (plain_toText _)
    · exact hfield _ (by decide) _ hc.fn
    · exact hfield _ (by decide) _ (plain_toText _)
    · exact hfield _ (by decide) _ (plain_toText _)
    · exact hfield _ (by decide) _ (plain_toText _)
  · exact hothers f hother

variable {prizm : Prizm} {bio : Base64Filter}

/-- A callback that was parsed from headers that have one. -/
theorem parseHeaders_callback {start req : Request} {text : Bytes}
    (h : Request.parseHeaders prizm bio start text = .ok req)
    (hsome : ∃ f ∈ headerFields prizm text, isCallbackKey f.1) :
    ∃ callback, Callback.ofMap (StrMap.assign ∅ ((headerFields prizm text).filter (isCallbackKey ·.1))) = .ok callback ∧
      req.callback = some callback := by
  rw [parseHeaders_eq] at h
  simp only [bind_eq_ok] at h
  obtain ⟨s, hs, filled, hfilled, hreq⟩ := h
  have hmap := (scanFields_ok hs).2.1
  have hne : s.callbackMap ≠ ∅ := by
    rw [hmap]
    intro hempty
    obtain ⟨f, hf, hkey⟩ := hsome
    exact List.filter_eq_nil_iff.mp ((assign_eq_empty_iff _).mp hempty) f hf hkey
  unfold fillRequest at hfilled
  dsimp only at hfilled
  rw [if_neg hne] at hfilled
  obtain ⟨callback, hread, rfl⟩ := map_eq_ok.mp hfilled
  refine ⟨callback, hmap ▸ hread, ?_⟩
  rw [(readContent_keeps hreq).2.1, (splitQuery_keeps prizm _).2.2.2]

/-- A callback survives its headers, whatever other headers travel with it and in whatever order
the map is written. -/
theorem callback_received (hp : prizm.Documented) {hostname port path text : Bytes} {buf : MessageBuffer}
    {callback : Callback} {others : StrMap} (hhost : (10 : Byte) ∉ hostname) (hport : (10 : Byte) ∉ port)
    (hpath : (10 : Byte) ∉ path) (hc : callback.Written) (hothers : ∀ f ∈ others.entries, OtherHeader f)
    (hheaders : buf.headers.entries.Perm (callback.serialize others).entries)
    (h : headerSection hostname port path buf = .ok text) (req : Request) :
    ∃ r, Request.parseHeaders prizm bio req text = .ok r ∧ r.callback = some callback := by
  have hown : ∀ f ∈ buf.headers.entries, OtherHeader f :=
    fun f hf => otherHeader_of_mem hc hothers f (hheaders.subset hf)
  obtain ⟨hfields, hget, hsize⟩ := headerFields_sent hp hhost hport hpath
    (fun f hf => ⟨(hown f hf).1.key.notMem_lf, (hown f hf).1.value.notMem_lf⟩) h
  rw [map_readField_plain fun f hf => (hown f hf).1] at hfields
  have hall : headerFields prizm text = allFields (noCr hostname) (noCr port) buf := hfields
  have hget_own : ∀ k, buf.headers.get k = (callback.serialize others).get k :=
    fun k => congrArg (·.getD []) (AList.perm_lookup hheaders)
  have hread : Callback.ofMap buf.headers = .ok callback :=
    (ofMap_congr fun k _ => hget_own k).trans (ofMap_serialize hc.count hc.limit others)
  have hofMap : Callback.ofMap (StrMap.assign ∅ (headerFields prizm text)) = .ok callback := by
    rw [hall]
    exact (ofMap_congr fun k hk => get_allFields _ _ buf (isCallbackKey_of_mem k hk)).trans hread
  have hsome : ∃ f ∈ headerFields prizm text, isCallbackKey f.1 := by
    have hkey : isCallbackKey (lit "Callback-Url") := by decide
    have hmem := hheaders.symm.subset (mem_serialize_url callback others)
    rw [hall]
    exact ⟨_, List.mem_append_right _ hmem, hkey⟩
  have hnumbers : NumbersReadable (headerFields prizm text) := by
    rw [hall, numbersReadable_iff _ _ hsize]
    refine ⟨fun v hv => ?_, fun _ => (Callback.ofMap_isOk_iff _).mp ⟨callback, hread⟩⟩
    exact absurd rfl (hown _ (AList.mem_lookup_iff.mp hv)).2
  obtain ⟨r, hr⟩ : ∃ r, Request.parseHeaders prizm bio req text = .ok r := parseHeaders_get req hget hnumbers
  refine ⟨r, hr, ?_⟩
  obtain ⟨callback', hmap, hr⟩ := parseHeaders_callback hr hsome
  have hsame := ofMap_congr fun k hk => get_callbackMap (headerFields prizm text) (isCallbackKey_of_mem k hk)
  rw [hr, Except.ok.inj (hmap.symm.trans (hsame.trans hofMap))]

/-- A callback with the extreme numbers, an empty text and a separator in another. -/
def farCallback : Callback where
  url := lit "https://localhost:8080/a: b"
  endpoint := []
  type := lit "ricochet"
  satellite := true
  fn := lit "AVG"
  count := -2147483648
  limit := 2147483647
  resolved := true

def farHeaders : StrMap := StrMap.assign ∅ [⟨lit "Ticket", lit "7"⟩]

/-- The headers of a callback are read as that callback exactly if they fit into the buffer that they are written
into. -/
theorem callback_round_trip (hp : prizm.Documented) {hostname port path head : Bytes} {buf : MessageBuffer}
    {callback : Callback} {others : StrMap} (hhost : (10 : Byte) ∉ hostname) (hport : (10 : Byte) ∉ port)
    (hpath : (10 : Byte) ∉ path) (hc : callback.Written) (hothers : ∀ f ∈ others.entries, OtherHeader f)
    (hheaders : buf.headers.entries.Perm (callback.serialize others).entries)
    (hhead : requestHead hostname port path buf = .ok head) (hsize : inInt buf.sent.length) (req : Request) :
    (∃ text, headerSection hostname port path buf = .ok text ∧
      ∃ r, Request.parseHeaders prizm bio req text = .ok r ∧ r.callback = some callback) ↔ head.length < 490000 := by
  rw [exists_headerSection hhead hsize]
  refine and_iff_left_of_imp fun hlt => ?_
  have htext : headerSection hostname port path buf = .ok head := headerSection_eq_ok.mpr ⟨hsize, hhead, hlt⟩
  exact callback_received hp hhost hport hpath hc hothers hheaders htext req

theorem callback_round_trip_far :
    ∃ text, headerSection (lit "localhost") (lit "8080") (lit "/sum")
        { protocol := lit "job", headers := farCallback.serialize farHeaders } = .ok text ∧
      ∃ r, Request.parseHeaders Prizm.reference Base64Filter.reference { client := ⟨[], Nat.zero_le _, []⟩ } text =
        .ok r ∧ r.callback = some farCallback := by
  have hheaders : farHeaders.entries = [⟨lit "Ticket", lit "7"⟩] := rfl
  have hothers : ∀ f ∈ farHeaders.entries, OtherHeader f := by
    rw [hheaders, List.forall_mem_singleton]
    exact ⟨⟨by decide, by decide, by decide⟩, by decide⟩
  have hc : farCallback.Written := ⟨by decide, by decide, by decide, by decide, by decide, by decide⟩
  have hhead : ∃ head, requestHead (lit "localhost") (lit "8080") (lit "/sum")
      { protocol := lit "job", headers := farCallback.serialize farHeaders } = .ok head ∧ head.length < 490000 :=
    ⟨_, rfl, by decide +kernel⟩
  obtain ⟨head, hhead, hlt⟩ := hhead
  exact (callback_round_trip Prizm.reference_documented (by decide) (by decide) (by decide) hc hothers
    (List.Perm.refl _) hhead (by decide) _).mpr hlt

/-- A callback whose URL fills the buffer alone. -/
def longCallback : Callback where
  url := List.replicate 490000 97
  endpoint := []
  type := []
  satellite := false
  fn := []
  count := 0
  limit := 0
  resolved := false

theorem callback_too_long : longCallback.Written ∧
    (∃ head, requestHead (lit "localhost") (lit "8080") (lit "/sum")
      { protocol := lit "job", headers := longCallback.serialize ∅ } = .ok head) ∧
    ¬ ∃ text, headerSection (lit "localhost") (lit "8080") (lit "/sum")
      { protocol := lit "job", headers := longCallback.serialize ∅ } = .ok text := by
  have hall : ∀ c ∈ longCallback.url, c = 97 := fun c hc => List.eq_of_mem_replicate hc
  have hplain : Plain longCallback.url := by
    intro c hc
    rw [hall c hc]
    decide
  refine ⟨⟨hplain, by decide, by decide, by decide, by decide, by decide⟩, ⟨_, rfl⟩, ?_⟩
  rintro ⟨text, htext⟩
  obtain ⟨-, hhead, hlt⟩ := headerSection_eq_ok.mp htext
  have hle := length_le_requestHead hhead (mem_serialize_url longCallback ∅)
  rw [hplain.cstr] at hle
  have hlength : longCallback.url.length = 490000 := List.length_replicate
  omega

end Jericho.Message
