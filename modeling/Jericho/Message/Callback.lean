import Jericho.Util.Prizm

/-! The callback descriptor carried in `Callback-*` headers. -/
namespace Jericho.Message
open StdText Util

structure Callback where
  url : Bytes
  endpoint : Bytes
  type : Bytes
  satellite : Bool
  fn : Bytes
  count : Int
  limit : Int
  resolved : Bool := false
  deriving DecidableEq

/-- The constructor from a header map; a number that does not parse throws. -/
def Callback.ofMap (map : StrMap) : Exec Callback := do
  let satellite ← stoi (map.get (lit "Callback-Satellite"))
  let count ← stoi (map.get (lit "Callback-Count"))
  let limit ← stoi (map.get (lit "Callback-Limit"))
  return { url := map.get (lit "Callback-Url")
           endpoint := map.get (lit "Callback-Endpoint")
           type := map.get (lit "Callback-Type")
           satellite := satellite ≠ 0
           fn := map.get (lit "Callback-Fn")
           count := count
           limit := limit
           resolved := map.get (lit "Callback-Resolved") = lit "1" }

/-- `serialize`: the headers a callback travels in. -/
def Callback.serialize (callback : Callback) (map : StrMap) : StrMap :=
  map.assign [⟨lit "Callback-Url", callback.url⟩, ⟨lit "Callback-Endpoint", callback.endpoint⟩,
    ⟨lit "Callback-Type", callback.type⟩, ⟨lit "Callback-Satellite", toText callback.satellite.toInt⟩,
    ⟨lit "Callback-Fn", callback.fn⟩, ⟨lit "Callback-Count", toText callback.count⟩,
    ⟨lit "Callback-Limit", toText callback.limit⟩, ⟨lit "Callback-Resolved", toText callback.resolved.toInt⟩]

/-- The headers that must be numbers for a callback to be built. -/
def callbackNumbers : List Bytes :=
  [lit "Callback-Satellite", lit "Callback-Count", lit "Callback-Limit"]

theorem Callback.ofMap_isOk_iff (map : StrMap) :
    (∃ cb, Callback.ofMap map = .ok cb) ↔ ∀ k ∈ callbackNumbers, ∃ n, stoi (map.get k) = .ok n := by
  simp only [callbackNumbers, List.forall_mem_cons, List.not_mem_nil, false_imp_iff, implies_true,
    and_true]
  constructor
  · rintro ⟨cb, h⟩
    obtain ⟨satellite, hs, h⟩ := bind_eq_ok.mp h
    obtain ⟨count, hc, h⟩ := bind_eq_ok.mp h
    obtain ⟨limit, hl, -⟩ := bind_eq_ok.mp h
    exact ⟨⟨satellite, hs⟩, ⟨count, hc⟩, ⟨limit, hl⟩⟩
  · rintro ⟨⟨satellite, hs⟩, ⟨count, hc⟩, ⟨limit, hl⟩⟩
    simp only [Callback.ofMap, hs, hc, hl]
    exact ⟨_, rfl⟩

/-- The last of the assigned fields with a key holds its value. -/
theorem get_assign (map : StrMap) (fs : List Field) (key : Bytes) :
    (map.assign fs).get key = ((fs.reverse.dlookup key).or (map.lookup key)).getD [] := by
  unfold StrMap.get
  rw [StrMap.lookup_assign]

/-- The headers of a callback give the callback back. -/
theorem ofMap_serialize {callback : Callback} (hcount : inInt callback.count) (hlimit : inInt callback.limit)
    (map : StrMap) : Callback.ofMap (callback.serialize map) = .ok callback := by
  have hsatellite : stoi ((callback.serialize map).get (lit "Callback-Satellite")) =
      .ok callback.satellite.toInt := by
    have hget : (callback.serialize map).get (lit "Callback-Satellite") = toText callback.satellite.toInt :=
      get_assign map _ _
    rw [hget]
    apply stoi_toText
    cases callback.satellite <;> decide
  have hcounted : stoi ((callback.serialize map).get (lit "Callback-Count")) = .ok callback.count := by
    have hget : (callback.serialize map).get (lit "Callback-Count") = toText callback.count := get_assign map _ _
    rw [hget]
    exact stoi_toText hcount
  have hlimited : stoi ((callback.serialize map).get (lit "Callback-Limit")) = .ok callback.limit := by
    have hget : (callback.serialize map).get (lit "Callback-Limit") = toText callback.limit := get_assign map _ _
    rw [hget]
    exact stoi_toText hlimit
  have hbit : decide (callback.satellite.toInt ≠ 0) = callback.satellite := by
    cases callback.satellite <;> rfl
  have hresolved : decide ((callback.serialize map).get (lit "Callback-Resolved") = lit "1") = callback.resolved := by
    have hget : (callback.serialize map).get (lit "Callback-Resolved") = toText callback.resolved.toInt :=
      get_assign map _ _
    rw [hget]
    cases callback.resolved <;> decide
  have hurl : (callback.serialize map).get (lit "Callback-Url") = callback.url := get_assign map _ _
  have hendpoint : (callback.serialize map).get (lit "Callback-Endpoint") = callback.endpoint := get_assign map _ _
  have htype : (callback.serialize map).get (lit "Callback-Type") = callback.type := get_assign map _ _
  have hfn : (callback.serialize map).get (lit "Callback-Fn") = callback.fn := get_assign map _ _
  unfold Callback.ofMap
  rw [hsatellite, hcounted, hlimited]
  dsimp only [bind, Except.bind, pure, Except.pure]
  rw [hresolved, hbit, hurl, hendpoint, htype, hfn]

end Jericho.Message
