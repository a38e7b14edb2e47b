import Jericho.Message.Serve
import Jericho.Util.Url

/-! Cookies that are set, returned by the client, and rebuilt from the request. -/
namespace Jericho.Message
open StdText Util Server

/-- A name and its value, free of what separates them, and the prefix of the name. -/
structure CookiePair where
  key : Bytes
  val : Bytes
  pre : CookiePrefix
  key_free : (61 : Byte) ∉ key ∧ (59 : Byte) ∉ key ∧ (32 : Byte) ∉ key
  val_free : (59 : Byte) ∉ val ∧ (32 : Byte) ∉ val

namespace CookiePair

/-- What stands in front of the name. -/
def label : CookiePrefix → Bytes
  | .host => lit "__Host-"
  | .secure => lit "__Secure-"
  | .none => []

/-- The pair as a client returns it. -/
def text (p : CookiePair) : Bytes := label p.pre ++ p.key ++ lit "=" ++ p.val

/-- The token that is set for the pair. -/
def entry (p : CookiePair) : Field := ⟨p.key, p.text ++ if p.pre = .host then lit "; Path=/" else []⟩

end CookiePair

/-- Every pair is set with `token`. -/
def withTokens (pairs : List CookiePair) : Cookie := pairs.foldl (fun c p => c.token p.key p.val p.pre) {}

/-- What a client returns of the tokens that were sent: of each of them the part before its attributes. -/
def sentBack (tokens : List Field) : Bytes := (lit "; ").intercalate (tokens.map fun tok => tok.2.takeWhile (· ≠ 59))

/-- A request that returns the pairs is given a cookie with all of them, and one without the header is given none. -/
structure CookieRoundTrip (prizm : Prizm) (pairs : List CookiePair) : Prop where
  held : ∀ order, order.Perm (withTokens pairs).tokens.entries → ∀ req : Request,
    req.headers.lookup (lit "Cookie") = some (sentBack order) →
    ∃ cookie, requestCookie prizm req = some cookie ∧ ∀ p ∈ pairs, cookie.tokens.lookup p.key = some p.val
  absent : ∀ req : Request, req.headers.lookup (lit "Cookie") = none → requestCookie prizm req = none

theorem token_tokens (cookie : Cookie) (p : CookiePair) :
    (cookie.token p.key p.val p.pre).tokens = cookie.tokens.insert p.key p.entry.2 := by
  unfold Cookie.token CookiePair.entry CookiePair.text
  cases p.pre <;> simp [CookiePair.label]

/-- Distinct names are all kept. -/
theorem withTokens_entries {pairs : List CookiePair} (hkeys : (pairs.map CookiePair.key).Nodup) :
    (withTokens pairs).tokens.entries = (pairs.map CookiePair.entry).reverse := by
  have run : ∀ (ps : List CookiePair) (cookie : Cookie), (ps.map CookiePair.key).Nodup →
      (∀ p ∈ ps, p.key ∉ cookie.tokens) →
      (ps.foldl (fun c p => c.token p.key p.val p.pre) cookie).tokens.entries =
        (ps.map CookiePair.entry).reverse ++ cookie.tokens.entries := by
    intro ps
    induction ps with
    | nil => intro cookie _ _; rfl
    | cons p ps ih =>
      intro cookie hnodup hnew
      obtain ⟨hp, hps⟩ := List.nodup_cons.mp hnodup
      rw [List.foldl_cons, ih _ hps, token_tokens,
        AList.entries_insert_of_notMem (hnew p List.mem_cons_self), List.map_cons, List.reverse_cons, List.append_assoc]
      · rfl
      · intro q hq hmem
        rw [token_tokens] at hmem
        rcases (AList.mem_insert _).mp hmem with hkey | hold
        · exact hp (hkey ▸ List.mem_map_of_mem hq)
        · exact hnew q (List.mem_cons_of_mem _ hq) hold
  have h := run pairs {} hkeys fun _ _ => AList.notMem_empty _
  rwa [AList.empty_entries, List.append_nil] at h

namespace CookiePair

theorem text_free (p : CookiePair) : (59 : Byte) ∉ p.text := by
  have hlabel : (59 : Byte) ∉ label p.pre ++ lit "=" := by
    cases p.pre <;> decide
  intro h
  simp only [text, List.mem_append] at h hlabel
  rcases h with ((h | h) | h) | h
  · exact hlabel (.inl h)
  · exact p.key_free.2.1 h
  · exact hlabel (.inr h)
  · exact p.val_free.1 h

/-- A token is cut down to the pair. -/
theorem takeWhile_entry (p : CookiePair) : p.entry.2.takeWhile (· ≠ 59) = p.text := by
  have hrest : (if p.pre = .host then lit "; Path=/" else []).takeWhile (· ≠ 59) = [] := by
    split <;> rfl
  rw [entry, List.takeWhile_append_of_pos, hrest, List.append_nil]
  intro c hc
  exact decide_eq_true fun h => p.text_free (h ▸ hc)

end CookiePair

theorem sentBack_single (p : CookiePair) : sentBack [p.entry] = p.text := by
  rw [← p.takeWhile_entry]
  exact List.append_nil _

theorem header_of_lookup {req : Request} {text : Bytes} (h : req.headers.lookup (lit "Cookie") = some text) :
    req.header (lit "Cookie") = text := by
  rw [Request.header, StrMap.get, h]
  rfl

/-- What is built from a single pair with a prefix before its first dash. -/
theorem requestCookie_dash {prizm : Prizm} (hp : prizm.Documented) {req : Request} {pre key val : Bytes}
    (hheader : req.header (lit "Cookie") = pre ++ lit "-" ++ (key ++ lit "=" ++ val))
    (hsingle : (59 : Byte) ∉ pre ++ lit "-" ++ (key ++ lit "=" ++ val))
    (hgiven : pre ++ lit "-" ++ (key ++ lit "=" ++ val) ≠ lit "undefined")
    (hpre : (45 : Byte) ∉ pre) (hkey : (61 : Byte) ∉ key) :
    requestCookie prizm req = some (Cookie.ofRequest req.client.address key val) := by
  have hlength : ¬ 1 < (prizm.tokenizeStr (pre ++ lit "-" ++ (key ++ lit "=" ++ val)) (lit "; ")).length := by
    have hno : ¬ lit "; " <:+: pre ++ lit "-" ++ (key ++ lit "=" ++ val) :=
      fun h => hsingle (h.subset List.mem_cons_self)
    have hdelim : lit "; " ≠ [] := List.cons_ne_nil _ _
    rw [hp.tokenizeStr_eq _ _ hdelim, Occurrence.tokens, Occurrence.split_of_notMem hno]
    exact not_lt.mpr (List.length_filter_le _ _)
  have hdash : Occurrence.find (lit "-") (pre ++ lit "-" ++ (key ++ lit "=" ++ val)) = some pre.length :=
    find_first hpre [] _
  have hequals : Occurrence.find (lit "=") (key ++ lit "=" ++ val) = some key.length :=
    find_first hkey [] _
  have hcook : (pre ++ lit "-" ++ (key ++ lit "=" ++ val)).drop (pre.length + 1) = key ++ lit "=" ++ val :=
    List.drop_left' (by simp [lit])
  unfold requestCookie
  rw [hheader]
  dsimp only
  rw [if_neg hgiven, if_neg hlength, hdash]
  dsimp only
  rw [hcook, hequals]
  dsimp only
  rw [List.append_assoc, List.take_left, ← List.append_assoc, List.drop_left' (by simp [lit])]

/-- A pair with a prefix is rebuilt. -/
theorem requestCookie_single {prizm : Prizm} (hp : prizm.Documented) {p : CookiePair} (hpre : p.pre ≠ .none)
    {req : Request} (hheader : req.header (lit "Cookie") = p.text) :
    requestCookie prizm req = some (Cookie.ofRequest req.client.address p.key p.val) := by
  obtain ⟨pre, hlabel, hdash, hgiven⟩ : ∃ pre, CookiePair.label p.pre = pre ++ lit "-" ∧ (45 : Byte) ∉ pre ∧
      pre.head? = some 95 := by
    cases h : p.pre with
    | none => exact absurd h hpre
    | host => exact ⟨lit "__Host", rfl, by decide, rfl⟩
    | secure => exact ⟨lit "__Secure", rfl, by decide, rfl⟩
  have htext : p.text = pre ++ lit "-" ++ (p.key ++ lit "=" ++ p.val) := by
    rw [CookiePair.text, hlabel]
    simp only [List.append_assoc]
  apply requestCookie_dash hp (hheader.trans htext) (htext ▸ p.text_free) _ hdash p.key_free.1
  -- The name starts with an underscore.
  intro h
  have hhead := congrArg List.head? h
  rw [List.append_assoc, List.head?_append, hgiven] at hhead
  have hne : some (95 : Byte) ≠ (lit "undefined").head? := by decide
  exact hne hhead

theorem requestCookie_absent (prizm : Prizm) {req : Request} (h : req.headers.lookup (lit "Cookie") = none) :
    requestCookie prizm req = none := by
  have hheader : req.header (lit "Cookie") = [] := by
    rw [Request.header, StrMap.get, h]
    rfl
  apply Option.eq_none_iff_forall_ne_some.mpr
  intro cookie hcookie
  obtain ⟨pre, key, val, htext, -⟩ := requestCookie_eq_some hcookie
  rw [hheader] at htext
  have hlength := congrArg List.length htext
  simp [lit] at hlength

/-- The pairs come back exactly if there is one of them and it has a prefix. -/
theorem cookie_roundTrip_iff {prizm : Prizm} (hp : prizm.Documented) {pairs : List CookiePair} (hne : pairs ≠ [])
    (hkeys : (pairs.map CookiePair.key).Nodup) :
    CookieRoundTrip prizm pairs ↔ ∃ p, pairs = [p] ∧ p.pre ≠ .none := by
  constructor
  · intro h
    let req := pageRequest [] (sentBack (withTokens pairs).tokens.entries)
    have hreq : req.headers.lookup (lit "Cookie") = some (sentBack (withTokens pairs).tokens.entries) :=
      AList.lookup_insert _
    obtain ⟨cookie, hcookie, hheld⟩ := h.held _ (List.Perm.refl _) req hreq
    obtain ⟨pre, key, val, htext, rfl⟩ := requestCookie_eq_some hcookie
    -- Only one token is ever rebuilt.
    have honly : ∀ p ∈ pairs, p.key = key ∧ p.val = val := by
      intro p hmem
      have hlookup := hheld p hmem
      by_cases hkey : p.key = key
      · rw [hkey, Cookie.ofRequest, AList.lookup_insert] at hlookup
        exact ⟨hkey, (Option.some.inj hlookup).symm⟩
      · rw [Cookie.ofRequest, AList.lookup_insert_ne hkey, AList.lookup_empty] at hlookup
        cases hlookup
    obtain ⟨p, rest, rfl⟩ := List.exists_cons_of_ne_nil hne
    have hrest : rest = [] := by
      apply List.eq_nil_iff_forall_not_mem.mpr
      intro q hq
      apply (List.nodup_cons.mp hkeys).1
      rw [(honly p List.mem_cons_self).1, ← (honly q (List.mem_cons_of_mem _ hq)).1]
      exact List.mem_map_of_mem hq
    subst hrest
    refine ⟨p, rfl, fun hpre => ?_⟩
    -- Without a prefix the rebuilt pair and its dash are longer than what was sent.
    obtain ⟨hkey, hval⟩ := honly p List.mem_cons_self
    rw [header_of_lookup hreq, withTokens_entries hkeys, List.map_singleton, List.reverse_singleton, sentBack_single,
      CookiePair.text, hpre, hkey, hval] at htext
    have hlength := congrArg List.length htext
    simp only [CookiePair.label, List.length_append, List.length_nil] at hlength
    have hdash : (lit "-").length = 1 := rfl
    omega
  · rintro ⟨p, rfl, hpre⟩
    refine ⟨fun order horder req hreq => ?_, fun req hreq => requestCookie_absent prizm hreq⟩
    rw [withTokens_entries hkeys, List.map_singleton, List.reverse_singleton] at horder
    rw [List.perm_singleton.mp horder, sentBack_single] at hreq
    refine ⟨_, requestCookie_single hp hpre (header_of_lookup hreq), fun q hq => ?_⟩
    rw [List.mem_singleton.mp hq]
    exact AList.lookup_insert _

/-- The login cookie comes back. -/
theorem cookie_roundTrip_login :
    CookieRoundTrip Prizm.reference [⟨lit "sessionId", lit "12klj987asd134hjase9", .host, by decide, by decide⟩] :=
  (cookie_roundTrip_iff Prizm.reference_documented (List.cons_ne_nil _ _) (by exact List.nodup_singleton _)).mpr
    ⟨_, rfl, by decide⟩

/-- The unit test's single cookie has no prefix, and no cookie is built from it. -/
theorem cookie_unprefixed :
    ¬ CookieRoundTrip Prizm.reference [⟨lit "scooby", lit "snacks", .none, by decide, by decide⟩] := by
  intro h
  obtain ⟨cookie, hcookie, -⟩ := h.held _ (List.Perm.refl _) (pageRequest [] (lit "scooby=snacks")) rfl
  have hnone : requestCookie Prizm.reference (pageRequest [] (lit "scooby=snacks")) = none := by decide
  rw [hnone] at hcookie
  cases hcookie

end Jericho.Message
