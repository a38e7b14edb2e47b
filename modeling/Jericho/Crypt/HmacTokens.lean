import Jericho.Crypt.Jwt
import Jericho.Util.Json

/-! HMAC tokens: which payloads survive, and which texts are accepted. -/
namespace Jericho.Crypt
open StdText Util

variable {Priv Pub : Type}

/-- What the token functions rely on. A header is a serialised object, a tag has 32 bytes. -/
structure JwtLibrary.Documented (lib : JwtLibrary Priv Pub) : Prop where
  prizm : lib.prizm.Documented
  bio : lib.bio.Standard
  header : ∀ alg, lib.serializeHeader alg ≠ []
  hmac : ∀ secret m, (lib.hmac secret m).length = 32

variable (lib : JwtLibrary Priv Pub)

/-- A signed text: two pieces and the signature of both. -/
def signedToken (h p secret : Bytes) : Bytes :=
  h ++ dot ++ p ++ dot ++ hs256Sign lib.bio lib.hmac (h ++ dot ++ p) secret

/-- A payload survives: its token is accepted, and the payload is handed out again. -/
def HmacComplete (payload secret privKeypath : Bytes) (isPublic : Bool) : Prop :=
  ∃ token, jwtGenerate lib payload secret false = (true, some token) ∧
    jwtVerify lib token secret privKeypath isPublic false = .ok (true, some payload)

/-- A text is accepted exactly if it is a signed one. -/
def HmacExact (token secret privKeypath : Bytes) (isPublic : Bool) : Prop :=
  (∃ payload, jwtVerify lib token secret privKeypath isPublic false = .ok (true, payload)) ↔
    ∃ h p, h ≠ [] ∧ p ≠ [] ∧ 46 ∉ h ∧ 46 ∉ p ∧ token = signedToken lib h p secret

/-- A part of a token that `decode_url` can read. -/
def Decodes (part : Bytes) : Prop := ∃ text, decodeUrl lib.bio part = .ok text

variable {lib}

theorem JwtLibrary.Documented.sign_ne_nil (hlib : lib.Documented) (m secret : Bytes) :
    hs256Sign lib.bio lib.hmac m secret ≠ [] := by
  intro hnil
  have hlen := hlib.hmac secret m
  rw [(encodeUrl_eq_nil_iff hlib.bio).mp hnil] at hlen
  cases hlen

theorem JwtLibrary.Documented.dot_notMem_sign (hlib : lib.Documented) (m secret : Bytes) :
    46 ∉ hs256Sign lib.bio lib.hmac m secret :=
  dot_notMem_encodeUrl hlib.bio _

/-- The pieces of a signed text, of which the empty ones are dropped. -/
theorem JwtLibrary.Documented.tokenize_eq_filter (hlib : lib.Documented) {h p : Bytes} (secret : Bytes)
    (hdoth : 46 ∉ h) (hdotp : 46 ∉ p) :
    lib.prizm.tokenize (signedToken lib h p secret) 46 =
      [h, p, hs256Sign lib.bio lib.hmac (h ++ dot ++ p) secret].filter (· ≠ []) := by
  rw [hlib.prizm.tokenize_eq]
  unfold signedToken dot
  rw [List.append_assoc, List.append_assoc, List.append_assoc, List.singleton_append, List.singleton_append,
    List.splitOn_append_cons_self_of_not_mem hdoth, List.splitOn_append_cons_self_of_not_mem hdotp,
    List.splitOn_eq_singleton (hlib.dot_notMem_sign _ _)]

theorem JwtLibrary.Documented.tokenize_signed (hlib : lib.Documented) {h p : Bytes} (secret : Bytes)
    (hh : h ≠ []) (hp : p ≠ []) (hdoth : 46 ∉ h) (hdotp : 46 ∉ p) :
    lib.prizm.tokenize (signedToken lib h p secret) 46 = [h, p, hs256Sign lib.bio lib.hmac (h ++ dot ++ p) secret] := by
  rw [hlib.tokenize_eq_filter secret hdoth hdotp, List.filter_eq_self]
  simp only [List.forall_mem_cons, List.not_mem_nil, decide_eq_true_eq]
  exact ⟨hh, hp, hlib.sign_ne_nil _ _, fun _ hnil => hnil.elim⟩

/-- The pieces of a text are not empty and hold no dot. -/
theorem JwtLibrary.Documented.tokenize_pieces (hlib : lib.Documented) {token piece : Bytes}
    (h : piece ∈ lib.prizm.tokenize token 46) : piece ≠ [] ∧ 46 ∉ piece := by
  rw [hlib.prizm.tokenize_eq] at h
  obtain ⟨hmem, hne⟩ := List.mem_filter.mp h
  exact ⟨by simpa using hne, notMem_of_mem_splitOn hmem⟩

/-- The HMAC branch accepts a text whose three pieces decode and end in the signature of the
first two. -/
theorem jwtVerify_hmac_iff (hlib : lib.Documented) {token secret privKeypath : Bytes} {isPublic : Bool}
    {payload : Option Bytes} :
    jwtVerify lib token secret privKeypath isPublic false = .ok (true, payload) ↔
      ∃ h p text, lib.prizm.tokenize token 46 = [h, p, hs256Sign lib.bio lib.hmac (h ++ dot ++ p) secret] ∧
        Decodes lib h ∧ decodeUrl lib.bio p = .ok text ∧ payload = some text := by
  have hverify : jwtVerify lib token secret privKeypath isPublic false = verifyToken lib token secret none := rfl
  rw [hverify, verifyToken]
  constructor
  · intro haccept
    split at haccept
    · next h p s htok =>
      obtain ⟨parts, hparts, haccept⟩ := bind_eq_ok.mp haccept
      obtain ⟨hsame, rfl⟩ := Prod.mk.inj (Except.ok.inj haccept)
      obtain ⟨header, hheader, hparts⟩ := bind_eq_ok.mp hparts
      obtain ⟨text, htext, hparts⟩ := bind_eq_ok.mp hparts
      obtain ⟨signature, -, hparts⟩ := bind_eq_ok.mp hparts
      obtain rfl := Except.ok.inj hparts
      have hs : hs256Sign lib.bio lib.hmac (h ++ dot ++ p) secret = s := by simpa using hsame
      exact ⟨h, p, text, by rw [htok, hs], ⟨header, hheader⟩, htext, rfl⟩
    · cases haccept
  · rintro ⟨h, p, text, htok, ⟨header, hheader⟩, htext, rfl⟩
    obtain ⟨signature, hsignature, -⟩ := decodeUrl_encodeUrl hlib.bio (lib.hmac secret (h ++ dot ++ p))
    have hparts : decodeParts lib h p (hs256Sign lib.bio lib.hmac (h ++ dot ++ p) secret) =
        .ok ⟨header, text, signature⟩ := by
      unfold decodeParts hs256Sign
      rw [hheader, htext, hsignature]
      rfl
    rw [htok]
    dsimp only
    rw [hparts]
    simp

/-- A payload survives if it is not empty and its encoding is restorable. -/
theorem hmacComplete_iff (hlib : lib.Documented) (payload secret privKeypath : Bytes) (isPublic : Bool) :
    HmacComplete lib payload secret privKeypath isPublic ↔ payload ≠ [] ∧ Restorable payload := by
  have hgenerate : jwtGenerate lib payload secret false = (true, some (signedToken lib
      (encodeUrl lib.bio (lib.serializeHeader (lit "HS256"))) (encodeUrl lib.bio payload) secret)) := rfl
  have hheader : encodeUrl lib.bio (lib.serializeHeader (lit "HS256")) ≠ [] :=
    mt (encodeUrl_eq_nil_iff hlib.bio).mp (hlib.header _)
  have haccept : HmacComplete lib payload secret privKeypath isPublic ↔
      jwtVerify lib (signedToken lib (encodeUrl lib.bio (lib.serializeHeader (lit "HS256")))
        (encodeUrl lib.bio payload) secret) secret privKeypath isPublic false = .ok (true, some payload) := by
    unfold HmacComplete
    rw [hgenerate]
    constructor
    · rintro ⟨token, htoken, hverify⟩
      obtain rfl := Option.some.inj (Prod.mk.inj htoken).2
      exact hverify
    · exact fun hverify => ⟨_, rfl, hverify⟩
  rw [haccept, jwtVerify_hmac_iff hlib]
  constructor
  · rintro ⟨h, p, text, htok, -, htext, hpayload⟩
    obtain rfl := Option.some.inj hpayload
    have hne : payload ≠ [] := by
      rintro rfl
      have hempty : encodeUrl lib.bio [] = [] := (encodeUrl_eq_nil_iff hlib.bio).mpr rfl
      rw [hlib.tokenize_eq_filter secret (dot_notMem_encodeUrl hlib.bio _) (dot_notMem_encodeUrl hlib.bio _), hempty,
        List.filter_cons_of_pos (by simpa using hheader), List.filter_cons_of_neg (by simp)] at htok
      have hle : [p, hs256Sign lib.bio lib.hmac (h ++ dot ++ p) secret].length ≤ 1 :=
        (List.cons.inj htok).2 ▸ List.length_filter_le _ _
      exact absurd hle (by simp)
    have hpieces := hlib.tokenize_signed secret hheader (mt (encodeUrl_eq_nil_iff hlib.bio).mp hne)
      (dot_notMem_encodeUrl hlib.bio _) (dot_notMem_encodeUrl hlib.bio _)
    rw [htok] at hpieces
    obtain ⟨-, hpieces⟩ := List.cons.inj hpieces
    obtain ⟨rfl, -⟩ := List.cons.inj hpieces
    exact ⟨hne, (url_round_trip_iff hlib.bio payload).mp htext⟩
  · rintro ⟨hne, hrestorable⟩
    obtain ⟨header, hdecoded, -⟩ := decodeUrl_encodeUrl hlib.bio (lib.serializeHeader (lit "HS256"))
    refine ⟨_, _, payload, hlib.tokenize_signed secret hheader (mt (encodeUrl_eq_nil_iff hlib.bio).mp hne)
      (dot_notMem_encodeUrl hlib.bio _) (dot_notMem_encodeUrl hlib.bio _), ⟨header, hdecoded⟩,
      (url_round_trip_iff hlib.bio payload).mpr hrestorable, rfl⟩

/-- A text is treated right unless its pieces are a signed pair and either a piece does not decode,
or there are dots around the pieces. -/
theorem hmacExact_iff (hlib : lib.Documented) (token secret privKeypath : Bytes) (isPublic : Bool) :
    HmacExact lib token secret privKeypath isPublic ↔
      ∀ h p, lib.prizm.tokenize token 46 = [h, p, hs256Sign lib.bio lib.hmac (h ++ dot ++ p) secret] →
        (token = signedToken lib h p secret ↔ Decodes lib h ∧ Decodes lib p) := by
  have haccept : ∀ {h p}, lib.prizm.tokenize token 46 = [h, p, hs256Sign lib.bio lib.hmac (h ++ dot ++ p) secret] →
      ((∃ payload, jwtVerify lib token secret privKeypath isPublic false = .ok (true, payload)) ↔
        Decodes lib h ∧ Decodes lib p) := by
    intro h p htok
    simp only [jwtVerify_hmac_iff hlib]
    constructor
    · rintro ⟨payload, h', p', text, htok', hh, hp, -⟩
      obtain ⟨rfl, hrest⟩ := List.cons.inj (htok.symm.trans htok')
      obtain ⟨rfl, -⟩ := List.cons.inj hrest
      exact ⟨hh, text, hp⟩
    · rintro ⟨hh, text, hp⟩
      exact ⟨some text, h, p, text, htok, hh, hp, rfl⟩
  have hsigned : ∀ {h p}, lib.prizm.tokenize token 46 = [h, p, hs256Sign lib.bio lib.hmac (h ++ dot ++ p) secret] →
      ((∃ h' p', h' ≠ [] ∧ p' ≠ [] ∧ 46 ∉ h' ∧ 46 ∉ p' ∧ token = signedToken lib h' p' secret) ↔
        token = signedToken lib h p secret) := by
    intro h p htok
    constructor
    · rintro ⟨h', p', hh, hp, hdoth, hdotp, heq⟩
      have htok' := hlib.tokenize_signed secret hh hp hdoth hdotp
      rw [← heq, htok] at htok'
      obtain ⟨rfl, hrest⟩ := List.cons.inj htok'
      obtain ⟨rfl, -⟩ := List.cons.inj hrest
      exact heq
    · intro heq
      obtain ⟨hh, hdoth⟩ := hlib.tokenize_pieces (show h ∈ lib.prizm.tokenize token 46 by rw [htok]; simp)
      obtain ⟨hp, hdotp⟩ := hlib.tokenize_pieces (show p ∈ lib.prizm.tokenize token 46 by rw [htok]; simp)
      exact ⟨h, p, hh, hp, hdoth, hdotp, heq⟩
  unfold HmacExact
  constructor
  · intro hexact h p htok
    rw [← hsigned htok, ← haccept htok, hexact]
  · intro hcond
    constructor
    · intro hverify
      obtain ⟨payload, hok⟩ := hverify
      obtain ⟨h, p, text, htok, -⟩ := (jwtVerify_hmac_iff hlib).mp hok
      exact (hsigned htok).mpr ((hcond h p htok).mpr ((haccept htok).mp ⟨payload, hok⟩))
    · rintro ⟨h, p, hh, hp, hdoth, hdotp, heq⟩
      have htok := hlib.tokenize_signed secret hh hp hdoth hdotp
      rw [← heq] at htok
      exact (haccept htok).mpr ((hcond h p htok).mp heq)

/-- HMAC tokens. A payload survives if it is not empty and its encoding is restorable; a text is
treated right unless its pieces are a signed pair and either a piece does not decode or there are
dots around the pieces. -/
theorem hmac_tokens_iff (hlib : lib.Documented) (secret privKeypath : Bytes) (isPublic : Bool) :
    (∀ payload, HmacComplete lib payload secret privKeypath isPublic ↔ payload ≠ [] ∧ Restorable payload) ∧
    ∀ token, HmacExact lib token secret privKeypath isPublic ↔
      ∀ h p, lib.prizm.tokenize token 46 = [h, p, hs256Sign lib.bio lib.hmac (h ++ dot ++ p) secret] →
        (token = signedToken lib h p secret ↔ Decodes lib h ∧ Decodes lib p) :=
  ⟨fun payload => hmacComplete_iff hlib payload secret privKeypath isPublic,
    fun token => hmacExact_iff hlib token secret privKeypath isPublic⟩

/-- The tags of three texts under the secret `secret`: with the payload `hello`, with the one byte
248 and with none. -/
def tagOf (m : Bytes) : Bytes :=
  match m.length with
  | 39 => [17, 91, 215, 81, 61, 20, 67, 217, 8, 137, 250, 204, 76, 47, 107, 107, 21, 19, 237, 107, 80, 123, 170, 187,
      153, 189, 165, 132, 223, 224, 43, 1]
  | 37 => [23, 165, 249, 121, 118, 129, 50, 204, 216, 59, 89, 12, 174, 232, 193, 24, 108, 56, 248, 84, 201, 167, 101,
      37, 119, 160, 218, 207, 219, 247, 114, 238]
  | _ => [245, 98, 135, 181, 141, 122, 161, 190, 48, 178, 241, 79, 217, 176, 228, 220, 96, 58, 232, 12, 55, 85, 242, 33,
      213, 74, 210, 66, 89, 156, 194, 255]

def taggedLibrary : JwtLibrary Byte Byte where
  prizm := Prizm.reference
  bio := Base64Filter.reference
  scheme := keyedScheme
  hmac _ m := tagOf m
  files := ⟨fun _ => some [7], List.head?, List.head?⟩
  serializeHeader alg := objectText [(lit "alg", serializeStr alg), (lit "typ", serializeStr (lit "JWT"))]

theorem taggedLibrary_documented : taggedLibrary.Documented where
  prizm := Prizm.reference_documented
  bio := Base64Filter.reference_standard
  header _ := by simp [taggedLibrary, objectText]
  hmac _ m := by
    change (tagOf m).length = 32
    unfold tagOf
    split <;> rfl

/-- The payload `hello` survives, and its token is accepted as the signed one it is. -/
theorem hmac_tokens_hello :
    HmacComplete taggedLibrary (lit "hello") (lit "secret") [] true ∧
      HmacExact taggedLibrary
        (lit "eyJhbGciOiJIUzI1NiIsInR5cCI6IkpXVCJ9.aGVsbG8.9WKHtY16ob4wsvFP2bDk3GA66Aw3VfIh1UrSQlmcwv8")
        (lit "secret") [] true := by
  obtain ⟨hcomplete, hexact⟩ := hmac_tokens_iff taggedLibrary_documented (lit "secret") [] true
  refine ⟨(hcomplete (lit "hello")).mpr (by decide), (hexact _).mpr ?_⟩
  intro h p htok
  have hpieces : taggedLibrary.prizm.tokenize
      (lit "eyJhbGciOiJIUzI1NiIsInR5cCI6IkpXVCJ9.aGVsbG8.9WKHtY16ob4wsvFP2bDk3GA66Aw3VfIh1UrSQlmcwv8") 46 =
      [lit "eyJhbGciOiJIUzI1NiIsInR5cCI6IkpXVCJ9", lit "aGVsbG8", lit "9WKHtY16ob4wsvFP2bDk3GA66Aw3VfIh1UrSQlmcwv8"] := by
    decide
  obtain ⟨rfl, hrest⟩ := List.cons.inj (hpieces.symm.trans htok)
  obtain ⟨rfl, -⟩ := List.cons.inj hrest
  have hsigned : lit "eyJhbGciOiJIUzI1NiIsInR5cCI6IkpXVCJ9.aGVsbG8.9WKHtY16ob4wsvFP2bDk3GA66Aw3VfIh1UrSQlmcwv8" =
      signedToken taggedLibrary (lit "eyJhbGciOiJIUzI1NiIsInR5cCI6IkpXVCJ9") (lit "aGVsbG8") (lit "secret") := by
    decide
  exact iff_of_true hsigned ⟨⟨_, rfl⟩, ⟨_, rfl⟩⟩

/-- The byte 248 comes back as 252, the empty payload is rejected, and a dot before a signed token
is not seen. -/
theorem hmac_tokens_broken :
    ¬ HmacComplete taggedLibrary [248] (lit "secret") [] true ∧
    ¬ HmacComplete taggedLibrary [] (lit "secret") [] true ∧
    ¬ HmacExact taggedLibrary
      (lit ".eyJhbGciOiJIUzI1NiIsInR5cCI6IkpXVCJ9.aGVsbG8.9WKHtY16ob4wsvFP2bDk3GA66Aw3VfIh1UrSQlmcwv8")
      (lit "secret") [] true := by
  refine ⟨?_, ?_, ?_⟩
  · rintro ⟨token, hgenerate, hverify⟩
    have htoken : (jwtGenerate taggedLibrary [248] (lit "secret") false).2 =
        some (lit "eyJhbGciOiJIUzI1NiIsInR5cCI6IkpXVCJ9.-A.EVvXUT0UQ9kIifrMTC9raxUT7WtQe6q7mb2lhN_gKwE") := by decide
    rw [hgenerate] at htoken
    obtain rfl := Option.some.inj htoken
    revert hverify
    decide
  · rintro ⟨token, hgenerate, hverify⟩
    have htoken : (jwtGenerate taggedLibrary [] (lit "secret") false).2 =
        some (lit "eyJhbGciOiJIUzI1NiIsInR5cCI6IkpXVCJ9..F6X5eXaBMszYO1kMrujBGGw4-FTJp2Uld6Daz9v3cu4") := by decide
    rw [hgenerate] at htoken
    obtain rfl := Option.some.inj htoken
    revert hverify
    decide
  · intro hexact
    obtain ⟨h, p, hh, -, hdoth, -, heq⟩ := hexact.mp ⟨some (lit "hello"), by decide⟩
    cases h with
    | nil => exact hh rfl
    | cons c h =>
      have hc : (46 : Byte) = c := (List.cons.inj heq).1
      exact hdoth (hc ▸ List.mem_cons_self)

end Jericho.Crypt
