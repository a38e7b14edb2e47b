import Jericho.Crypt.Sha256
import Jericho.Util.Prizm

/-! JSON web tokens: `jwt::generate` and `jwt::verify`. -/
namespace Jericho.Crypt
open StdText Util

/-- Key files: opening one, and reading a PEM key from its contents. -/
structure KeyFiles (Priv Pub : Type) where
  fopen : Bytes → Option Bytes
  readPrivateKey : Bytes → Option Priv
  readPubkey : Bytes → Option Pub

/-- What the token functions call outside the repository. -/
structure JwtLibrary (Priv Pub : Type) where
  prizm : Prizm
  bio : Base64Filter
  scheme : SignatureScheme Priv Pub
  hmac : Bytes → Bytes → Bytes
  files : KeyFiles Priv Pub
  /-- the serialised header object with this `alg` and type JWT -/
  serializeHeader : Bytes → Bytes

variable {Priv Pub : Type} (lib : JwtLibrary Priv Pub)

def dot : Bytes := [46]

/-- The message whose signature a token carries. -/
def presign (header payload : Bytes) : Bytes := header ++ dot ++ payload

/-- `jwt::generate`: the returned flag, and the token if one is written. A key file that does
not open returns 1. -/
def jwtGenerate (payload keypath : Bytes) (useRsa : Bool) : Bool × Option Bytes :=
  let header := lib.serializeHeader (if useRsa then lit "RS256" else lit "HS256")
  let token := encodeUrl lib.bio header ++ dot ++ encodeUrl lib.bio payload
  if useRsa then
    match lib.files.fopen keypath with
    | none => (true, none)
    | some file =>
      match lib.files.readPrivateKey file with
      | none => (false, none)
      | some key =>
        let signature := sha256Sign lib.scheme (presign header payload) key
        (true, some (token ++ dot ++ encodeUrl lib.bio signature))
  else (true, some (token ++ dot ++ hs256Sign lib.bio lib.hmac token keypath))

/-- The keys of the RSA branch; any failure is a rejected token. -/
def loadKeys (pubKeypath privKeypath : Bytes) : Option (Pub × Priv) := do
  let pubFile ← lib.files.fopen pubKeypath
  let privFile ← lib.files.fopen privKeypath
  let priv ← lib.files.readPrivateKey privFile
  let pub ← lib.files.readPubkey pubFile
  return (pub, priv)

/-- The three decoded parts of a token. -/
structure TokenParts where
  header : Bytes
  payload : Bytes
  signature : Bytes
  deriving DecidableEq

def decodeParts (h p s : Bytes) : Exec TokenParts := do
  let header ← decodeUrl lib.bio h
  let payload ← decodeUrl lib.bio p
  let signature ← decodeUrl lib.bio s
  return ⟨header, payload, signature⟩

/-- The rest of `verify`, once the keys (if any) are loaded: the result and the payload that
is handed out. -/
def verifyToken (token secret : Bytes) (keys : Option (Pub × Priv)) : Exec (Bool × Option Bytes) :=
  match lib.prizm.tokenize token 46 with
  | [h, p, s] => do
    let parts ← decodeParts lib h p s
    match keys with
    | some (pub, priv) =>
      -- the decoded signature is signed again, and that is what is checked
      let signature := sha256Sign lib.scheme parts.signature priv
      return (sha256Verify lib.scheme parts.signature signature pub, some parts.payload)
    | none =>
      return (hs256Sign lib.bio lib.hmac (h ++ dot ++ p) secret = s, some parts.payload)
  | _ => .ok (false, none)

/-- `jwt::verify`. In the HMAC branch the public key path is the secret; the flag `is_public`
selects a key that is not used. -/
def jwtVerify (token pubKeypath privKeypath : Bytes) (_isPublic useRsa : Bool) : Exec (Bool × Option Bytes) :=
  if useRsa then
    match loadKeys lib pubKeypath privKeypath with
    | none => .ok (false, none)
    | some keys => verifyToken lib token pubKeypath (some keys)
  else verifyToken lib token pubKeypath none

/-- The signature part of a token is a signature, under the public key, of its header and payload. -/
def ValidSignature (pub : Pub) (parts : TokenParts) : Prop :=
  lib.scheme.accepts pub (presign parts.header parts.payload) parts.signature = true

instance (pub : Pub) (parts : TokenParts) : Decidable (ValidSignature lib pub parts) := by
  unfold ValidSignature
  infer_instance

/-- The RSA branch accepts a token only with a valid signature. -/
def RsaSound (token pubKeypath privKeypath h p s : Bytes) (isPublic : Bool) : Prop :=
  ∀ payload, jwtVerify lib token pubKeypath privKeypath isPublic true = .ok (true, payload) →
    ∃ pub priv parts, loadKeys lib pubKeypath privKeypath = some (pub, priv) ∧
      decodeParts lib h p s = .ok parts ∧ ValidSignature lib pub parts

variable {lib}

/-- What the RSA branch checks: that the public key accepts what the private key signs. -/
theorem jwtVerify_rsa {token pubKeypath privKeypath h p s : Bytes} (isPublic : Bool)
    (htok : lib.prizm.tokenize token 46 = [h, p, s]) {pub : Pub} {priv : Priv} {parts : TokenParts}
    (hkeys : loadKeys lib pubKeypath privKeypath = some (pub, priv))
    (hparts : decodeParts lib h p s = .ok parts) :
    jwtVerify lib token pubKeypath privKeypath isPublic true =
      .ok (lib.scheme.accepts pub parts.signature (sha256Sign lib.scheme parts.signature priv), some parts.payload) := by
  rw [jwtVerify, if_pos rfl, hkeys]
  dsimp only
  rw [verifyToken, htok]
  dsimp only
  rw [hparts]
  rfl

/-- A token with loaded keys is accepted only if its parts decode. -/
theorem jwtVerify_rsa_ok {token pubKeypath privKeypath h p s : Bytes} {isPublic : Bool}
    (htok : lib.prizm.tokenize token 46 = [h, p, s]) {payload : Option Bytes}
    (hok : jwtVerify lib token pubKeypath privKeypath isPublic true = .ok (true, payload)) :
    ∃ pub priv parts, loadKeys lib pubKeypath privKeypath = some (pub, priv) ∧ decodeParts lib h p s = .ok parts := by
  rw [jwtVerify, if_pos rfl] at hok
  cases hkeys : loadKeys lib pubKeypath privKeypath with
  | none => simp [hkeys] at hok
  | some keys =>
    rw [hkeys] at hok
    dsimp only at hok
    rw [verifyToken, htok] at hok
    obtain ⟨parts, hparts, -⟩ := bind_eq_ok.mp hok
    exact ⟨keys.1, keys.2, parts, rfl, hparts⟩

/-- The RSA branch is sound on a token exactly when a key does not load, a part does not decode,
the two keys do not sign alike, or the signature is valid: the header and payload are never
compared with it. -/
theorem rsa_sound_iff (hideal : lib.scheme.Ideal) {token h p s : Bytes}
    (htok : lib.prizm.tokenize token 46 = [h, p, s]) (pubKeypath privKeypath : Bytes) (isPublic : Bool) :
    RsaSound lib token pubKeypath privKeypath h p s isPublic ↔
      ∀ pub priv parts, loadKeys lib pubKeypath privKeypath = some (pub, priv) →
        decodeParts lib h p s = .ok parts →
        lib.scheme.sign (lib.scheme.privateOf pub) parts.signature =
          some (sha256Sign lib.scheme parts.signature priv) →
        ValidSignature lib pub parts := by
  constructor
  · intro hsound pub priv parts hkeys hparts hsame
    have hverify := jwtVerify_rsa isPublic htok hkeys hparts
    rw [(hideal pub parts.signature _).mpr hsame] at hverify
    obtain ⟨pub', priv', parts', hkeys', hparts', hvalid⟩ := hsound _ hverify
    obtain ⟨rfl, rfl⟩ := Prod.mk.inj (Option.some.inj (hkeys.symm.trans hkeys'))
    obtain rfl := Except.ok.inj (hparts.symm.trans hparts')
    exact hvalid
  · intro hcond payload hok
    obtain ⟨pub, priv, parts, hkeys, hparts⟩ := jwtVerify_rsa_ok htok hok
    rw [jwtVerify_rsa isPublic htok hkeys hparts] at hok
    have haccept := (Prod.mk.inj (Except.ok.inj hok)).1
    exact ⟨pub, priv, parts, hkeys, hparts, hcond pub priv parts hkeys hparts ((hideal _ _ _).mp haccept)⟩

/-- With a key pair, every token whose parts decode is accepted. -/
theorem jwtVerify_accepts_all (hideal : lib.scheme.Ideal) {token pubKeypath privKeypath h p s : Bytes}
    (isPublic : Bool) (htok : lib.prizm.tokenize token 46 = [h, p, s]) {pub : Pub} {priv : Priv} {parts : TokenParts}
    (hkeys : loadKeys lib pubKeypath privKeypath = some (pub, priv)) (hpair : lib.scheme.privateOf pub = priv)
    (hsign : (lib.scheme.sign priv parts.signature).isSome) (hparts : decodeParts lib h p s = .ok parts) :
    jwtVerify lib token pubKeypath privKeypath isPublic true = .ok (true, some parts.payload) := by
  have haccept := hideal.verify_sign hpair hsign
  rw [sha256Verify] at haccept
  rw [jwtVerify_rsa isPublic htok hkeys hparts, haccept]

/-- An ideal scheme over one-byte keys: the key, then the message. -/
def keyedScheme : SignatureScheme Byte Byte where
  sign key m := some (key :: m)
  accepts key m s := s = key :: m
  privateOf key := key

theorem keyedScheme_ideal : keyedScheme.Ideal := by
  intro key m s
  simp [keyedScheme, eq_comm]

/-- Key files with the one-byte key 7 in them. -/
def keyedLibrary : JwtLibrary Byte Byte where
  prizm := Prizm.reference
  bio := Base64Filter.reference
  scheme := keyedScheme
  hmac secret m := secret ++ m
  files := ⟨fun _ => some [7], List.head?, List.head?⟩
  serializeHeader _ := lit "\x7b\x7d"

theorem keyedLibrary_keys (pubKeypath privKeypath : Bytes) :
    loadKeys keyedLibrary pubKeypath privKeypath = some (7, 7) := rfl

theorem rsa_sound_untouched :
    RsaSound keyedLibrary (lit "e30.MQ.B3t9LjE") (lit "pub.pem") (lit "priv.pem") (lit "e30") (lit "MQ")
      (lit "B3t9LjE") true := by
  have hdecode : decodeParts keyedLibrary (lit "e30") (lit "MQ") (lit "B3t9LjE") =
      .ok ⟨lit "\x7b\x7d", lit "1", 7 :: lit "\x7b\x7d.1"⟩ := by decide
  refine (rsa_sound_iff keyedScheme_ideal (by decide) _ _ _).mpr ?_
  intro pub priv parts hkeys hparts _
  rw [keyedLibrary_keys] at hkeys
  obtain ⟨rfl, rfl⟩ := Prod.mk.inj (Option.some.inj hkeys)
  obtain rfl := Except.ok.inj (hdecode.symm.trans hparts)
  decide

/-- The payload of a generated token is replaced, and the token is still accepted. -/
theorem rsa_sound_altered :
    jwtGenerate keyedLibrary (lit "1") (lit "priv.pem") true = (true, some (lit "e30.MQ.B3t9LjE")) ∧
    ¬ RsaSound keyedLibrary (lit "e30.Mg.B3t9LjE") (lit "pub.pem") (lit "priv.pem") (lit "e30") (lit "Mg")
      (lit "B3t9LjE") true := by
  have hdecode : decodeParts keyedLibrary (lit "e30") (lit "Mg") (lit "B3t9LjE") =
      .ok ⟨lit "\x7b\x7d", lit "2", 7 :: lit "\x7b\x7d.1"⟩ := by decide
  refine ⟨by decide, fun hsound => ?_⟩
  obtain ⟨pub, priv, parts, hkeys, hparts, hvalid⟩ := hsound (some (lit "2"))
    (jwtVerify_accepts_all keyedScheme_ideal true (by decide) (keyedLibrary_keys _ _) rfl rfl hdecode)
  rw [keyedLibrary_keys] at hkeys
  obtain ⟨rfl, rfl⟩ := Prod.mk.inj (Option.some.inj hkeys)
  obtain rfl := Except.ok.inj (hdecode.symm.trans hparts)
  revert hvalid
  decide

end Jericho.Crypt
