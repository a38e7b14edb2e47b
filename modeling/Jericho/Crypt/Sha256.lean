import Jericho.Crypt.Base64

/-! RSA-SHA256 signatures and HMAC-SHA256 tags as the repository calls them. -/
namespace Jericho.Crypt
open StdText

/-- OpenSSL's digest signatures: signing can fail, and a public key belongs to one private key. -/
structure SignatureScheme (Priv Pub : Type) where
  sign : Priv → Bytes → Option Bytes
  accepts : Pub → Bytes → Bytes → Bool
  privateOf : Pub → Priv

variable {Priv Pub : Type}

/-- A public key accepts a message and a signature exactly when its own private key signs the
message so. -/
def SignatureScheme.Ideal (scheme : SignatureScheme Priv Pub) : Prop :=
  ∀ pub m s, scheme.accepts pub m s = true ↔ scheme.sign (scheme.privateOf pub) m = some s

/-- `sha256::sign`; every OpenSSL error gives the empty string. -/
def sha256Sign (scheme : SignatureScheme Priv Pub) (message : Bytes) (key : Priv) : Bytes :=
  (scheme.sign key message).getD []

/-- `sha256::verify` -/
def sha256Verify (scheme : SignatureScheme Priv Pub) (message signature : Bytes) (key : Pub) : Bool :=
  scheme.accepts key message signature

/-- `hs256::sign` over a keyed hash. -/
def hs256Sign (bio : Base64Filter) (hmac : Bytes → Bytes → Bytes) (message secret : Bytes) : Bytes :=
  encodeUrl bio (hmac secret message)

/-- A key pair accepts its own signatures. -/
theorem SignatureScheme.Ideal.verify_sign {scheme : SignatureScheme Priv Pub} (h : scheme.Ideal) {pub : Pub}
    {priv : Priv} (hpair : scheme.privateOf pub = priv) {m : Bytes} (hs : (scheme.sign priv m).isSome) :
    sha256Verify scheme m (sha256Sign scheme m priv) pub = true := by
  obtain ⟨s, hs⟩ := Option.isSome_iff_exists.mp hs
  rw [sha256Verify, sha256Sign, h, hpair, hs, Option.getD_some]

end Jericho.Crypt
