import Shachain2pc.Party.Reveal

/-!
# The transcript of a byte stream

A stream hashes the bytes it sends and the bytes it returns, each with one running hash. A
running SHA-256 is the bytes it has absorbed. The digest of a stream hashes both digests in
the order chosen when the transcript was enabled, which the two ends choose differently.
-/

namespace Shachain2pc

/-- The errors of the wire crate raised by the modelled code. -/
inductive WireError where
  | brokenPipe
  | fsAlreadyEnabled
  | fsNotEnabled
  deriving DecidableEq, Repr

/-- The text of an error. -/
def WireError.message : WireError → String
  | .brokenPipe => "byte channel closed"
  | .fsAlreadyEnabled => "Fiat-Shamir transcript already enabled"
  | .fsNotEnabled => "Fiat-Shamir transcript is not enabled"

/-- `first_digest_block`. -/
def firstDigestBlock (digest : Value32) : Block :=
  Vector.ofFn fun k : Fin 16 => digest.bytes.get ⟨k, by omega⟩

/-- A running hash absorbs bytes when it is enabled. -/
def absorb (hasher : Option (List UInt8)) (bytes : List UInt8) : Option (List UInt8) :=
  hasher.map (· ++ bytes)

/-- `get_digest`. -/
def getDigest (sha256 : List UInt8 → Value32) (sendFirst : Bool)
    (fsSend fsRecv : Option (List UInt8)) :
    Except WireError Block :=
  match fsSend, fsRecv with
  | some send, some recv =>
    let sent := (sha256 send).bytes.toList
    let received := (sha256 recv).bytes.toList
    .ok (firstDigestBlock (sha256 (if sendFirst then sent ++ received else received ++ sent)))
  | _, _ => .error .fsNotEnabled

/-- An enabled transcript has a digest. -/
theorem getDigest_ok (sha256 : List UInt8 → Value32) (sendFirst : Bool)
    (sent received : List UInt8) :
    ∃ digest, getDigest sha256 sendFirst (some sent) (some received) = .ok digest := ⟨_, rfl⟩

/-- Two ends which hashed each other's bytes, in opposite orders, have one digest. -/
theorem getDigest_agree (sha256 : List UInt8 → Value32) (sendFirst : Bool)
    (ours theirs : List UInt8) :
    getDigest sha256 sendFirst (some ours) (some theirs) =
      getDigest sha256 (!sendFirst) (some theirs) (some ours) := by
  cases sendFirst <;> rfl

end Shachain2pc
