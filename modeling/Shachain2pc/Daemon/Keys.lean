import Shachain2pc.Daemon.Inner

/-!
# Key derivation

Seed shares and Deltas are expanded from the master secret under domain-separated labels.
HMAC-SHA256 is a parameter.
-/

namespace Shachain2pc

/-- The loop of `hkdf_expand`; its counter is one byte. -/
def hkdfBlocks (hmac : List UInt8 → List UInt8 → Value32) (prk info : List UInt8) :
    ℕ → UInt8 → List UInt8 → ℕ → List UInt8
  | 0, _, _, _ => []
  | fuel + 1, counter, t, len =>
    let block := (hmac prk (t ++ info ++ [counter])).bytes.toList
    if len ≤ 32 then block.take len
    else block ++ hkdfBlocks hmac prk info fuel (counter + 1) block (len - 32)

/-- `hkdf_expand`. -/
def hkdfExpand (hmac : List UInt8 → List UInt8 → Value32) (ikm salt info : List UInt8) (len : ℕ) :
    List UInt8 :=
  let prk := (hmac (if salt = [] then List.replicate 32 0 else salt) ikm).bytes.toList
  hkdfBlocks hmac prk info 255 1 [] len

/-- `info_with_u64`. -/
def infoWithU64 (label : String) (value : ℕ) : List UInt8 := asciiBytes label ++ leBytes 8 value

/-- `normalize_ag2pc_delta`. -/
def normalizeAg2pcDelta (party : Role) (delta : Block) : Block :=
  let first := delta[0]?.getD 0 ||| 1
  delta.setIfInBounds 0 (match party with
    | .alice => first ||| 2
    | .bob => first &&& ~~~2)

/-- `channel_delta`. -/
def channelDelta (hmac : List UInt8 → List UInt8 → Value32) (masterSecret : List UInt8)
    (channelIndex : ℕ) (role : Role) : Block :=
  let out := hkdfExpand hmac masterSecret []
    (infoWithU64 "shachain2pc channel delta v1" channelIndex ++ [role.partyId]) 16
  normalizeAg2pcDelta role (Vector.ofFn fun i : Fin 16 => out.getD i 0)

end Shachain2pc
