import Shachain2pc.Lib.HalfGate

/-!
# Authenticated products

Two parties turn three random authenticated bits into two and their product. Each hashes its
keys and its MACs of the first bit; a half gate gives the other party the products with its
own bit. What the parties obtain adds up to the sum of their Deltas where the third bit is
wrong, so one bit in which the Deltas differ tells by how much to correct it. Correcting it
in public leaves equal check values. Two such products combine into one whose first factor
is the sum of both, and an opened difference turns it into the product of given bits.
-/

namespace AuthenticatedBits

variable {V : Type*} [AddCommGroup V] [Module (ZMod 2) V]

/-- A share of a bit, where a public bit is set. -/
def Share.scale (s : ZMod 2) (a : Share V) : Share V := ⟨s • a.mac, s • a.key⟩

/-- The party which adds a public bit to its own bit. -/
def Share.addOwn (one : V) (s : ZMod 2) (a : Share V) : Share V := ⟨a.mac + s • one, a.key⟩

/-- The party whose peer adds a public bit to its own bit. -/
def Share.addPeer (delta one : V) (s : ZMod 2) (b : Share V) : Share V :=
  ⟨b.mac, b.key + s • (delta + one)⟩

section values

variable (bit : V →ₗ[ZMod 2] ZMod 2)

/-- The bit which two parties share. -/
def sharedBit (a b : Share V) : ZMod 2 := bit a.mac + bit b.mac

/-- What a party knows of the products of its peer's bits with the sum of the Deltas. -/
def crossTerm (delta : V) (y : Share V) : V := bit y.mac • delta + y.key + y.mac

/-- What a party sends, for the product of its peer's bit with what it knows. -/
def productRow (delta : V) (hash : V → V) (x y : Share V) : V :=
  hash x.key + hash (x.key + delta) + crossTerm bit delta y

/-- A party's check value of a product, before the correction. -/
def productCheck (delta : V) (hash : V → V) (row : V) (x y z : Share V) : V :=
  hash x.key + (hash x.mac + bit x.mac • row) + z.key + z.mac + bit x.mac • crossTerm bit delta y +
    bit z.mac • delta

end values

variable {bit : V →ₗ[ZMod 2] ZMod 2} {deltaA deltaB one : V}
  {xA xB yA yB zA zB xA' xB' yA' yB' zA' zB' : Share V}

/-- A public multiple of an authenticated bit is authenticated. -/
theorem Authenticated.scale (h : Authenticated bit deltaA deltaB xA xB) (s : ZMod 2) :
    Authenticated bit deltaA deltaB (xA.scale s) (xB.scale s) where
  mac_left := by
    change s • xA.mac = s • xB.key + bit (s • xA.mac) • deltaB
    rw [map_smul, smul_assoc, ← smul_add, ← h.mac_left]
  mac_right := by
    change s • xB.mac = s • xA.key + bit (s • xB.mac) • deltaA
    rw [map_smul, smul_assoc, ← smul_add, ← h.mac_right]
  key_left := by
    change bit (s • xA.key) = 0
    rw [map_smul, h.key_left, smul_zero]
  key_right := by
    change bit (s • xB.key) = 0
    rw [map_smul, h.key_right, smul_zero]

/-- An authenticated bit stays authenticated when a public bit is added to it. -/
theorem Authenticated.addOwn (h : Authenticated bit deltaA deltaB xA xB) (hone : bit one = 1)
    (hdelta : bit deltaB = 1) (s : ZMod 2) :
    Authenticated bit deltaA deltaB (xA.addOwn one s) (xB.addPeer deltaB one s) where
  mac_left := by
    have hmac := h.mac_left
    change xA.mac + s • one = xB.key + s • (deltaB + one) + bit (xA.mac + s • one) • deltaB
    rw [map_add, map_smul, hone, smul_eq_mul, mul_one]
    generalize bit xA.mac = v at *
    rw [hmac]
    match_scalars <;> grind
  mac_right := h.mac_right
  key_left := h.key_left
  key_right := by
    change bit (xB.key + s • (deltaB + one)) = 0
    rw [map_add, map_smul, map_add, h.key_right, hdelta, hone, CharTwo.add_self_eq_zero, smul_zero,
      add_zero]

/-- The shared bit of a sum. -/
theorem sharedBit_add (xA xB yA yB : Share V) :
    sharedBit bit (xA.add yA) (xB.add yB) = sharedBit bit xA xB + sharedBit bit yA yB := by
  change bit (xA.mac + yA.mac) + bit (xB.mac + yB.mac) = _
  rw [map_add, map_add, add_add_add_comm]
  rfl

/-- The shared bit of a public multiple. -/
theorem sharedBit_scale (s : ZMod 2) (xA xB : Share V) :
    sharedBit bit (xA.scale s) (xB.scale s) = s * sharedBit bit xA xB := by
  change bit (s • xA.mac) + bit (s • xB.mac) = s * (bit xA.mac + bit xB.mac)
  rw [map_smul, map_smul, smul_eq_mul, smul_eq_mul, mul_add]

/-- The shared bit after a public bit is added to it. -/
theorem sharedBit_addOwn (hone : bit one = 1) (delta : V) (s : ZMod 2) (xA xB : Share V) :
    sharedBit bit (xA.addOwn one s) (xB.addPeer delta one s) = sharedBit bit xA xB + s := by
  change bit (xA.mac + s • one) + bit xB.mac = bit xA.mac + bit xB.mac + s
  rw [map_add, map_smul, hone, smul_eq_mul, mul_one, add_right_comm]

/-! ## The product of two bits -/

/-- The parties' cross terms add up to the shared bit times the sum of the Deltas. -/
theorem crossTerm_add (h : Authenticated bit deltaA deltaB yA yB) :
    crossTerm bit deltaA yA + crossTerm bit deltaB yB = sharedBit bit yA yB •
      (deltaA + deltaB) := by
  have hleft := h.mac_left
  have hright := h.mac_right
  unfold crossTerm sharedBit
  generalize bit yA.mac = v at *
  generalize bit yB.mac = w at *
  rw [hleft, hright]
  match_scalars <;> grind

/-- A party obtains the hash of its peer's key, and the product of its own bit with the peer's cross
term. -/
theorem productRow_select (hash : V → V) (h : Authenticated bit deltaA deltaB xA xB) (y : Share V) :
    hash xB.mac + bit xB.mac • productRow bit deltaA hash xA y =
      hash xA.key + bit xB.mac • crossTerm bit deltaA y := by
  have hmac := h.mac_right
  unfold productRow
  generalize bit xB.mac = v at *
  rw [hmac, HalfGate.hash_offset hash]
  match_scalars <;> grind

/-- The check values add up to the sum of the Deltas where the third bit is not the product. -/
theorem productCheck_add (hash : V → V) (hx : Authenticated bit deltaA deltaB xA xB)
    (hy : Authenticated bit deltaA deltaB yA yB) (hz : Authenticated bit deltaA deltaB zA zB) :
    productCheck bit deltaA hash (productRow bit deltaB hash xB yB) xA yA zA +
        productCheck bit deltaB hash (productRow bit deltaA hash xA yA) xB yB zB =
      (sharedBit bit xA xB * sharedBit bit yA yB + sharedBit bit zA zB) • (deltaA + deltaB) := by
  have hcross := crossTerm_add hy
  have hleft := hz.mac_left
  have hright := hz.mac_right
  unfold productCheck
  rw [productRow_select hash hx, productRow_select hash hx.symm, add_smul, mul_smul, ← hcross]
  unfold sharedBit
  generalize bit zA.mac = v at *
  generalize bit zB.mac = w at *
  rw [hleft, hright]
  match_scalars <;> grind

/-- A second functional, which tells the Deltas apart, reads off by how much the third bit is
wrong. -/
theorem productCheck_bit {bit1 : V →ₗ[ZMod 2] ZMod 2} (hash : V → V) (hA : bit1 deltaA = 1)
    (hB : bit1 deltaB = 0) (hx : Authenticated bit deltaA deltaB xA xB)
    (hy : Authenticated bit deltaA deltaB yA yB) (hz : Authenticated bit deltaA deltaB zA zB) :
    bit1 (productCheck bit deltaA hash (productRow bit deltaB hash xB yB) xA yA zA) +
        bit1 (productCheck bit deltaB hash (productRow bit deltaA hash xA yA) xB yB zB) =
      sharedBit bit xA xB * sharedBit bit yA yB + sharedBit bit zA zB := by
  rw [← map_add, productCheck_add hash hx hy hz, map_smul, map_add, hA, hB, add_zero, smul_eq_mul,
    mul_one]

/-- Corrected check values are equal. -/
theorem productCheck_corrected {checkA checkB : V} {s : ZMod 2}
    (h : checkA + checkB = s • (deltaA + deltaB)) : checkA + s • deltaA = checkB + s • deltaB := by
  have hsum : checkA + s • deltaA + (checkB + s • deltaB) = 0 := by
    rw [add_add_add_comm, h, ← smul_add, ZModModule.add_self]
  rw [← sub_eq_zero, ZModModule.sub_eq_add, hsum]

/-! ## Products -/

/-- Authenticated bits of which the third is the product of the first two. -/
structure Product (bit : V →ₗ[ZMod 2] ZMod 2) (deltaA deltaB : V) (xA xB yA yB zA zB : Share V) :
    Prop where
  left : Authenticated bit deltaA deltaB xA xB
  right : Authenticated bit deltaA deltaB yA yB
  product : Authenticated bit deltaA deltaB zA zB
  value : sharedBit bit zA zB = sharedBit bit xA xB * sharedBit bit yA yB

/-- The corrected third bit is the product. -/
theorem Product.of_correction (hx : Authenticated bit deltaA deltaB xA xB)
    (hy : Authenticated bit deltaA deltaB yA yB) (hz : Authenticated bit deltaA deltaB zA zB)
    (hone : bit one = 1) (hdelta : bit deltaB = 1) :
    Product bit deltaA deltaB xA xB yA yB
      (zA.addOwn one (sharedBit bit xA xB * sharedBit bit yA yB + sharedBit bit zA zB))
      (zB.addPeer deltaB one (sharedBit bit xA xB * sharedBit bit yA yB + sharedBit bit zA zB))
        where
  left := hx
  right := hy
  product := hz.addOwn hone hdelta _
  value := by
    rw [sharedBit_addOwn hone]
    grind

/-- Two products combine into one: the first factors are added, and the opened sum of the second
factors corrects the product. -/
theorem Product.combine (h : Product bit deltaA deltaB xA xB yA yB zA zB)
    (h' : Product bit deltaA deltaB xA' xB' yA' yB' zA' zB') :
    Product bit deltaA deltaB (xA.add xA') (xB.add xB') yA yB
      ((zA.add zA').add (xA'.scale (sharedBit bit yA yB + sharedBit bit yA' yB')))
      ((zB.add zB').add (xB'.scale (sharedBit bit yA yB + sharedBit bit yA' yB'))) where
  left := h.left.add h'.left
  right := h.right
  product := (h.product.add h'.product).add (h'.left.scale _)
  value := by
    rw [sharedBit_add, sharedBit_add, sharedBit_scale, sharedBit_add, h.value, h'.value]
    grind

/-- A product becomes that of bits which differ from its factors by opened bits. -/
theorem Product.shift (h : Product bit deltaA deltaB xA xB yA yB zA zB) (hone : bit one = 1)
    (hdelta : bit deltaB = 1) (s t : ZMod 2) :
    Authenticated bit deltaA deltaB (((zA.add (yA.scale s)).add (xA.scale t)).addOwn one (s * t))
        (((zB.add (yB.scale s)).add (xB.scale t)).addPeer deltaB one (s * t)) ∧
      sharedBit bit (((zA.add (yA.scale s)).add (xA.scale t)).addOwn one (s * t))
          (((zB.add (yB.scale s)).add (xB.scale t)).addPeer deltaB one (s * t)) =
        (sharedBit bit xA xB + s) * (sharedBit bit yA yB + t) := by
  constructor
  · exact ((h.product.add (h.right.scale s)).add (h.left.scale t)).addOwn hone hdelta _
  · rw [sharedBit_addOwn hone, sharedBit_add, sharedBit_add, sharedBit_scale,
      sharedBit_scale, h.value]
    grind

end AuthenticatedBits
