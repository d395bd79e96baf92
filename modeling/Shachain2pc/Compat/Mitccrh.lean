import Shachain2pc.Compat.BlockAlgebra

/-!
# The tweakable hash

`Mitccrh8` hashes blocks under a key which changes with every eighth key use. Its key
schedule has two forms; the position of a fresh hash is a multiple of eight and stays one,
so the schedule always is a single key. A call therefore hashes all its blocks with one
function, and moves on in a way that depends neither on the blocks nor on their number:
two parties calling it equally often use the same function each time.
-/

namespace Shachain2pc

/-- A hash of blocks with a running tweak: each call applies one function to all its blocks. -/
structure TweakableHash (M : Type) where
  hash : M → List Block → List Block × M
  tweak : M → Block → Block
  next : M → M
  hash_eq : ∀ state blocks, hash state blocks = (blocks.map (tweak state), next state)

/-- The state of a tweakable hash after a number of calls. -/
def TweakableHash.after {M : Type} (H : TweakableHash M) (state : M) (calls : ℕ) : M :=
  H.next^[calls] state

structure Mitccrh8 where
  startPoint : Block
  gid : UInt64
  keyUsed : ℕ
  scheduledBucket : Option UInt64
  scheduledKeys : List Block

/-- `Mitccrh8::new`. -/
def Mitccrh8.new (seed : Block) : Mitccrh8 := ⟨seed, 0, 8, none, []⟩

/-- `renew_ks`. A scheduled cipher is its key. -/
def Mitccrh8.renewKs (m : Mitccrh8) : Mitccrh8 :=
  let first := m.gid >>> 3
  let last := (m.gid + 7) >>> 3
  if first = last then
    { m with
      scheduledKeys := [blockXor m.startPoint (Block.make first 0)]
      scheduledBucket := some first, gid := m.gid + 8, keyUsed := 0 }
  else
    { m with
      scheduledKeys := (List.range 8).map fun i =>
        blockXor m.startPoint (Block.make ((m.gid + UInt64.ofNat i) >>> 3) 0)
      scheduledBucket := none, gid := m.gid + 8, keyUsed := 0 }

/-- The keys are renewed once all eight are used. -/
def Mitccrh8.renewed (m : Mitccrh8) : Mitccrh8 := if m.keyUsed = 8 then m.renewKs else m

variable (permute : Block → Block → Block)

/-- `mitccrh_apply`. -/
def mitccrhApply (key block : Block) (cir : Bool) : Block :=
  let input := if cir then block.sigma else block
  blockXor (permute key input) input

/-- `hash_inner`, for `k` keys with `h` blocks each. -/
def Mitccrh8.hashInner (m : Mitccrh8) (blocks : List Block) (k h : ℕ) (cir : Bool) :
    List Block × Mitccrh8 :=
  let m := m.renewed
  let hashed := match m.scheduledBucket with
    | some _ => blocks.map fun block =>
      mitccrhApply permute (m.scheduledKeys.headD Block.zero) block cir
    | none => blocks.mapIdx fun offset block =>
        mitccrhApply permute (m.scheduledKeys.getD (m.keyUsed + offset / h) Block.zero) block cir
  (hashed, { m with keyUsed := m.keyUsed + k })

/-- The position is a multiple of eight, and a schedule in use is a single key. -/
def Mitccrh8.SingleKey (m : Mitccrh8) : Prop :=
  m.gid &&& 7 = 0 ∧ (m.keyUsed = 8 ∨ m.scheduledBucket.isSome)

/-- A multiple of eight and its seven successors are in one bucket. -/
theorem bucket_eq {gid : UInt64} (h : gid &&& 7 = 0) : (gid + 7) >>> 3 = gid >>> 3 := by
  have hmod : gid.toNat % 8 = 0 := by
    have hand := congrArg UInt64.toNat h
    rwa [UInt64.toNat_and, show (7 : UInt64).toNat = 2 ^ 3 - 1 from rfl,
      Nat.and_two_pow_sub_one_eq_mod] at hand
  have hlt := gid.toNat_lt
  apply UInt64.toNat_inj.mp
  rw [UInt64.toNat_shiftRight, UInt64.toNat_shiftRight, UInt64.toNat_add,
    show (7 : UInt64).toNat = 7 from rfl, show (3 : UInt64).toNat % 64 = 3 from rfl,
    Nat.shiftRight_eq_div_pow, Nat.shiftRight_eq_div_pow]
  omega

/-- The next multiple of eight is one. -/
theorem add_eight_and_seven {gid : UInt64} (h : gid &&& 7 = 0) : (gid + 8) &&& 7 = 0 := by
  have hmod : gid.toNat % 8 = 0 := by
    have hand := congrArg UInt64.toNat h
    rwa [UInt64.toNat_and, show (7 : UInt64).toNat = 2 ^ 3 - 1 from rfl,
      Nat.and_two_pow_sub_one_eq_mod] at hand
  apply UInt64.toNat_inj.mp
  rw [UInt64.toNat_and, show (7 : UInt64).toNat = 2 ^ 3 - 1 from rfl,
    Nat.and_two_pow_sub_one_eq_mod, UInt64.toNat_add, show (8 : UInt64).toNat = 8 from rfl]
  change _ = 0
  omega

/-- A fresh hash is at a multiple of eight. -/
theorem Mitccrh8.singleKey_new (seed : Block) : (Mitccrh8.new seed).SingleKey :=
  ⟨UInt64.zero_and, .inl rfl⟩

/-- A renewed schedule is a single key. -/
theorem Mitccrh8.SingleKey.renewed {m : Mitccrh8} (h : m.SingleKey) :
    m.renewed.gid &&& 7 = 0 ∧ m.renewed.scheduledBucket.isSome := by
  unfold Mitccrh8.renewed
  split
  · unfold Mitccrh8.renewKs
    rw [if_pos (bucket_eq h.1).symm]
    exact ⟨add_eight_and_seven h.1, rfl⟩
  · next hused => exact ⟨h.1, h.2.resolve_left hused⟩

/-- With a single key, a call applies one function to all its blocks. -/
theorem Mitccrh8.SingleKey.hashInner {m : Mitccrh8} (hm : m.SingleKey) (blocks : List Block)
    (k h : ℕ) (cir : Bool) :
    m.hashInner permute blocks k h cir =
      (blocks.map fun block =>
        mitccrhApply permute (m.renewed.scheduledKeys.headD Block.zero) block cir,
      { m.renewed with keyUsed := m.renewed.keyUsed + k }) := by
  obtain ⟨bucket, hbucket⟩ := Option.isSome_iff_exists.mp hm.renewed.2
  simp only [Mitccrh8.hashInner, hbucket]

/-- A call keeps the schedule a single key. -/
theorem Mitccrh8.SingleKey.next {m : Mitccrh8} (h : m.SingleKey) (k : ℕ) :
    Mitccrh8.SingleKey { m.renewed with keyUsed := m.renewed.keyUsed + k } :=
  ⟨h.renewed.1, .inr h.renewed.2⟩

/-- The calls of `hash_cir` with one key, on any number of blocks. -/
def Mitccrh8.hashCir : TweakableHash { m : Mitccrh8 // m.SingleKey } where
  hash m blocks :=
    ((m.val.hashInner permute blocks 1 blocks.length true).1,
      ⟨(m.val.hashInner permute blocks 1 blocks.length true).2, by
        rw [m.property.hashInner]; exact m.property.next 1⟩)
  tweak m block := mitccrhApply permute (m.val.renewed.scheduledKeys.headD Block.zero) block true
  next m := ⟨{ m.val.renewed with keyUsed := m.val.renewed.keyUsed + 1 }, m.property.next 1⟩
  hash_eq m blocks := by
    rw [Prod.mk.injEq, Subtype.mk.injEq]
    rw [m.property.hashInner]
    exact ⟨rfl, rfl⟩

/-- The calls of `hash` with eight keys, on two blocks for each. -/
def Mitccrh8.hash : TweakableHash { m : Mitccrh8 // m.SingleKey } where
  hash m blocks :=
    ((m.val.hashInner permute blocks 8 2 false).1,
      ⟨(m.val.hashInner permute blocks 8 2 false).2, by
        rw [m.property.hashInner]; exact m.property.next 8⟩)
  tweak m block := mitccrhApply permute (m.val.renewed.scheduledKeys.headD Block.zero) block false
  next m := ⟨{ m.val.renewed with keyUsed := m.val.renewed.keyUsed + 8 }, m.property.next 8⟩
  hash_eq m blocks := by
    rw [Prod.mk.injEq, Subtype.mk.injEq]
    rw [m.property.hashInner]
    exact ⟨rfl, rfl⟩

end Shachain2pc
