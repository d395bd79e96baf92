import Shachain2pc.Daemon.Channels
import Shachain2pc.Daemon.Sessions
import Shachain2pc.Lib.Rust
import Mathlib.Data.Nat.Log

/-!
# The security parameter of a channel

A channel's statistical security is raised by the number of binary digits of its cap, so that
what one check gives away, summed over the units which the cap allows, stays below the
target. The sum is a `u32`, and nothing bounds the target which a caller asks for.
-/

namespace Shachain2pc

open Rust (Outcome Failure)

/-- The zero bits above the highest set one of the lowest `n`. -/
def leadingZerosBelow : ℕ → ℕ → ℕ
  | 0, _ => 0
  | n + 1, value => if value.testBit n then 0 else leadingZerosBelow n value + 1

/-- `u64::leading_zeros`. -/
def leadingZeros (value : ℕ) : ℕ := leadingZerosBelow 64 value

/-- A `u32` addition, in a build with or without overflow checks. -/
def addU32 {E : Type} (overflowChecks : Bool) (x y : ℕ) : Outcome E ℕ :=
  if overflowChecks ∧ 2 ^ 32 ≤ x + y then .error .panic else .ok ((x + y) % 2 ^ 32)

/-- `ssp_effective`, in a build with or without overflow checks. -/
def sspEffectiveIn {E : Type} (overflowChecks : Bool) (sspTarget cap : ℕ) : Outcome E ℕ :=
  addU32 overflowChecks sspTarget (if cap ≤ 1 then 0 else 64 - leadingZeros (cap - 1))

/-- Leading zeros count down to the first power of two above a value. -/
theorem sub_leadingZerosBelow_le {n value k : ℕ} (hvalue : value < 2 ^ n) :
    n - leadingZerosBelow n value ≤ k ↔ value < 2 ^ k := by
  induction n with
  | zero =>
    have hpos : 0 < 2 ^ k := Nat.two_pow_pos k
    rw [pow_zero] at hvalue
    omega
  | succ n ih =>
    rw [leadingZerosBelow]
    split
    · next hbit =>
      have hge : 2 ^ n ≤ value := Nat.ge_two_pow_of_testBit hbit
      rw [Nat.sub_zero]
      constructor
      · intro hle
        exact hvalue.trans_le (Nat.pow_le_pow_right (by decide) hle)
      · intro hlt
        exact (Nat.pow_lt_pow_iff_right (by decide)).mp (hge.trans_lt hlt)
    · next hbit =>
      have hlt : value < 2 ^ n := by
        by_contra hge
        refine hbit ?_
        rw [Nat.testBit_eq_decide_div_mod_eq, Nat.div_eq_of_lt_le (k := 1) (by omega) (by omega)]
        rfl
      rw [Nat.add_sub_add_right]
      exact ih hlt

/-- The digits of a cap are the logarithm of it, rounded up. -/
theorem capLog_eq_clog {cap : ℕ} (hcap : cap < 2 ^ 64) :
    (if cap ≤ 1 then 0 else 64 - leadingZeros (cap - 1)) = Nat.clog 2 (max cap 1) := by
  split
  · next hle =>
    rw [max_eq_right hle, Nat.clog_one_right]
  · next hlt =>
    rw [max_eq_left (by omega)]
    apply eq_of_forall_ge_iff
    intro k
    rw [leadingZeros, sub_leadingZerosBelow_le (by omega), Nat.clog_le_iff_le_pow (by decide)]
    omega

/-- The number of binary digits. -/
theorem bitLength_eq {value : ℕ} (hvalue : value < 2 ^ 64) :
    bitLength value = 64 - leadingZeros value := by
  apply eq_of_forall_ge_iff
  intro k
  rw [leadingZeros, sub_leadingZerosBelow_le hvalue, bitLength]
  by_cases h : value = 0
  · rw [if_pos h, h]
    exact iff_of_true (Nat.zero_le k) (Nat.two_pow_pos k)
  · rw [if_neg h, Nat.add_one_le_iff, Nat.log2_lt h]

/-- Without overflow checks the sum wraps. -/
theorem sspEffectiveIn_false {E : Type} {sspTarget cap : ℕ} (hcap : cap < 2 ^ 64) :
    (sspEffectiveIn false sspTarget cap : Outcome E ℕ) = .ok (sspEffective sspTarget cap) := by
  have hlog : (if cap ≤ 1 then 0 else 64 - leadingZeros (cap - 1)) =
      if cap ≤ 1 then 0 else bitLength (cap - 1) := by
    split
    · rfl
    · rw [bitLength_eq (by omega)]
  rw [sspEffectiveIn, hlog, addU32, if_neg (by simp)]
  rfl

/-- An enabled channel with the given security parameters. -/
def Inner.HasSecurity (inner : Inner) (channelIndex sspTarget cap : ℕ) : Prop :=
  ∃ channel, inner.db.channels[channelIndex]? = some channel ∧ channel.enabled = true ∧
    channel.sspTarget = sspTarget ∧ channel.deltaLifetimeCheckedUnitsCap = cap

/-- What the security parameter of a channel should be: the target raised by the logarithm of the
cap, in every build, and the value which an initiator announces is the one a receiver computes. -/
structure SspSized (sspTarget cap : ℕ) : Prop where
  exact : ∀ overflowChecks, (sspEffectiveIn overflowChecks sspTarget cap : Outcome Empty ℕ) =
    .ok (sspTarget + Nat.clog 2 (max cap 1))
  covers : ∀ overflowChecks ssp,
    (sspEffectiveIn overflowChecks sspTarget cap : Outcome Empty ℕ) = .ok ssp →
    cap ≤ 2 ^ (ssp - sspTarget)
  announced : ∀ overflowChecks sha256 initiator receiver channelIndex peer next descriptor,
    initiator.HasSecurity channelIndex sspTarget cap →
    precomputeSessionDescriptor sha256 initiator channelIndex peer = .ok (next, descriptor) →
    (sspEffectiveIn overflowChecks sspTarget cap : Outcome Empty ℕ) = .ok descriptor.ssp ∧
      (receiver.HasSecurity channelIndex sspTarget cap →
        beginIncomingPrecomputeSession sha256 receiver descriptor = .ok ())

/-- A channel is enabled with every target and every cap which is asked for. -/
theorem enableChannel_hasSecurity (inner : Inner) (req : EnableChannelRequest)
    (hssp : req.sspTarget ≠ 0) (hcap : req.deltaLifetimeCheckedUnitsCap ≠ 0) :
    (enableChannel inner req).1.HasSecurity req.channelIndex req.sspTarget
      req.deltaLifetimeCheckedUnitsCap := by
  exact ⟨_, Std.ExtTreeMap.getElem?_insert_self, rfl, if_pos hssp, if_pos hcap⟩

/-- The sum is exact when it fits. -/
theorem sspEffectiveIn_eq {E : Type} {sspTarget cap : ℕ} (hcap : cap < 2 ^ 64)
    (hfit : sspTarget + Nat.clog 2 (max cap 1) < 2 ^ 32) (overflowChecks : Bool) :
    (sspEffectiveIn overflowChecks sspTarget cap : Outcome E ℕ) =
      .ok (sspTarget + Nat.clog 2 (max cap 1)) := by
  rw [sspEffectiveIn, capLog_eq_clog hcap, addU32, if_neg (by omega), Nat.mod_eq_of_lt hfit]

/-- What an initiator announces. -/
theorem precomputeSessionDescriptor_eq_ok {sha256 : List UInt8 → Value32} {inner next : Inner}
    {channelIndex sspTarget cap : ℕ} {peer : PeerFrontierConfig} {descriptor : GrpcJobDescriptor}
    (hinner : inner.HasSecurity channelIndex sspTarget cap)
    (h : precomputeSessionDescriptor sha256 inner channelIndex peer = .ok (next, descriptor)) :
    descriptor.channelIndex = channelIndex ∧ descriptor.targetIndex = 0 ∧
      descriptor.ssp = sspEffective sspTarget cap ∧ descriptor.sspTarget = sspTarget ∧
      descriptor.deltaLifetimeCheckedUnitsCap = cap ∧ descriptor.digest =
        jobDigest sha256 channelIndex "precompute-session" 0 0 (sspEffective sspTarget cap) := by
  obtain ⟨channel, hchannel, henabled, rfl, rfl⟩ := hinner
  rw [precomputeSessionDescriptor, hchannel] at h
  dsimp only at h
  rw [if_neg (not_not.mpr henabled)] at h
  split at h
  · cases h
  · cases h
    exact ⟨rfl, rfl, rfl, rfl, rfl, rfl⟩

/-- What a receiver with the same parameters accepts. -/
theorem beginIncomingPrecomputeSession_eq {sha256 : List UInt8 → Value32} {inner : Inner}
    {descriptor : GrpcJobDescriptor} {sspTarget cap : ℕ}
    (hinner : inner.HasSecurity descriptor.channelIndex sspTarget cap)
    (htarget : descriptor.targetIndex = 0) (hssp : descriptor.ssp = sspEffective sspTarget cap)
    (hsspTarget : descriptor.sspTarget = sspTarget)
    (hcap : descriptor.deltaLifetimeCheckedUnitsCap = cap)
    (hdigest : descriptor.digest =
      jobDigest sha256 descriptor.channelIndex "precompute-session" 0 0 descriptor.ssp) :
    beginIncomingPrecomputeSession sha256 inner descriptor = .ok () := by
  obtain ⟨channel, hchannel, henabled, rfl, rfl⟩ := hinner
  rw [beginIncomingPrecomputeSession, hchannel]
  dsimp only
  rw [if_neg (not_not.mpr henabled), if_neg (by simp [hsspTarget, hcap]), if_neg (not_not.mpr hssp),
    if_neg (not_not.mpr hdigest), if_neg (not_not.mpr htarget)]

/-- The security parameter is what it should be exactly when the raised target fits. -/
theorem sspEffective_sized_iff {sspTarget cap : ℕ} (hcap : cap < 2 ^ 64) :
    SspSized sspTarget cap ↔ sspTarget + Nat.clog 2 (max cap 1) < 2 ^ 32 := by
  constructor
  · intro h
    have hexact := h.exact true
    by_contra hover
    rw [sspEffectiveIn, capLog_eq_clog hcap, addU32, if_pos ⟨rfl, by omega⟩] at hexact
    cases hexact
  · intro hfit
    have hexact (overflowChecks : Bool) :
        (sspEffectiveIn overflowChecks sspTarget cap : Outcome Empty ℕ) =
          .ok (sspTarget + Nat.clog 2 (max cap 1)) := sspEffectiveIn_eq hcap hfit overflowChecks
    refine ⟨hexact, ?_, ?_⟩
    · intro overflowChecks ssp hssp
      obtain rfl := Except.ok.inj ((hexact overflowChecks).symm.trans hssp)
      rw [Nat.add_sub_cancel_left]
      exact (le_max_left cap 1).trans (Nat.le_pow_clog (by decide) _)
    · intro overflowChecks sha256 initiator receiver channelIndex peer next descriptor hinitiator h
      obtain ⟨rfl, htarget, hssp, hsspTarget, hdcap, hdigest⟩ :=
        precomputeSessionDescriptor_eq_ok hinitiator h
      constructor
      · rw [hexact, hssp, ← hexact false]
        exact sspEffectiveIn_false hcap
      · intro hreceiver
        exact beginIncomingPrecomputeSession_eq hreceiver htarget hssp hsspTarget hdcap
          (hssp ▸ hdigest)

/-- The default parameters. -/
theorem sspEffective_sized_default : SspSized defaultSspTarget defaultDeltaCap :=
  (sspEffective_sized_iff (by decide)).mpr (by
    rw [defaultSspTarget, defaultDeltaCap, max_eq_left (by decide), Nat.clog_pow 2 32 (by decide)]
    decide)

/-- A channel is enabled with the largest target and a cap of two. Its parameter overflows: a build
with overflow checks panics, and one without gives zero. -/
theorem enableChannel_overflow :
    (∀ inner, (enableChannel inner ⟨7, 0, 2 ^ 32 - 1, 2⟩).1.HasSecurity 7 (2 ^ 32 - 1) 2) ∧
      (sspEffectiveIn true (2 ^ 32 - 1) 2 : Outcome Empty ℕ) = .error .panic ∧
      (sspEffectiveIn false (2 ^ 32 - 1) 2 : Outcome Empty ℕ) = .ok 0 ∧
      ¬SspSized (2 ^ 32 - 1) 2 := by
  have hpanic : (sspEffectiveIn true (2 ^ 32 - 1) 2 : Outcome Empty ℕ) = .error .panic := rfl
  refine ⟨fun inner => enableChannel_hasSecurity inner _ (by decide) (by decide), hpanic, rfl, ?_⟩
  intro h
  have hexact := hpanic.symm.trans (h.exact true)
  cases hexact

end Shachain2pc
