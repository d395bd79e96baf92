import Shachain2pc.Compat.BlockAlgebra
import Shachain2pc.Lib.Framing
import Shachain2pc.Lib.Rust
import Shachain2pc.Wire.Transcript

/-!
# The framing of a random oracle

A random oracle hashes a buffer of frames: its domain, its session, and what it absorbs. Each
frame starts with the code of its kind and the length of its data.
-/

namespace Shachain2pc

open Rust (Outcome Failure)

/-- `EmpRo`. -/
structure EmpRo where
  domain : List UInt8
  buf : List UInt8
  deriving DecidableEq, Repr

/-- The bytes of a frame. -/
def roFrame (typ : ℕ) (data : List UInt8) : List UInt8 :=
  leBytes 4 typ ++ leBytes 4 data.length ++ data

namespace EmpRo

variable {E : Type}

/-- `frame`; data of 2^32 bytes or more panics. -/
def frame (ro : EmpRo) (typ : ℕ) (data : List UInt8) : Outcome E EmpRo :=
  if data.length < 2 ^ 32 then .ok { ro with buf := ro.buf ++ roFrame typ data } else .error .panic

/-- `EmpRo::new`. -/
def new (domain : String) (sid : Block) : Outcome E EmpRo := do
  let ro : EmpRo := ⟨utf8Bytes domain, []⟩
  let ro ← ro.frame 1 (utf8Bytes domain)
  ro.frame 3 sid.toList

/-- `absorb_bytes`. -/
def absorbBytes (ro : EmpRo) (data : List UInt8) : Outcome E EmpRo := ro.frame 2 data

/-- `absorb_block`. -/
def absorbBlock (ro : EmpRo) (block : Block) : Outcome E EmpRo := ro.frame 3 block.toList

/-- `absorb_u64`. -/
def absorbU64 (ro : EmpRo) (value : UInt64) : Outcome E EmpRo := ro.frame 4 (leBytes 8 value.toNat)

/-- `absorb_point`. -/
def absorbPoint (ro : EmpRo) (point : List UInt8) : Outcome E EmpRo := ro.frame 5 point

/-- `squeeze_block`. -/
def squeezeBlock (sha256 : List UInt8 → Value32) (ro : EmpRo) : Block :=
  firstDigestBlock (sha256 ro.buf)

/-- A call which absorbs data. -/
inductive Absorb where
  | bytes (data : List UInt8)
  | block (value : Block)
  | u64 (value : UInt64)
  | point (encoding : List UInt8)
  deriving DecidableEq, Repr

/-- Perform a call. -/
def absorb (ro : EmpRo) : Absorb → Outcome E EmpRo
  | .bytes data => ro.absorbBytes data
  | .block value => ro.absorbBlock value
  | .u64 value => ro.absorbU64 value
  | .point encoding => ro.absorbPoint encoding

/-- Perform calls on a new oracle. -/
def absorbAll (domain : String) (sid : Block) (calls : List Absorb) : Outcome E EmpRo := do
  let ro ← new domain sid
  calls.foldlM absorb ro

/-- The code and the data of a call's frame. -/
def Absorb.frame : Absorb → ℕ × List UInt8
  | .bytes data => (2, data)
  | .block value => (3, value.toList)
  | .u64 value => (4, leBytes 8 value.toNat)
  | .point encoding => (5, encoding)

/-! ## Frames -/

/-- A frame whose code and length fit their fields. -/
def FrameFits (frame : ℕ × List UInt8) : Prop := frame.1 < 2 ^ 32 ∧ frame.2.length < 2 ^ 32

/-- Frames delimit themselves. -/
theorem roFrame_delimited : Framing.Delimited FrameFits fun frame => roFrame frame.1 frame.2 := by
  intro first second rest rest' hfirst hsecond h
  simp only [roFrame, List.append_assoc] at h
  obtain ⟨htyp, h⟩ := List.append_inj h (by rw [leBytes_length, leBytes_length])
  obtain ⟨hlen, h⟩ := List.append_inj h (by rw [leBytes_length, leBytes_length])
  have hlength := leBytes_inj hfirst.2 hsecond.2 hlen
  obtain ⟨hdata, hrest⟩ := List.append_inj h hlength
  exact ⟨Prod.ext (leBytes_inj hfirst.1 hsecond.1 htyp) hdata, hrest⟩

/-- A frame is not empty. -/
theorem roFrame_ne_nil (typ : ℕ) (data : List UInt8) : roFrame typ data ≠ [] := by
  intro h
  have hlength := congrArg List.length h
  simp [roFrame] at hlength

/-- The code and the data determine a call. -/
theorem Absorb.frame_inj {first second : Absorb} (h : first.frame = second.frame) :
    first = second := by
  have hcode := congrArg Prod.fst h
  have hdata := congrArg Prod.snd h
  cases first <;> cases second
  case bytes.bytes => exact congrArg Absorb.bytes hdata
  case block.block => exact congrArg Absorb.block (Vector.toList_inj.mp hdata)
  case u64.u64 first second =>
    have hvalue := @leBytes_inj 8 _ _ first.toNat_lt second.toNat_lt hdata
    exact congrArg Absorb.u64 (UInt64.toNat_inj.mp hvalue)
  case point.point => exact congrArg Absorb.point hdata
  all_goals cases hcode

/-- The code of a call fits its field. -/
theorem Absorb.code_lt (call : Absorb) : call.frame.1 < 2 ^ 32 := by
  cases call <;> simp [Absorb.frame]

/-! ## Buffers -/

/-- A frame is appended when it fits. -/
theorem frame_eq_ok {ro ro' : EmpRo} {typ : ℕ} {data : List UInt8}
    (h : (ro.frame typ data : Outcome E EmpRo) = .ok ro') :
    data.length < 2 ^ 32 ∧ ro'.buf = ro.buf ++ roFrame typ data := by
  unfold frame at h
  split at h
  · next hlt =>
    cases h
    exact ⟨hlt, rfl⟩
  · cases h

/-- A call appends its frame. -/
theorem absorb_eq_frame (ro : EmpRo) (call : Absorb) :
    (ro.absorb call : Outcome E EmpRo) = ro.frame call.frame.1 call.frame.2 := by
  cases call <;> rfl

/-- Calls append their frames. -/
theorem foldlM_absorb_eq_ok {ro ro' : EmpRo} {calls : List Absorb}
    (h : (calls.foldlM absorb ro : Outcome E EmpRo) = .ok ro') :
    (∀ call ∈ calls, FrameFits call.frame) ∧
      ro'.buf = ro.buf ++ (calls.map Absorb.frame).flatMap fun frame =>
        roFrame frame.1 frame.2 := by
  induction calls generalizing ro with
  | nil =>
    cases h
    simp
  | cons call rest ih =>
    rw [List.foldlM_cons] at h
    obtain ⟨mid, hcall, h⟩ := Rust.bind_eq_ok h
    rw [absorb_eq_frame] at hcall
    obtain ⟨hlength, hmid⟩ := frame_eq_ok hcall
    obtain ⟨hrest, hbuf⟩ := ih h
    refine ⟨List.forall_mem_cons.mpr ⟨⟨call.code_lt, hlength⟩, hrest⟩, ?_⟩
    rw [hbuf, hmid, List.map_cons, List.flatMap_cons, List.append_assoc]

/-- The buffer of a new oracle and its calls. -/
theorem absorbAll_eq_ok {domain : String} {sid : Block} {calls : List Absorb} {ro : EmpRo}
    (h : (absorbAll domain sid calls : Outcome E EmpRo) = .ok ro) :
    let frames := (1, utf8Bytes domain) :: (3, sid.toList) :: calls.map Absorb.frame
    (∀ frame ∈ frames, FrameFits frame) ∧
      ro.buf = frames.flatMap fun frame => roFrame frame.1 frame.2 := by
  obtain ⟨ro₂, hnew, hcalls⟩ := Rust.bind_eq_ok h
  obtain ⟨ro₁, hdomain, hsid⟩ := Rust.bind_eq_ok hnew
  obtain ⟨hdomainLength, hbuf₁⟩ := frame_eq_ok hdomain
  obtain ⟨hsidLength, hbuf₂⟩ := frame_eq_ok hsid
  obtain ⟨hfits, hbuf⟩ := foldlM_absorb_eq_ok hcalls
  constructor
  · rw [List.forall_mem_cons, List.forall_mem_cons]
    refine ⟨⟨by simp, hdomainLength⟩, ⟨by simp, hsidLength⟩, ?_⟩
    intro frame hframe
    obtain ⟨call, hcall, rfl⟩ := List.mem_map.mp hframe
    exact hfits call hcall
  · rw [hbuf, hbuf₂, hbuf₁, List.flatMap_cons, List.flatMap_cons]
    simp only [List.nil_append, List.append_assoc]

/-- The buffer determines the domain, the session and the calls. -/
theorem absorbAll_injective {domain domain' : String} {sid sid' : Block}
    {calls calls' : List Absorb} {ro ro' : EmpRo}
    (h : (absorbAll domain sid calls : Outcome E EmpRo) = .ok ro)
    (h' : (absorbAll domain' sid' calls' : Outcome E EmpRo) = .ok ro') (hbuf : ro.buf = ro'.buf) :
    domain = domain' ∧ sid = sid' ∧ calls = calls' := by
  obtain ⟨hfits, heq⟩ := absorbAll_eq_ok h
  obtain ⟨hfits', heq'⟩ := absorbAll_eq_ok h'
  have hframes := roFrame_delimited.flatMap_inj (fun _ _ => roFrame_ne_nil _ _) hfits hfits'
    (heq.symm.trans (hbuf.trans heq'))
  simp only [List.cons.injEq, Prod.mk.injEq, true_and] at hframes
  exact ⟨utf8Bytes_inj hframes.1, Vector.toList_inj.mp hframes.2.1,
    List.map_injective_iff.mpr (fun _ _ => Absorb.frame_inj) hframes.2.2⟩

/-- An oracle which absorbs data that looks like a frame. -/
theorem absorbAll_injective_pad :
    ∃ ro : EmpRo, (absorbAll "pad" Block.zero [.u64 7, .bytes [4, 0, 0, 0, 8, 0, 0, 0]] :
      Outcome Unit EmpRo) = .ok ro ∧ "pad" = "pad" ∧ Block.zero = Block.zero ∧
        [Absorb.u64 7, .bytes [4, 0, 0, 0, 8, 0, 0, 0]] =
        [.u64 7, .bytes [4, 0, 0, 0, 8, 0, 0, 0]] :=
  ⟨_, rfl, absorbAll_injective (E := Unit) rfl rfl rfl⟩

end EmpRo

end Shachain2pc
