import Shachain2pc.Compat.BaseOtRun
import Shachain2pc.Compat.CotJoint

/-!
# Base OTs at the ends of a stream

The parties of the base OTs do opposite things: what one sends the other receives next. At
the two ends of a stream they leave nothing on the way, and their transcripts mirrored. So
the base OTs deliver, and correlated OTs can be set up from them.
-/

namespace Shachain2pc

open JointRuns StreamEnd
open Rust (Failure Outcome)

variable {sha256 : List UInt8 → Value32}

namespace BaseOt

/-! ## Messages -/

section Messages

variable {blocks : List Block} {point : List UInt8}

/-- Blocks are sent. -/
theorem exchanges_sendBlock (blocks : List Block) :
    Exchanges (BaseOt.sendBlock blocks : BaseM (StreamEnd sha256) Unit)
      [.sent (macBytes blocks)] () :=
  exchanges_send _

/-- Blocks are received. -/
theorem exchanges_recvBlock {count : ℕ} (hcount : blocks.length = count) :
    Exchanges (BaseOt.recvBlock count : BaseM (StreamEnd sha256) (List Block))
      [.received (macBytes blocks)]
      blocks := by
  have hlen : (macBytes blocks).length = count * 16 := by
    rw [macBytes_length, hcount, Nat.mul_comm]
  have hread : blocksOfBytes ((macBytes blocks).length / 16) (macBytes blocks) = blocks := by
    rw [macBytes_length, Nat.mul_div_cancel_left _ (by decide), blocksOfBytes_macBytes]
  refine (exchanges_recv hlen).bindQuiet ?_
  rw [hread]
  exact .pure blocks

/-- A block is received. -/
theorem exchanges_recvOneBlock (block : Block) :
    Exchanges (BaseOt.recvOneBlock : BaseM (StreamEnd sha256) Block) [.received (macBytes [block])]
      block := by
  have hblocks : Exchanges (BaseOt.recvBlock 1 : BaseM (StreamEnd sha256) (List Block))
    [.received (macBytes [block])] [block] := exchanges_recvBlock rfl
  exact hblocks.bindQuiet (.result rfl)

/-- What happens when a point is sent: its length first. -/
def pointSent (point : List UInt8) : List (Event UInt8) :=
  [.sent (leBytes 4 point.length), .sent point]

/-- A point is sent. -/
theorem exchanges_sendPoint (h : point.length = pointBytes) :
    Exchanges (BaseOt.sendPoint point : BaseM (StreamEnd sha256) Unit) (pointSent point) () := by
  rw [BaseOt.sendPoint, if_neg (not_not.mpr h)]
  exact (exchanges_send _).bind (exchanges_send _)

/-- A point is received. -/
theorem exchanges_recvPoint (h : point.length = pointBytes) :
    Exchanges (BaseOt.recvPoint : BaseM (StreamEnd sha256) (List UInt8))
      ((pointSent point).map Event.opposite)
      point := by
  have hlen : leValue (leBytes 4 point.length) = pointBytes := by
    rw [h]
    rfl
  refine (exchanges_recv (leBytes_length ..)).bind ?_
  simp only [hlen, ne_eq, not_true_eq_false, if_false]
  exact exchanges_recv h

/-- Points are received. -/
theorem exchanges_recvPoints (points : List (List UInt8))
    (h : ∀ point ∈ points, point.length = pointBytes) :
    Exchanges
      (((List.range points.length).mapM fun _ => BaseOt.recvPoint) : BaseM (StreamEnd sha256) _)
      ((points.flatMap pointSent).map Event.opposite) points := by
  induction points with
  | nil => exact .pure []
  | cons point rest ih =>
    have hlater := ih fun later hlater => h later (List.mem_cons_of_mem _ hlater)
    rw [List.length_cons, List.range_succ_eq_map, List.mapM_cons, List.mapM_map, List.flatMap_cons,
      List.map_append]
    exact (exchanges_recvPoint (h point List.mem_cons_self)).bind (hlater.bindQuiet (.pure _))

/-- Points which can be computed are sent. -/
theorem exchanges_sendPoints {E : Type} (entries : List E) (f : E → Outcome OtError (List UInt8))
    (point : E → List UInt8)
    (h : ∀ entry ∈ entries, f entry = .ok (point entry) ∧ (point entry).length = pointBytes) :
    Exchanges (entries.forM fun entry => (do
      let bPoint ← ofExcept (f entry)
      BaseOt.sendPoint bPoint : BaseM (StreamEnd sha256) Unit))
        ((entries.map point).flatMap pointSent) () := by
  induction entries with
  | nil => exact .pure ()
  | cons entry rest ih =>
    obtain ⟨hpoint, hlength⟩ := h entry List.mem_cons_self
    have hlater := ih fun later hlater => h later (List.mem_cons_of_mem _ hlater)
    rw [List.map_cons, List.flatMap_cons]
    exact Exchanges.bind (.ofExcept hpoint (exchanges_sendPoint hlength)) hlater

end Messages

end BaseOt

/-! ## The parties -/

namespace CswRun

open BaseOt

variable {G : Type} [AddCommGroup G] {curve : P256 G} {R : CswRun G}

/-- What the receiver sends and receives. -/
def exchange (curve : P256 G) (sha256 : List UInt8 → Value32) (R : CswRun G) : List (Event UInt8) :=
  [.sent (macBytes [R.seed])] ++ ((R.points curve).flatMap pointSent ++
    ((pointSent (curve.toBytes (R.z curve))).map Event.opposite ++
      [.received (macBytes ((R.masked curve sha256).map (·.1))),
        .received (macBytes [shortValue sha256 Block.zero (R.otans curve sha256)]),
        .received (macBytes ((R.masked curve sha256).map (·.2.1))),
        .received (macBytes ((R.masked curve sha256).map (·.2.2))),
        .sent (macBytes [R.otans curve sha256])]))

/-- The receiver's part ends with the chosen messages. -/
theorem Valid.exchanges_recv (h : R.Valid curve) (hfits : R.choices.length < 2 ^ 28) :
    Exchanges
      (cswRecv curve sha256 R.seed R.alphas R.choices : BaseM (StreamEnd sha256) (List Block))
      (R.exchange curve sha256) R.selected := by
  have hentries :
      R.choices.zipIdx = (List.range R.choices.length).map fun i => (R.choice i, i) := by
    refine List.ext_getElem (by simp) fun i hi _ => ?_
    rw [List.length_zipIdx] at hi
    simp [choice, hi]
  have hpoints := @exchanges_sendPoints sha256 _ R.choices.zipIdx
    (fun entry => receiverPoint curve (curve.toBytes R.t) entry.1 (R.alphas entry.2))
    (fun entry => curve.toBytes (R.bPoint curve entry.2)) fun entry hentry => by
      rw [hentries] at hentry
      obtain ⟨i, hi, rfl⟩ := List.mem_map.mp hentry
      have hlt := List.mem_range.mp hi
      exact ⟨h.receiverPoint_eq hlt, h.encodes.length _ (h.noIdentity.bPoint i hlt)⟩
  rw [hentries, List.map_map] at hpoints
  have hcount : (R.responses curve sha256).length < 2 ^ 28 := by
    rwa [responses, List.length_map, List.length_range]
  have hblocks (f : Block × Block × Block → Block) :
      Exchanges (BaseOt.recvBlock R.choices.length : BaseM (StreamEnd sha256) (List Block))
        [.received (macBytes ((R.masked curve sha256).map f))] ((R.masked curve sha256).map f) :=
    exchanges_recvBlock (by rw [List.length_map, h.masked_length])
  rw [cswRecv, if_neg (not_lt.mpr h.least), hentries]
  refine .ofExcept (toCurve_eq _ h.hashed)
    ((exchanges_sendBlock _).bind (hpoints.bind (exchanges_flush.bind ?_)))
  refine (exchanges_recvPoint (h.encodes.length _ h.noIdentity.z)).bind
    (.ofExcept h.chosenPads_eq ?_)
  refine (hblocks _).bind ((exchanges_recvOneBlock _).bind ((hblocks _).bind ((hblocks _).bind ?_)))
  rw [h.responses_eq, h.output_eq]
  refine .ofExcept (aggregate_eq sha256 Block.zero hcount)
    (.ofExcept (cswShortBlock_eq sha256 Block.zero _) ?_)
  rw [otans]
  simp only [ne_eq, not_true_eq_false, if_false]
  exact (exchanges_sendBlock _).bindQuiet (exchanges_flush.bind (.pure _))

/-- The sender's part is the opposite. -/
theorem Valid.exchanges_send (h : R.Valid curve) (hfits : R.choices.length < 2 ^ 28) :
    Exchanges (cswSend curve sha256 R.r R.data0 R.data1 : BaseM (StreamEnd sha256) Unit)
      ((R.exchange curve sha256).map Event.opposite) () := by
  have hpoints : ∀ point ∈ R.points curve, point.length = pointBytes := by
    intro point hpoint
    obtain ⟨i, hi, rfl⟩ := List.mem_map.mp hpoint
    exact h.encodes.length _ (h.noIdentity.bPoint i (List.mem_range.mp hi))
  have hlength : (R.points curve).length = R.data0.length := by
    rw [points, List.length_map, List.length_range, h.choices]
  have hentries : (R.points curve).zipIdx =
      (List.range R.choices.length).map fun i => (curve.toBytes (R.bPoint curve i), i) := by
    apply List.ext_getElem <;> simp [points]
  have hpads : (R.points curve).zipIdx.mapM
      (senderPads curve sha256 Block.zero R.r (curve.toBytes (-(R.r • R.t)))) =
        .ok ((List.range R.choices.length).map (R.pads curve sha256)) := by
    rw [hentries, Rust.mapM_eq_map (g := fun entry => R.pads curve sha256 entry.2), List.map_map]
    · rfl
    · intro entry hentry
      obtain ⟨i, hi, rfl⟩ := List.mem_map.mp hentry
      exact h.senderPads_eq (List.mem_range.mp hi)
  have hleast : ¬R.data0.length < 80 := by
    rw [h.choices]
    exact not_lt.mpr h.least
  have hresponses : ((List.range R.choices.length).map (R.pads curve sha256)).map (·.h0) =
      R.responses curve sha256 := by
    rw [List.map_map]
    rfl
  have hcount : (R.responses curve sha256).length < 2 ^ 28 := by
    rwa [responses, List.length_map, List.length_range]
  have hmasked : (((List.range R.choices.length).map (R.pads curve sha256)).zip
      (R.data0.zip R.data1)).mapM (senderChallenge sha256 Block.zero) =
        .ok (R.masked curve sha256) :=
    Rust.mapM_eq_map fun entry _ => senderChallenge_eq Block.zero entry
  have hreceived := @exchanges_recvPoints sha256 (R.points curve) hpoints
  rw [hlength] at hreceived
  rw [exchange, List.map_append, List.map_append, List.map_append, cswSend,
    if_neg (not_not.mpr h.data), if_neg hleast]
  refine (exchanges_recvOneBlock _).bind (hreceived.bind (.ofExcept (toCurve_eq _ h.hashed) ?_))
  refine .ofExcept (h.encodes.pointMulBn_eq h.noIdentity.t R.r) ?_
  refine .ofExcept (h.encodes.pointInv_eq h.noIdentity.tR) (.ofExcept hpads ?_)
  rw [cswSendPads, hresponses]
  refine .ofExcept (aggregate_eq sha256 Block.zero hcount)
    (.ofExcept (cswShortBlock_eq sha256 Block.zero _) ?_)
  refine .ofExcept hmasked ((exchanges_sendPoint (h.encodes.length _ h.noIdentity.z)).bind ?_)
  refine (exchanges_sendBlock _).bind
    ((exchanges_sendBlock _).bind ((exchanges_sendBlock _).bind ?_))
  refine (exchanges_sendBlock _).bind
    (exchanges_flush.bind ((exchanges_recvOneBlock _).bindQuiet ?_))
  rw [otans]
  simp only [ne_eq, not_true_eq_false, if_false]
  exact .pure ()

end CswRun

/-! ## Delivery -/

section Delivery

variable {G : Type} [AddCommGroup G] (curve : P256 G) (permute : Block → Block → Block)

/-- The extension's base OTs, with what their parties draw. -/
def OtBase.csw (sha256 : List UInt8 → Value32) (r : ℕ) (seed : Block) (alphas : ℕ → ℕ) :
    OtBase (StreamEnd sha256) where
  permute := permute
  sha256 := sha256
  cswSend := BaseOt.cswSend curve sha256 r
  cswRecv := BaseOt.cswRecv curve sha256 seed alphas

/-- What the parties draw serves 128 choices: no point which arises is the identity. -/
structure CswServes (r : ℕ) (seed : Block) (alphas : ℕ → ℕ) (t : G) : Prop where
  encodes : curve.Encodes
  hashed : curve.hashFromBytes (BaseOt.curveOracle Block.zero seed).buf
    (BaseOt.curveOracle Block.zero seed).domain = some t
  noIdentity : ∀ choices : List Bool, choices.length = 128 →
    (⟨[], [], choices, seed, r, alphas, t⟩ : CswRun G).NoIdentity curve

variable {curve} {r : ℕ} {seed : Block} {alphas : ℕ → ℕ} {t : G}

/-- The base OTs deliver at the two ends of a stream. -/
theorem CswServes.delivers (h : CswServes curve r seed alphas t) :
    (OtBase.csw curve permute sha256 r seed alphas).Delivers := by
  intro choices data0 data1 hchoices hdata0 hdata1
  have hnone := h.noIdentity choices hchoices
  have hvalid : (⟨data0, data1, choices, seed, r, alphas, t⟩ : CswRun G).Valid curve := {
    encodes := h.encodes
    data := hdata0.trans hdata1.symm
    choices := hdata0.trans hchoices.symm
    least := hchoices.symm ▸ (by decide)
    hashed := h.hashed
    noIdentity := ⟨hnone.t, hnone.tR, hnone.z, hnone.alpha, hnone.bPoint, hnone.rho⟩ }
  have hfits : choices.length < 2 ^ 28 := hchoices.symm ▸ (by decide)
  exact (exchanges_joint (hvalid.exchanges_recv hfits) (hvalid.exchanges_send hfits)).mono
    (fun _ _ hst => hst)
    fun _ _ _ _ hpost => ⟨hpost.1, hpost.2.2⟩

end Delivery

/-- A group of five points. -/
def fiveCurve : P256 (ZMod 5) where
  generator := 1
  toBytes point := UInt8.ofNat point.val :: List.replicate 64 0
  fromBytes bytes := match bytes with
    | [] => .error "no point"
    | byte :: _ => .ok byte.toNat
  hashFromBytes _ _ := some 1

/-- Draws which serve, whatever the choices are. -/
theorem fiveCurve_serves : CswServes fiveCurve 1 Block.zero (fun _ => 2) 1 where
  encodes := ⟨by decide, fun _ _ => rfl⟩
  hashed := rfl
  noIdentity choices _ := by
    have hpoint :
        ∀ choice : Bool, (2 : ℕ) • (1 : ZMod 5) + (if choice then 1 else 0) ≠ 0 := by decide
    have hrho : ∀ other choice : Bool, (if other then (1 : ℕ) • ((2 : ℕ) • (1 : ZMod 5) +
        (if choice then 1 else 0)) + -((1 : ℕ) • 1) else (1 : ℕ) •
          ((2 : ℕ) • 1 + if choice then 1 else 0)) ≠ 0 := by
      decide
    have hone : (1 : ZMod 5) ≠ 0 := by decide
    have hscaled : (1 : ℕ) • (1 : ZMod 5) ≠ 0 := by decide
    have htwo : (2 : ℕ) • (1 : ZMod 5) ≠ 0 := by decide
    exact ⟨hone, hscaled, hscaled, fun _ _ => htwo, fun i _ => hpoint (choices.getD i false),
      fun other i _ => hrho other (choices.getD i false)⟩

end Shachain2pc
