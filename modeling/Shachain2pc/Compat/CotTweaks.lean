import Shachain2pc.Compat.CotBook

/-!
# The tweaks of a correlated OT endpoint

The endpoint's sessions are numbered in the order in which they begin, and the blocks of each
session in the order in which they are evaluated. So no tweak is used twice while the numbers
do not wrap around.
-/

namespace Shachain2pc

namespace CotBook

/-- What an endpoint does, and the COTs which it generates. -/
inductive Step : CotBook → List Block → CotBook → Prop
  | begin (b : CotBook) (ready : Bool) : Step b [] (CotBook.begin { b with ready := ready })
  | chunk {b : CotBook} (bs : ℕ) (out : List Block) (hready : b.ready = true) :
      Step b out (b.chunk bs out)

/-- Steps one after the other. -/
inductive Run : CotBook → List Block → CotBook → Prop
  | refl (b : CotBook) : Run b [] b
  | snoc {b c d : CotBook} {out new : List Block} (hrun : Run b out c) (hstep : Step c new d) :
    Run b (out ++ new) d

/-- What a run leaves when it fails. -/
def FailsFrom (b : CotBook) (history : CotHistory) : Prop := ∃ out c, Run b out c ∧ c.Failed history

/-- The sessions' tweaks, latest session first, in their order. -/
def Ordered : List (List SfvoleTweak) → Prop
  | [] => True
  | latest :: earlier =>
    latest =
      (List.range latest.length).map (fun i => (UInt64.ofNat earlier.length, UInt64.ofNat i)) ∧
      Ordered earlier

/-- The counters are those of the next session and the next block. -/
structure Numbered (b : CotBook) : Prop where
  ordered : Ordered b.history.sessions
  session : b.session = UInt64.ofNat b.history.sessions.length
  unready : b.history.sessions = [] → b.ready = false
  latest : ∀ latest earlier, b.history.sessions = latest :: earlier →
    b.curSession = UInt64.ofNat earlier.length ∧ b.blockCounter = UInt64.ofNat latest.length

variable {b c d : CotBook} {out new : List Block}

/-- Runs compose. -/
theorem Run.trans (h : Run b out c) (hlater : Run c new d) : Run b (out ++ new) d := by
  induction hlater with
  | refl =>
    rw [List.append_nil]
    exact h
  | snoc _ hstep ih =>
    rw [← List.append_assoc]
    exact ih.snoc hstep

/-- A step is a run. -/
theorem Step.run (h : Step b out c) : Run b out c := (Run.refl b).snoc h

/-- The history has the generated COTs at its end. -/
theorem Run.generated (h : Run b out c) : c.history.generated = b.history.generated ++ out := by
  induction h with
  | refl => exact (List.append_nil _).symm
  | snoc _ hstep ih =>
    rw [← List.append_assoc, ← ih]
    cases hstep with
    | begin => exact (List.append_nil _).symm
    | chunk => rfl

/-- The tweaks of the next blocks keep the order. -/
theorem Numbered.evaluate (h : b.Numbered) (hready : b.ready = true) (bs : ℕ) :
    ∃ latest earlier, b.history.sessions = latest :: earlier ∧
      (b.evaluate bs).history.sessions =
        (latest ++ sfvoleTweaks b.curSession b.blockCounter bs) :: earlier ∧
      Ordered (b.evaluate bs).history.sessions := by
  cases hsessions : b.history.sessions with
  | nil => simp [h.unready hsessions] at hready
  | cons latest earlier =>
    obtain ⟨hsession, hcounter⟩ := h.latest latest earlier hsessions
    have hevaluate : (b.evaluate bs).history.sessions =
        (latest ++ sfvoleTweaks b.curSession b.blockCounter bs) :: earlier := by
      simp only [CotBook.evaluate, CotHistory.evaluate, hsessions]
    refine ⟨latest, earlier, rfl, hevaluate, ?_⟩
    have hordered := h.ordered
    rw [hsessions] at hordered
    rw [hevaluate]
    refine ⟨?_, hordered.2⟩
    rw [List.length_append, List.range_add, List.map_append, ← hordered.1, List.map_map,
      hsession, hcounter]
    simp only [sfvoleTweaks, List.length_map, List.length_range, Function.comp_def,
      UInt64.ofNat_add]

/-- A step keeps the numbering. -/
theorem Numbered.step (h : b.Numbered) (hstep : Step b out c) : c.Numbered := by
  cases hstep with
  | begin ready =>
    constructor
    · exact ⟨rfl, h.ordered⟩
    · change b.session + 1 = UInt64.ofNat (b.history.sessions.length + 1)
      rw [h.session, UInt64.ofNat_add]
      rfl
    · exact fun hnil => absurd hnil (List.cons_ne_nil _ _)
    · intro latest earlier hsessions
      cases hsessions
      exact ⟨h.session, rfl⟩
  | chunk bs _ hready =>
    obtain ⟨latest, earlier, hsessions, hevaluate, hordered⟩ := h.evaluate hready bs
    obtain ⟨hsession, hcounter⟩ := h.latest latest earlier hsessions
    constructor
    · exact hordered
    · change b.session = UInt64.ofNat (b.evaluate bs).history.sessions.length
      rw [hevaluate, h.session, hsessions, List.length_cons, List.length_cons]
    · intro hnil
      exact absurd (hevaluate.symm.trans hnil) (List.cons_ne_nil _ _)
    · intro latest' earlier' hsessions'
      obtain ⟨rfl, rfl⟩ := List.cons.inj (hevaluate.symm.trans hsessions')
      refine ⟨hsession, ?_⟩
      change b.blockCounter + UInt64.ofNat bs = _
      rw [List.length_append, sfvoleTweaks, List.length_map, List.length_range,
        UInt64.ofNat_add, hcounter]

/-- A run keeps the numbering. -/
theorem Numbered.run (h : b.Numbered) (hrun : Run b out c) : c.Numbered := by
  induction hrun with
  | refl => exact h
  | snoc _ hstep ih => exact ih.step hstep

/-- Where a run fails, the tweaks are in order. -/
theorem Numbered.failsFrom (h : b.Numbered) {history : CotHistory} (hfails : b.FailsFrom history) :
    Ordered history.sessions := by
  obtain ⟨out, c, hrun, hfailed⟩ := hfails
  have hnumbered := h.run hrun
  rcases hfailed with hsame | ⟨bs, hready, hevaluate⟩
  · rw [hsame]
    exact hnumbered.ordered
  · obtain ⟨-, -, -, -, hordered⟩ := hnumbered.evaluate hready bs
    rw [hevaluate]
    exact hordered

/-- Tweaks in order have sessions below their number. -/
theorem Ordered.session_of_mem {sessions : List (List SfvoleTweak)} (h : Ordered sessions)
    {tweak : SfvoleTweak} (hmem : tweak ∈ sessions.flatten) :
    ∃ k < sessions.length, tweak.1 = UInt64.ofNat k := by
  induction sessions with
  | nil => cases hmem
  | cons latest earlier ih =>
    rw [List.flatten_cons, List.mem_append] at hmem
    rcases hmem with hlatest | hearlier
    · rw [h.1] at hlatest
      obtain ⟨i, -, rfl⟩ := List.mem_map.mp hlatest
      exact ⟨earlier.length, Nat.lt_succ_self _, rfl⟩
    · obtain ⟨k, hk, hsession⟩ := ih h.2 hearlier
      exact ⟨k, hk.trans (Nat.lt_succ_self _), hsession⟩

/-- Numbers below 2^64 are distinct. -/
theorem ofNat_inj {i j : ℕ} (hi : i < 2 ^ 64) (hj : j < 2 ^ 64)
    (h : UInt64.ofNat i = UInt64.ofNat j) :
    i = j := by
  rw [← UInt64.toNat_ofNat_of_lt' hi, ← UInt64.toNat_ofNat_of_lt' hj, h]

/-- Tweaks in order are distinct while the numbers do not wrap around. -/
theorem Ordered.nodup {sessions : List (List SfvoleTweak)} (h : Ordered sessions)
    (hsessions : sessions.length < 2 ^ 64)
    (hblocks : ∀ session ∈ sessions, session.length < 2 ^ 64) :
    sessions.flatten.Nodup := by
  induction sessions with
  | nil => exact List.nodup_nil
  | cons latest earlier ih =>
    have hearlier : earlier.length < 2 ^ 64 := (Nat.lt_succ_self _).trans hsessions
    have hlatest := hblocks latest List.mem_cons_self
    rw [List.flatten_cons, List.nodup_append]
    refine ⟨?_, ih h.2 hearlier fun session hmem =>
      hblocks session (List.mem_cons_of_mem _ hmem), ?_⟩
    · rw [h.1]
      apply List.nodup_range.map_on
      intro i hi j hj hij
      exact ofNat_inj ((List.mem_range.mp hi).trans hlatest) ((List.mem_range.mp hj).trans hlatest)
        (congrArg Prod.snd hij)
    · rintro tweak hmem _ hmem' rfl
      rw [h.1] at hmem
      obtain ⟨i, -, rfl⟩ := List.mem_map.mp hmem
      obtain ⟨k, hk, hsession⟩ := h.2.session_of_mem hmem'
      exact absurd (ofNat_inj hearlier (hk.trans hearlier) hsession) hk.ne'

end CotBook

end Shachain2pc
