import Mathlib.Logic.Function.Basic
import Mathlib.Data.List.Basic
import Mathlib.Data.List.Nodup
import Mathlib.Algebra.Order.Group.Int

/-!
# Reusing the slots of dead wires

Step `i` of a straight-line program writes the wire `inputs + i`. An allocator gives each
written wire a slot: a persistent wire a fresh one, any other wire the slot freed last. A
wire that is not persistent frees its slot at the step which uses it last.

No step then overwrites a wire that is still needed. A memory indexed by slots, written
once for each step, therefore holds the value of every needed wire.
-/

namespace SlotAllocation

open Function (update)

/-- Which wires each step reads, which wires keep their slot, and where a wire is used last. -/
structure Layout where
  inputs : ℕ
  reads : ℕ → List ℕ
  persist : ℕ → Bool
  lastUse : ℕ → ℤ

/-- The slots of the wires, the number of slots, and the stack of free slots. -/
structure Slots where
  slot : ℕ → ℕ
  count : ℕ
  free : List ℕ

/-- Give a written wire its slot. -/
def Slots.assign (s : Slots) (persist : Bool) (wire : ℕ) : Slots :=
  match persist, s.free with
  | false, slot :: rest => { s with slot := update s.slot wire slot, free := rest }
  | _, _ => { s with slot := update s.slot wire s.count, count := s.count + 1 }

/-- Free the slot of a wire at its last use. -/
def Layout.release (L : Layout) (i : ℕ) (s : Slots) (wire : ℕ) : Slots :=
  if !L.persist wire ∧ L.lastUse wire = i then { s with free := s.slot wire :: s.free } else s

/-- Allocate the wire written by a step, then free the wires it used last. -/
def Layout.step (L : Layout) (i : ℕ) (s : Slots) : Slots :=
  (L.reads i).foldl (L.release i) (s.assign (L.persist (L.inputs + i)) (L.inputs + i))

/-- The allocation of the first steps. -/
def Layout.run (L : Layout) (s : Slots) : ℕ → Slots
  | 0 => s
  | i + 1 => L.step i (L.run s i)

/-- Steps read distinct wires written before, no later than their last use. -/
structure Layout.WellFormed (L : Layout) (steps : ℕ) : Prop where
  nodup : ∀ i < steps, (L.reads i).Nodup
  lt : ∀ i < steps, ∀ w ∈ L.reads i, w < L.inputs + i
  le_lastUse : ∀ i < steps, ∀ w ∈ L.reads i, (i : ℤ) ≤ L.lastUse w

/-- Held wires below the bound own their slots. -/
structure Separated (bound : ℕ) (held : ℕ → Prop) (s : Slots) : Prop where
  slot_lt : ∀ w < bound, s.slot w < s.count
  free_lt : ∀ f ∈ s.free, f < s.count
  free_nodup : s.free.Nodup
  not_free : ∀ w < bound, held w → s.slot w ∉ s.free
  inj : ∀ w < bound, ∀ v < bound, held w → held v → s.slot w = s.slot v → w = v

/-- A wire is persistent or used at step `i` or later. -/
def Layout.Held (L : Layout) (i : ℕ) (w : ℕ) : Prop := L.persist w ∨ (i : ℤ) ≤ L.lastUse w

/-- The wire written by a step has a slot of its own among the wires needed at the step or later. -/
def Layout.Apart (L : Layout) (steps : ℕ) (slot : ℕ → ℕ) : Prop :=
  ∀ j < steps, ∀ w < L.inputs + steps, w ≠ L.inputs + j →
    (L.persist w ∨ (w < L.inputs + j ∧ (j : ℤ) ≤ L.lastUse w)) → slot w ≠ slot (L.inputs + j)

variable {L : Layout} {s : Slots} {bound steps i : ℕ} {held : ℕ → Prop}

/-- Fewer wires need to be held. -/
theorem Separated.mono {fewer : ℕ → Prop} (h : Separated bound held s)
    (hfewer : ∀ w < bound, fewer w → held w) : Separated bound fewer s where
  slot_lt := h.slot_lt
  free_lt := h.free_lt
  free_nodup := h.free_nodup
  not_free w hw hheld := h.not_free w hw (hfewer w hw hheld)
  inj w hw v hv hheld hheld' := h.inj w hw v hv (hfewer w hw hheld) (hfewer v hv hheld')

/-- An allocated wire is held, with a slot of its own. -/
theorem Separated.assign (h : Separated bound held s) (persist : Bool) :
    Separated (bound + 1) (fun w => held w ∨ w = bound) (s.assign persist bound) := by
  have hne {w : ℕ} (hw : w < bound + 1) (h' : w ≠ bound) : w < bound := by omega
  -- the slot given to the new wire is neither free any more nor the slot of a held wire
  have key (slot count : ℕ) (free : List ℕ) (hslot : slot < count) (hcount : s.count ≤ count)
      (hfree : free ⊆ s.free) (hnodup : free.Nodup) (hnew : slot ∉ free)
      (hown : ∀ w < bound, held w → s.slot w ≠ slot) :
      Separated (bound + 1) (fun w => held w ∨ w = bound)
        ⟨update s.slot bound slot, count, free⟩ := by
    constructor
    · intro w hw
      by_cases hb : w = bound
      · simpa [hb] using hslot
      · simpa [hb] using (h.slot_lt w (hne hw hb)).trans_le hcount
    · exact fun f hf => (h.free_lt f (hfree hf)).trans_le hcount
    · exact hnodup
    · intro w hw hheld
      by_cases hb : w = bound
      · simpa [hb] using hnew
      · have hold := h.not_free w (hne hw hb) (hheld.resolve_right hb)
        simpa [hb] using fun hf => hold (hfree hf)
    · intro w hw v hv hheld hheld' heq
      by_cases hb : w = bound <;> by_cases hb' : v = bound
      · rw [hb, hb']
      · simp only [hb, Function.update_self, Function.update_of_ne hb'] at heq
        exact absurd heq.symm (hown v (hne hv hb') (hheld'.resolve_right hb'))
      · simp only [hb', Function.update_self, Function.update_of_ne hb] at heq
        exact absurd heq (hown w (hne hw hb) (hheld.resolve_right hb))
      · simp only [Function.update_of_ne hb, Function.update_of_ne hb'] at heq
        exact h.inj w (hne hw hb) v (hne hv hb') (hheld.resolve_right hb)
          (hheld'.resolve_right hb') heq
  have hfresh : Separated (bound + 1) (fun w => held w ∨ w = bound)
      ⟨update s.slot bound s.count, s.count + 1, s.free⟩ :=
    key _ _ _ (Nat.lt_succ_self _) (Nat.le_succ _) (List.Subset.refl _) h.free_nodup
      (fun hf => (h.free_lt _ hf).false) fun w hw _ => (h.slot_lt w hw).ne
  unfold Slots.assign
  split
  · next slot rest hfree =>
    have hnodup := h.free_nodup
    rw [hfree, List.nodup_cons] at hnodup
    refine key slot s.count rest (h.free_lt slot ?_) le_rfl ?_ hnodup.2 hnodup.1
      fun w hw hheld heq => ?_
    · rw [hfree]
      exact List.mem_cons_self
    · rw [hfree]
      exact List.subset_cons_self slot rest
    · exact h.not_free w hw hheld (by rw [hfree, heq]; exact List.mem_cons_self)
  · exact hfresh

/-- Freeing the slot of a held wire keeps the slots of the other held wires. -/
theorem Separated.free (h : Separated bound held s) {w : ℕ} (hw : w < bound) (hheld : held w) :
    Separated bound (fun v => held v ∧ v ≠ w) { s with free := s.slot w :: s.free } where
  slot_lt := h.slot_lt
  free_lt f hf := by
    rcases List.mem_cons.mp hf with rfl | hf
    · exact h.slot_lt w hw
    · exact h.free_lt f hf
  free_nodup := List.nodup_cons.mpr ⟨h.not_free w hw hheld, h.free_nodup⟩
  not_free v hv hheld' hf := by
    rcases List.mem_cons.mp hf with heq | hf
    · exact hheld'.2 (h.inj v hv w hw hheld'.1 hheld heq)
    · exact h.not_free v hv hheld'.1 hf
  inj v hv v' hv' hheld hheld' := h.inj v hv v' hv' hheld.1 hheld'.1

/-- Freeing wires after their last use keeps the slots of the wires used later. -/
theorem Separated.release_foldl {reads : List ℕ} (h : Separated bound held s) (hnodup : reads.Nodup)
    (hreads : ∀ w ∈ reads, w < bound ∧ held w) :
    Separated bound (fun w => held w ∧ ¬(w ∈ reads ∧ L.persist w = false ∧ L.lastUse w = i))
      (reads.foldl (L.release i) s) := by
  induction reads generalizing s held with
  | nil => exact h.mono fun w _ hheld => hheld.1
  | cons w rest ih =>
    obtain ⟨hw, hheld⟩ := hreads w List.mem_cons_self
    rw [List.nodup_cons] at hnodup
    rw [List.foldl_cons, Layout.release]
    split
    · refine (ih (h.free hw hheld) hnodup.2 fun v hv => ?_).mono fun v _ hv => ?_
      · have hrest := hreads v (List.mem_cons_of_mem _ hv)
        exact ⟨hrest.1, hrest.2, fun heq => hnodup.1 (heq ▸ hv)⟩
      · refine ⟨⟨hv.1, ?_⟩, fun hmem => hv.2 ⟨List.mem_cons_of_mem _ hmem.1, hmem.2⟩⟩
        rintro rfl
        simp_all
    · refine (ih h hnodup.2 fun v hv => hreads v (List.mem_cons_of_mem _ hv)).mono fun v _ hv => ?_
      exact ⟨hv.1, fun hmem => hv.2 ⟨List.mem_cons_of_mem _ hmem.1, hmem.2⟩⟩

/-- Freeing wires changes neither the slots nor their number. -/
theorem release_foldl_slot (reads : List ℕ) (s : Slots) :
    (reads.foldl (L.release i) s).slot = s.slot ∧
    (reads.foldl (L.release i) s).count = s.count := by
  induction reads generalizing s with
  | nil => exact ⟨rfl, rfl⟩
  | cons w rest ih =>
    rw [List.foldl_cons, (ih _).1, (ih _).2, Layout.release]
    split <;> exact ⟨rfl, rfl⟩

/-- Allocating a wire keeps the slots of the other wires. -/
theorem assign_slot_of_ne {persist : Bool} {w wire : ℕ} (h : w ≠ wire) :
    (s.assign persist wire).slot w = s.slot w := by
  unfold Slots.assign
  split <;> exact Function.update_of_ne h _ _

/-- A persistent wire gets a fresh slot. -/
theorem assign_slot_persist (wire : ℕ) : (s.assign true wire).slot wire = s.count :=
  Function.update_self _ _ _

/-- A step keeps the slots of the other wires. -/
theorem Layout.step_slot_of_ne {w : ℕ} (h : w ≠ L.inputs + i) : (L.step i s).slot w = s.slot w := by
  rw [Layout.step, (release_foldl_slot _ _).1, assign_slot_of_ne h]

/-- The invariant of the allocator before step `i`. -/
structure Layout.Allocated (L : Layout) (i : ℕ) (s : Slots) : Prop where
  separated : Separated (L.inputs + i) (L.Held i) s
  apart : L.Apart i s.slot

/-- A step keeps the allocator's invariant. -/
theorem Layout.Allocated.step (h : L.Allocated i s) (hwf : L.WellFormed steps) (hi : i < steps) :
    L.Allocated (i + 1) (L.step i s) := by
  have hassigned := h.separated.assign (L.persist (L.inputs + i))
  constructor
  · have hreads : ∀ w ∈ L.reads i, w < L.inputs + i + 1 ∧ (L.Held i w ∨ w = L.inputs + i) :=
      fun w hw => ⟨(hwf.lt i hi w hw).trans (Nat.lt_succ_self _),
        .inl (.inr (hwf.le_lastUse i hi w hw))⟩
    refine (hassigned.release_foldl (hwf.nodup i hi) hreads).mono fun w _ hheld => ⟨?_, ?_⟩
    · exact .inl (hheld.imp_right fun hlast => (by omega))
    · rintro ⟨-, hpersist, hlast⟩
      rcases hheld with hheld | hheld
      · exact absurd hheld (by simp [hpersist])
      · omega
  · intro j hj w hw hne hneeded
    have hslot (v : ℕ) (hv : v ≠ L.inputs + i) : (L.step i s).slot v = s.slot v :=
      Layout.step_slot_of_ne hv
    rcases Nat.lt_succ_iff_lt_or_eq.mp hj with hj | rfl
    · rw [hslot (L.inputs + j) (by omega)]
      by_cases hb : w = L.inputs + i
      · -- a persistent wire written later has a fresh slot
        have hpersist : L.persist (L.inputs + i) = true := hb ▸ hneeded.resolve_right (by omega)
        have hlt := h.separated.slot_lt (L.inputs + j) (by omega)
        rw [hb, Layout.step, (release_foldl_slot _ _).1, hpersist, assign_slot_persist]
        exact hlt.ne'
      · rw [hslot w hb]
        exact h.apart j hj w (by omega) hne hneeded
    · rw [Layout.step, (release_foldl_slot _ _).1]
      intro heq
      refine hne (hassigned.inj w (by omega) _ (Nat.lt_succ_self _) (.inl ?_) (.inr rfl) heq)
      exact hneeded.imp_right fun hlast => hlast.2

/-- Every allocation keeps the allocator's invariant. -/
theorem Layout.Allocated.run (h : L.Allocated 0 s) (hwf : L.WellFormed steps) (hi : i ≤ steps) :
    L.Allocated i (L.run s i) := by
  induction i with
  | zero => exact h
  | succ i ih => exact (ih (by omega)).step hwf hi

/-- The inputs start in slots of their own. -/
theorem Layout.Allocated.init (L : Layout) {slot : ℕ → ℕ} (hslot : ∀ w < L.inputs, slot w = w) :
    L.Allocated 0 ⟨slot, L.inputs, []⟩ where
  separated :=
    { slot_lt := fun w hw => (hslot w hw).trans_lt hw
      free_lt := by simp
      free_nodup := List.nodup_nil
      not_free := by simp
      inj := fun w hw v hv _ _ heq => (hslot w hw).symm.trans (heq.trans (hslot v hv)) }
  apart := by
    intro j hj
    omega

/-- A wire keeps its slot once it is written. -/
theorem Layout.run_slot_of_lt {w k : ℕ} (hw : w < L.inputs + i) (hik : i ≤ k) :
    (L.run s k).slot w = (L.run s i).slot w := by
  induction k with
  | zero => rw [Nat.le_zero.mp hik]
  | succ k ih =>
    rcases Nat.le_succ_iff.mp hik with hik | rfl
    · rw [Layout.run, Layout.step_slot_of_ne (by omega), ih hik]
    · rfl

section memory

variable {A : Type*} {slot : ℕ → ℕ} {kept : ℕ → Prop} {mem value : ℕ → A}

/-- The memory holds the value of each kept wire, and of each wire written before step `i` which
is persistent, used at `i` or later, or written last. -/
def Layout.Holds (L : Layout) (steps : ℕ) (slot : ℕ → ℕ) (kept : ℕ → Prop) (i : ℕ)
    (mem value : ℕ → A) : Prop :=
  ∀ w < L.inputs + steps,
    (kept w ∨ (w < L.inputs + i ∧ (L.Held i w ∨ w + 1 = L.inputs + i))) → mem (slot w) = value w

/-- A step finds the values of the wires it reads. -/
theorem Layout.Holds.read (h : L.Holds steps slot kept i mem value) (hwf : L.WellFormed steps)
    (hi : i < steps) {w : ℕ} (hw : w ∈ L.reads i) : mem (slot w) = value w :=
  have hlt := hwf.lt i hi w hw
  h w (by omega) (.inr ⟨hlt, .inl (.inr (hwf.le_lastUse i hi w hw))⟩)

/-- A step does not write over the wires it reads. -/
theorem Layout.Apart.read_ne (h : L.Apart steps slot) (hwf : L.WellFormed steps) (hi : i < steps)
    {w : ℕ} (hw : w ∈ L.reads i) : slot w ≠ slot (L.inputs + i) :=
  have hlt := hwf.lt i hi w hw
  h i hi w (by omega) hlt.ne (.inr ⟨hlt, hwf.le_lastUse i hi w hw⟩)

/-- Writing the value of a step keeps the values needed later. -/
theorem Layout.Holds.write (h : L.Holds steps slot kept i mem value) (hapart : L.Apart steps slot)
    (hkept : ∀ w, kept w → L.persist w) (hi : i < steps) :
    L.Holds steps slot kept (i + 1) (update mem (slot (L.inputs + i)) (value (L.inputs + i)))
      value := by
  intro w hw hneeded
  by_cases hb : w = L.inputs + i
  · rw [hb, Function.update_self]
  · have hlater : L.persist w ∨ (w < L.inputs + i ∧ (i : ℤ) ≤ L.lastUse w) := by
      rcases hneeded with hk | ⟨hlt, (hp | hl) | hlast⟩
      · exact .inl (hkept w hk)
      · exact .inl hp
      · exact .inr ⟨by omega, by omega⟩
      · omega
    rw [Function.update_of_ne (hapart i hi w hw hb hlater)]
    refine h w hw ?_
    rcases hneeded with hk | ⟨hlt, (hp | hl) | hlast⟩
    · exact .inl hk
    · exact .inr ⟨by omega, .inl (.inl hp)⟩
    · exact .inr ⟨by omega, .inl (.inr (by omega))⟩
    · omega

/-- A step whose wire is kept need not write it. -/
theorem Layout.Holds.skip (h : L.Holds steps slot kept i mem value) (hkept : kept (L.inputs + i)) :
    L.Holds steps slot kept (i + 1) mem value := by
  intro w hw hneeded
  refine h w hw ?_
  rcases hneeded with hk | ⟨hlt, hlive⟩
  · exact .inl hk
  · by_cases hb : w = L.inputs + i
    · exact .inl (hb ▸ hkept)
    · rcases hlive with (hp | hl) | hlast
      · exact .inr ⟨by omega, .inl (.inl hp)⟩
      · exact .inr ⟨by omega, .inl (.inr (by omega))⟩
      · omega

/-- At the end the memory holds the values of the persistent wires. -/
theorem Layout.Holds.final (h : L.Holds steps slot kept steps mem value) {w : ℕ}
    (hw : w < L.inputs + steps) (hpersist : L.persist w) : mem (slot w) = value w :=
  h w hw (.inr ⟨hw, .inl (.inl hpersist)⟩)

end memory

end SlotAllocation
