/-!
# Facts that one step of a loop establishes

A fact which one step of a loop establishes, and which no step breaks, holds after the loop.
-/

namespace FoldEstablish

variable {σ α : Type} {f : σ → α → σ} {Inv P : σ → Prop}

/-- An invariant of every step holds after the loop. -/
theorem foldl_invariant {l : List α} (hstep : ∀ s, ∀ a ∈ l, Inv s → Inv (f s a)) {s : σ}
    (hs : Inv s) :
    Inv (l.foldl f s) := by
  induction l generalizing s with
  | nil => exact hs
  | cons a rest ih =>
    refine ih (fun s b hb => hstep s b (List.mem_cons_of_mem _ hb)) ?_
    exact hstep s a List.mem_cons_self hs

/-- A fact which one step establishes and every step keeps. -/
theorem foldl_establish {l : List α} {a : α} (ha : a ∈ l)
    (hinv : ∀ s, ∀ b ∈ l, Inv s → Inv (f s b))
    (hkeep : ∀ s, ∀ b ∈ l, Inv s → P s → P (f s b))
    (hmake : ∀ s, Inv s → P (f s a)) {s : σ} (hs : Inv s) : P (l.foldl f s) := by
  induction l generalizing s with
  | nil => cases ha
  | cons b rest ih =>
    have hinv' := fun s c hc => hinv s c (List.mem_cons_of_mem b hc)
    have hkeep' := fun s c hc => hkeep s c (List.mem_cons_of_mem b hc)
    have hs' := hinv s b List.mem_cons_self hs
    rw [List.foldl_cons]
    by_cases hmem : a ∈ rest
    · exact ih hmem hinv' hkeep' hs'
    · have hself : a = b := (List.mem_cons.mp ha).resolve_right hmem
      have hboth : Inv (f s b) ∧ P (f s b) := ⟨hs', hself ▸ hmake s hs⟩
      exact (@foldl_invariant _ _ f (fun s => Inv s ∧ P s) rest
        (fun s c hc h => ⟨hinv' s c hc h.1, hkeep' s c hc h.1 h.2⟩) _ hboth).2

end FoldEstablish
