import Mathlib.Data.List.Basic

/-!
# Runs of a labelled step function

A system is a partial step function on states; a label says which step is taken and with
which inputs. A property that every step preserves, possibly only where a condition on
the state and the label holds, is preserved by every run whose steps all meet the
condition.
-/

namespace Runs

variable {S L : Type*}

/-- Take a list of steps, failing when one of them is not enabled. -/
def run (step : S → L → Option S) : S → List L → Option S
  | s, [] => some s
  | s, label :: rest => (step s label).bind fun t => run step t rest

/-- Every step of the run meets the condition in the state it is taken from. -/
def Along (step : S → L → Option S) (cond : S → L → Prop) : S → List L → Prop
  | _, [] => True
  | s, label :: rest => cond s label ∧ ∀ t, step s label = some t → Along step cond t rest

variable {step : S → L → Option S} {cond : S → L → Prop}

/-- A decidable condition is decided along a run. -/
instance Along.decidable [∀ s label, Decidable (cond s label)] :
    ∀ s labels, Decidable (Along step cond s labels)
  | _, [] => isTrue trivial
  | s, label :: rest =>
    have := fun t => Along.decidable t rest
    inferInstanceAs (Decidable (cond s label ∧ ∀ t ∈ step s label, Along step cond t rest))

/-- A first step followed by a run is a run. -/
theorem run_cons {s t : S} {label : L} {rest : List L} :
    run step s (label :: rest) = some t ↔ ∃ mid, step s label = some mid ∧
    run step mid rest = some t :=
  Option.bind_eq_some_iff

/-- Runs compose. -/
theorem run_append {s t : S} {first second : List L} :
    run step s (first ++ second) = some t ↔
      ∃ mid, run step s first = some mid ∧ run step mid second = some t := by
  induction first generalizing s with
  | nil => simp [run]
  | cons label rest ih =>
    rw [List.cons_append, run_cons]
    constructor
    · rintro ⟨next, hnext, hrun⟩
      obtain ⟨mid, hmid, hrun⟩ := ih.mp hrun
      exact ⟨mid, run_cons.mpr ⟨next, hnext, hmid⟩, hrun⟩
    · rintro ⟨mid, hmid, hrun⟩
      obtain ⟨next, hnext, hmid⟩ := run_cons.mp hmid
      exact ⟨next, hnext, ih.mpr ⟨mid, hmid, hrun⟩⟩

/-- A run is along a condition exactly when its two parts are. -/
theorem along_append_iff {s t : S} {first second : List L} (hrun : run step s first = some t) :
    Along step cond s (first ++ second) ↔ Along step cond s first ∧ Along step cond t second := by
  induction first generalizing s with
  | nil =>
    cases hrun
    exact (and_iff_right trivial).symm
  | cons label rest ih =>
    obtain ⟨mid, hmid, hrest⟩ := run_cons.mp hrun
    have hnext {p : S → Prop} : (∀ t, step s label = some t → p t) ↔ p mid :=
      ⟨fun h => h mid hmid, fun h t ht => Option.some.inj (hmid.symm.trans ht) ▸ h⟩
    rw [List.cons_append, Along, Along, hnext, hnext, ih hrest, and_assoc]

/-- What every conditional step preserves, every run along the condition preserves. -/
theorem invariant {Inv : S → Prop}
    (hstep : ∀ s label t, Inv s → cond s label → step s label = some t → Inv t) {s t : S}
    {labels : List L} (hs : Inv s) (hrun : run step s labels = some t)
    (halong : Along step cond s labels) : Inv t := by
  induction labels generalizing s with
  | nil => exact Option.some.inj hrun ▸ hs
  | cons label rest ih =>
    obtain ⟨mid, hmid, hrest⟩ := run_cons.mp hrun
    exact ih (hstep s label mid hs halong.1 hmid) hrest (halong.2 mid hmid)

/-- What every step preserves, every run preserves. -/
theorem invariant_of_step {Inv : S → Prop}
    (hstep : ∀ s label t, Inv s → step s label = some t → Inv t) {s t : S} {labels : List L}
    (hs : Inv s) (hrun : run step s labels = some t) : Inv t := by
  induction labels generalizing s with
  | nil => exact Option.some.inj hrun ▸ hs
  | cons label rest ih =>
    obtain ⟨mid, hmid, hrest⟩ := run_cons.mp hrun
    exact ih (hstep s label mid hs hmid) hrest

/-- A run along a condition stays along every weaker one. -/
theorem Along.mono {weaker : S → L → Prop} (h : ∀ s label, cond s label → weaker s label) {s : S}
    {labels : List L} (halong : Along step cond s labels) : Along step weaker s labels := by
  induction labels generalizing s with
  | nil => trivial
  | cons label rest ih => exact ⟨h s label halong.1, fun t ht => ih (halong.2 t ht)⟩

/-- A run along two conditions is along both. -/
theorem Along.and {other : S → L → Prop} {s : S} {labels : List L} (h : Along step cond s labels)
    (hother : Along step other s labels) :
    Along step (fun s label => cond s label ∧ other s label) s labels := by
  induction labels generalizing s with
  | nil => trivial
  | cons label rest ih => exact ⟨⟨h.1, hother.1⟩, fun t ht => ih (h.2 t ht) (hother.2 t ht)⟩

/-- A condition on the labels alone holds along a run when it holds of each label. -/
theorem Along.of_mem {cond : L → Prop} {labels : List L} (h : ∀ label ∈ labels, cond label)
    (s : S) :
    Along step (fun _ label => cond label) s labels := by
  induction labels generalizing s with
  | nil => trivial
  | cons label rest ih =>
    exact ⟨h label List.mem_cons_self,
      fun t _ => ih (fun l hl => h l (List.mem_cons_of_mem _ hl)) t⟩

/-- A guarded step is taken when its guard holds. -/
theorem guard_eq_some {p : Prop} [Decidable p] {s t : S} :
    (if p then some s else none) = some t ↔ p ∧ s = t := by
  rw [Option.ite_none_right_eq_some, Option.some.injEq]

/-- A step on the head of a queue is taken when the queue has a head. -/
theorem head_bind_eq_some {A : Type*} {queue : List A} {next : A → Option S} {t : S} :
    queue.head?.bind next = some t ↔ ∃ first rest, queue = first :: rest ∧ next first = some t := by
  cases queue with
  | nil => simp
  | cons first rest => simp

end Runs
