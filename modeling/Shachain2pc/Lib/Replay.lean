import Mathlib.Logic.Function.Basic
import Mathlib.Data.List.Basic

/-!
# Replaying a log of writes

A log of writes over arbitrary keys and values; each write sets or deletes one key. What a
replay leaves at a key depends only on the last write to that key, so parts of a log that
write different keys may be exchanged.
-/

namespace Replay

variable {K V : Type*}

/-- A write of one key; no value deletes it. -/
structure Write (K V : Type*) where
  key : K
  value : Option V

/-- The keys a log writes. -/
def Writes (log : List (Write K V)) (key : K) : Prop := ∃ w ∈ log, w.key = key

variable [DecidableEq K]

/-- One write to a table. -/
def Write.apply (table : K → Option V) (w : Write K V) : K → Option V :=
  Function.update table w.key w.value

/-- Replay a log on a table, oldest write first. -/
def replay (table : K → Option V) (log : List (Write K V)) : K → Option V :=
  log.foldl Write.apply table

/-- An empty log changes nothing. -/
@[simp] theorem replay_nil (table : K → Option V) : replay table [] = table := rfl

/-- The oldest write is replayed first. -/
@[simp] theorem replay_cons (table : K → Option V) (w : Write K V) (log : List (Write K V)) :
    replay table (w :: log) = replay (w.apply table) log := rfl

/-- Consecutive logs are replayed in sequence. -/
theorem replay_append (table : K → Option V) (first second : List (Write K V)) :
    replay table (first ++ second) = replay (replay table first) second :=
  List.foldl_append

/-- A key that no write names keeps its value. -/
theorem replay_of_not_writes (table : K → Option V) {log : List (Write K V)} {key : K}
    (h : ¬ Writes log key) : replay table log key = table key := by
  induction log generalizing table with
  | nil => rfl
  | cons w rest ih =>
    rw [replay_cons, ih _ fun ⟨w', hw', hkey⟩ => h ⟨w', List.mem_cons_of_mem _ hw', hkey⟩]
    exact Function.update_of_ne (fun hkey => h ⟨w, List.mem_cons_self, hkey.symm⟩) _ _

/-- A replay at a key starts from nothing but that key's value. -/
theorem replay_congr {table table' : K → Option V} {key : K} (h : table key = table' key)
    (log : List (Write K V)) : replay table log key = replay table' log key := by
  induction log generalizing table table' with
  | nil => exact h
  | cons w rest ih =>
    refine ih ?_
    by_cases hkey : key = w.key
    · subst hkey
      simp [Write.apply]
    · simp [Write.apply, Function.update_of_ne hkey, h]

/-- A written key ends at its last written value, whatever the table held. -/
theorem replay_of_writes (table table' : K → Option V) {log : List (Write K V)} {key : K}
    (h : Writes log key) : replay table log key = replay table' log key := by
  induction log generalizing table table' with
  | nil =>
    obtain ⟨w, hw, -⟩ := h
    cases hw
  | cons w rest ih =>
    by_cases hrest : Writes rest key
    · exact ih _ _ hrest
    · obtain ⟨w', hw', hkey⟩ := h
      rcases List.mem_cons.mp hw' with rfl | hw'
      · exact replay_congr (by simp [Write.apply, hkey]) rest
      · exact absurd ⟨w', hw', hkey⟩ hrest

/-- A key to which all writes write one value ends at that value. -/
theorem replay_of_forall_eq (table : K → Option V) {log : List (Write K V)} {key : K}
    {value : Option V} (h : Writes log key) (hall : ∀ w ∈ log, w.key = key → w.value = value) :
    replay table log key = value := by
  induction log generalizing table with
  | nil =>
    obtain ⟨w, hw, -⟩ := h
    cases hw
  | cons w rest ih =>
    by_cases hrest : Writes rest key
    · exact ih _ hrest fun w' hw' => hall w' (List.mem_cons_of_mem _ hw')
    · obtain ⟨w', hw', hkey⟩ := h
      rcases List.mem_cons.mp hw' with rfl | hw'
      · rw [replay_cons, replay_of_not_writes _ hrest, ← hall w' List.mem_cons_self hkey, ← hkey]
        exact Function.update_self _ _ _
      · exact absurd ⟨w', hw', hkey⟩ hrest

/-- Logs that write no common key may be exchanged. -/
theorem replay_append_comm (table : K → Option V) {first second : List (Write K V)}
    (h : ∀ key, Writes first key → ¬ Writes second key) :
    replay table (first ++ second) = replay table (second ++ first) := by
  funext key
  rw [replay_append, replay_append]
  by_cases hfirst : Writes first key
  · rw [replay_of_not_writes _ (h key hfirst)]
    exact replay_congr (replay_of_not_writes _ (h key hfirst)).symm first
  · rw [replay_of_not_writes _ hfirst]
    exact replay_congr (replay_of_not_writes _ hfirst) second

end Replay
