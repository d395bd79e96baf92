import Mathlib.Logic.Function.Basic
import Mathlib.Data.List.Basic

/-!
# Straight-line programs over named wires

An instruction reads a list of wires and overwrites one. The wire names, the wire
values, and the instruction functions are arbitrary. Two rules carry every use of a
program inside a larger one: wires that a program does not write keep their values,
and a program may be renamed along any map that does not identify a written wire
with another wire.
-/

namespace StraightLine

variable {W V B : Type*}

/-- One assignment of a function of the argument wires to the output wire. -/
structure Instr (W B : Type*) where
  args : List W
  fn : List B → B
  out : W

/-- The value an instruction computes in an environment. -/
def Instr.value (instr : Instr W B) (env : W → B) : B := instr.fn (instr.args.map env)

/-- Execute one instruction. -/
def Instr.exec [DecidableEq W] (env : W → B) (instr : Instr W B) : W → B :=
  Function.update env instr.out (instr.value env)

/-- Execute a program from left to right. -/
def exec [DecidableEq W] (program : List (Instr W B)) (env : W → B) : W → B :=
  program.foldl Instr.exec env

/-- Rename every wire of an instruction. -/
def Instr.rename (rho : W → V) (instr : Instr W B) : Instr V B where
  args := instr.args.map rho
  fn := instr.fn
  out := rho instr.out

variable [DecidableEq W] [DecidableEq V]

/-- An empty program changes nothing. -/
@[simp] theorem exec_nil (env : W → B) : exec [] env = env := rfl

/-- The first instruction runs before the rest of the program. -/
@[simp] theorem exec_cons (instr : Instr W B) (program : List (Instr W B)) (env : W → B) :
    exec (instr :: program) env = exec program (instr.exec env) := rfl

/-- Concatenated programs run in sequence. -/
theorem exec_append (first second : List (Instr W B)) (env : W → B) :
    exec (first ++ second) env = exec second (exec first env) := by
  simp [exec]

/-- A program preserves every wire it never writes. -/
theorem exec_frame (program : List (Instr W B)) (env : W → B) (w : W)
    (hw : ∀ instr ∈ program, instr.out ≠ w) : exec program env w = env w := by
  induction program generalizing env with
  | nil => rfl
  | cons instr rest ih =>
    rw [exec_cons, ih _ fun i hi => hw i (List.mem_cons_of_mem _ hi)]
    exact Function.update_of_ne (hw instr List.mem_cons_self).symm _ _

/-- A program that never reads what it writes, and writes each wire once, gives every written
wire its value in the initial environment. -/
theorem exec_independent (program : List (Instr W B)) (env : W → B)
    (hread : ∀ reader ∈ program, ∀ w ∈ reader.args, ∀ writer ∈ program, writer.out ≠ w)
    (hout : (program.map Instr.out).Nodup) {instr : Instr W B} (hinstr : instr ∈ program) :
    exec program env instr.out = instr.value env := by
  induction program generalizing env with
  | nil => cases hinstr
  | cons first rest ih =>
    rw [List.map_cons, List.nodup_cons] at hout
    rw [exec_cons]
    rcases List.mem_cons.mp hinstr with rfl | hrest
    · rw [exec_frame]
      · exact Function.update_self _ _ _
      · intro other hother heq
        exact hout.1 (heq ▸ List.mem_map_of_mem hother)
    · rw [ih _ (fun reader hr w hw writer hwr =>
        hread reader (List.mem_cons_of_mem _ hr) w hw writer (List.mem_cons_of_mem _ hwr))
        hout.2 hrest]
      have hargs : instr.args.map (first.exec env) = instr.args.map env :=
        List.map_congr_left fun w hw => Function.update_of_ne
          (hread instr hinstr w hw first List.mem_cons_self).symm _ _
      rw [Instr.value, Instr.value, hargs]

/-- When neither an instruction nor a later one writes what the instruction reads, and no later one
writes its output, the final environment satisfies its equation. -/
theorem exec_last {first rest : List (Instr W B)} {instr : Instr W B} (env : W → B)
    (hself : instr.out ∉ instr.args)
    (hlater : ∀ later ∈ rest, later.out ≠ instr.out ∧ later.out ∉ instr.args) :
    exec (first ++ instr :: rest) env instr.out =
      instr.value (exec (first ++ instr :: rest) env) := by
  rw [exec_append, exec_cons]
  have hargs : instr.args.map (exec rest (instr.exec (exec first env))) =
      instr.args.map (exec first env) := by
    refine List.map_congr_left fun w hw => ?_
    rw [exec_frame _ _ _ fun later hl heq => (hlater later hl).2 (heq ▸ hw)]
    exact Function.update_of_ne (show w ≠ instr.out from fun heq => hself (heq ▸ hw)) _ _
  rw [exec_frame _ _ _ fun later hl => (hlater later hl).1, Instr.value, hargs]
  exact Function.update_self _ _ _

/-- When no later instruction writes what an instruction reads or writes, the final environment
satisfies the equation of every instruction. -/
theorem exec_value {program : List (Instr W B)} (env : W → B)
    (hself : ∀ instr ∈ program, instr.out ∉ instr.args)
    (hlater : program.Pairwise fun earlier later =>
      later.out ≠ earlier.out ∧ later.out ∉ earlier.args)
    {instr : Instr W B} (hinstr : instr ∈ program) :
    exec program env instr.out = instr.value (exec program env) := by
  obtain ⟨first, rest, rfl⟩ := List.append_of_mem hinstr
  have hrest := (List.pairwise_cons.mp (List.pairwise_append.mp hlater).2.1).1
  exact exec_last env (hself instr hinstr) hrest

/-- Executing a renamed program simulates the original through the renaming.

Only written wires must keep names of their own; inputs may share a name. -/
theorem exec_rename (rho : W → V) (program : List (Instr W B)) (env : W → B) (env' : V → B)
    (hout : ∀ instr ∈ program, ∀ w, rho w = rho instr.out → w = instr.out)
    (henv : ∀ w, env' (rho w) = env w) (w : W) :
    exec (program.map (Instr.rename rho)) env' (rho w) = exec program env w := by
  induction program generalizing env env' with
  | nil => exact henv w
  | cons instr rest ih =>
    rw [List.map_cons, exec_cons, exec_cons]
    refine ih _ _ (fun i hi => hout i (List.mem_cons_of_mem _ hi)) fun v => ?_
    have hvalue : (instr.rename rho).value env' = instr.value env := by
      simp [Instr.value, Instr.rename, Function.comp_def, henv]
    by_cases hv : v = instr.out
    · subst hv
      rw [Instr.exec, hvalue]
      simp [Instr.exec, Instr.rename]
    · have hne : rho v ≠ rho instr.out := fun h => hv (hout instr List.mem_cons_self v h)
      simp [Instr.exec, Instr.rename, Function.update_of_ne hne, Function.update_of_ne hv, henv]

end StraightLine
