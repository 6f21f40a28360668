import ScoreWasm.Proofs.Wasm.Typing

/-!
# Checked bodies

A body is checked from its first instruction to its last one, each from the stacks that the one before it
has left.  Execution does not keep to this order: it leaves constructs from anywhere inside them and goes
on behind their ends or in their second arms, so these have to be found in the code.
-/

namespace ScoreWasm.Wasm

open Validate

variable {m : Module} {v : Validated} {offset f : Nat}

/-! ### Nesting of code -/

section Nesting

variable {i : Instr} {rest : List Instr} {d : Nat}

variable {k : FrameKind}

theorem afterEnd_flat (hi : isFlat i = true) : afterEnd d (i :: rest) = afterEnd d rest := by
  cases i <;> first | rfl | cases hi

theorem afterElse?_flat (hi : isFlat i = true) : afterElse? d (i :: rest) = afterElse? d rest := by
  cases i <;> first | rfl | cases hi

theorem afterEnd_opens (hi : opened? i = some k) : afterEnd d (i :: rest) = afterEnd (d + 1) rest := by
  cases i <;> first | rfl | cases hi

theorem afterElse?_opens (hi : opened? i = some k) : afterElse? d (i :: rest) = afterElse? (d + 1) rest := by
  cases i <;> first | rfl | cases hi

/-- Leaving several constructs is leaving some of them and then the others. -/
theorem afterEnd_add (code : List Instr) (d k : Nat) : afterEnd (d + 1 + k) code = afterEnd k (afterEnd d code) := by
  induction code generalizing d k with
  | nil =>
    rfl
  | cons i rest ih =>
    cases i with
    | block _ | loop _ | if_ _ =>
      show afterEnd (d + 1 + k + 1) rest = afterEnd k (afterEnd (d + 1) rest)
      rw [← ih (d + 1) k]
      congr 1
      omega
    | end_ =>
      cases d with
      | zero =>
        rw [show 0 + 1 + k = k + 1 by omega]
        rfl
      | succ d =>
        rw [show d + 1 + 1 + k = d + 1 + k + 1 by omega]
        exact ih d k
    | _ => exact ih d k

/-- The second arm of a construct ends where the construct does. -/
theorem afterEnd_of_afterElse? {code arm : List Instr} (h : afterElse? d code = some arm) :
    afterEnd d code = afterEnd 0 arm := by
  induction code generalizing arm d with
  | nil =>
    cases h
  | cons i rest ih =>
    cases i with
    | block _ | loop _ | if_ _ => exact ih h
    | else_ =>
      cases d with
      | zero =>
        cases h
        rfl
      | succ d => exact ih h
    | end_ =>
      cases d with
      | zero => cases h
      | succ d => exact ih h
    | _ => exact ih h

end Nesting

namespace Validate

variable {ctx : Context} {ps : List Placed} {s : Stacks} {cs : List Checked}

/-! ### Whole bodies -/

/-- The instruction with what the checker notes. -/
def checked (i : Instr) (offset : Nat) (s : Stacks) (note : Note) : Checked :=
  ⟨i, offset, s.vals.length, note.blockType, note.valueType, note.stack⟩

/-- The checked instructions of a body, one after another. -/
inductive CheckedAs (ctx : Context) : List Placed → Stacks → List Checked → Prop where
  | done {s : Stacks} : s.frames = [] → CheckedAs ctx [] s []
  | step {p : Placed} {rest : List Placed} {s s' : Stacks} {note : Note} {cs : List Checked} :
    s.frames ≠ [] → step { ctx with offset := p.offset } p.instr s = .ok (note, s') →
    CheckedAs ctx rest s' cs →
    CheckedAs ctx (p :: rest) s (checked p.instr p.offset s note :: cs)

theorem CheckedAs.of_offset : CheckedAs { ctx with offset := offset } ps s cs ↔ CheckedAs ctx ps s cs := by
  constructor <;> intro h <;> induction h with
  | done hs => exact .done hs
  | step hne hs _ ih => exact .step hne hs ih

theorem steps_checkedAs {acc body : List Checked}
    (h : steps ctx ps s acc offset = .ok body) : ∃ cs, body = acc.reverse ++ cs ∧ CheckedAs ctx ps s cs := by
  induction ps generalizing ctx s acc body offset with
  | nil =>
    unfold steps at h
    split at h
    · rename_i hs
      cases h
      exact ⟨[], by simp, .done (by simpa using hs)⟩
    · cases h
  | cons p rest ih =>
    unfold steps at h
    simp only at h
    split at h
    · cases h
    · rename_i hne
      split at h
      · cases h
      · rename_i note s' hstep
        obtain ⟨cs, rfl, hcs⟩ := ih h
        refine ⟨_ :: cs, ?_, .step (by simpa using hne) hstep (CheckedAs.of_offset.mp hcs)⟩
        rw [List.reverse_cons, List.append_assoc]
        rfl

theorem CheckedAs.instrs (h : CheckedAs ctx ps s cs) : cs.map Checked.instr = ps.map Placed.instr := by
  induction h with
  | done _ => rfl
  | step _ _ _ ih => rw [List.map_cons, List.map_cons, ih]; rfl

/-- The context a function is checked in. -/
def context (m : Module) (t : FuncType) (fn : Function) : Context := ⟨m, t.results, t.params ++ fn.locals, 0⟩

/-- The stacks a check starts with. -/
def firstStacks (t : FuncType) : Stacks := ⟨[], [⟨.function, ⟨[], t.results⟩, 0, false⟩]⟩

end Validate

theorem validate_module (h : validate m = .ok v) : checkOutside m = .ok () ∧ v.module = m ∧
      m.functions.mapM (function m) = .ok v.bodies := by
  unfold validate at h
  cases hc : checkOutside m with
  | error e =>
    rw [hc] at h
    cases h
  | ok u =>
    rw [hc] at h
    cases hf : m.functions.mapM (function m) with
    | error e =>
      rw [hf] at h
      cases h
    | ok bodies =>
      rw [hf] at h
      cases h
      exact ⟨rfl, rfl, rfl⟩

/-- **Every function that a checked module defines has been checked as a whole.** -/
theorem function_checked (hv : validate m = .ok v) {fn : Function} (hf : m.defined? f = some fn) :
    ∃ t cs, m.funcType? f = some t ∧ v.bodies[f - m.importCount]? = some cs ∧
      CheckedAs (context m t fn) fn.body (firstStacks t) cs := by
  obtain ⟨-, -, hbodies⟩ := validate_module hv
  unfold Module.defined? at hf
  split at hf
  · cases hf
  · rename_i hlt
    obtain ⟨-, hall⟩ := Except.mapM_eq_ok hbodies
    obtain ⟨cs, hcs, hfun⟩ := hall _ fn hf
    unfold function at hfun
    cases ht : m.typeAt? fn.type with
    | none =>
      rw [ht] at hfun
      cases hfun
    | some t =>
      rw [ht] at hfun
      obtain ⟨cs', rfl, hchecked⟩ := steps_checkedAs hfun
      refine ⟨t, _, ?_, hcs, hchecked⟩
      have himp : m.isImport f = false := by
        simp [Module.isImport]
        omega
      have hindex : ((f : Int) - m.importCount).toNat = f - m.importCount := by omega
      unfold Module.funcType? Module.typeIndex?
      simp only [himp, Bool.false_eq_true, if_false, hindex, hf, Option.map_some, Option.bind_some, ht]

end ScoreWasm.Wasm
