import ScoreWasm.Proofs.SoftFloat.Layout
import ScoreWasm.Proofs.Wasm.Arithmetic

/-!
# Evaluation of code without control flow

`evaluate` computes the operands and variables after a piece of code without control flow, under rules for the
operators in it.
-/

namespace ScoreWasm.SoftFloat

open Wasm

/-- Takes operands from a stack and puts them before others. -/
def takeArgs : Nat → List Value → List Value → Option (List Value × List Value)
  | 0, args, stack => some (args, stack)
  | n + 1, args, v :: stack => takeArgs n (v :: args) stack
  | _ + 1, _, [] => none

theorem takeArgs_eq {n : Nat} {args stack args' stack' : List Value} (h : takeArgs n args stack = some (args', stack')) :
    args' = (stack.take n).reverse ++ args ∧ stack' = stack.drop n := by
  induction n, args, stack using takeArgs.induct with
  | case1 args stack =>
    cases h
    exact ⟨rfl, rfl⟩
  | case2 n args v stack ih => simpa using ih h
  | case3 => cases h

/-- The operands and variables after an instruction without control flow. -/
def Op.eval (rules : Rules) : Op → List Value → List Value → Option (List Value × List Value)
  | .plain (.localGet (.ofNat k)), stack, locals => locals[k]?.map fun v => (v :: stack, locals)
  | .plain (.localSet (.ofNat k)), v :: stack, locals => some (stack, locals.set k v)
  | .plain (.localTee (.ofNat k)), v :: stack, locals => some (v :: stack, locals.set k v)
  | .plain (.const t i), stack, locals => some (.ofInt t i :: stack, locals)
  | .plain (.num op), stack, locals =>
    match takeArgs op.type.params.length [] stack with
    | some (args, stack) =>
      match rules op args with
      | some (.ok v) => some (v :: stack, locals)
      | _ => none
    | none => none
  | _, _, _ => none

/-- Runs operations in order. -/
def evaluate (rules : Rules) : List Op → List Value → List Value → Option (List Value × List Value)
  | [], stack, locals => some (stack, locals)
  | o :: ops, stack, locals =>
    match o.eval rules stack locals with
    | some (stack', locals') => evaluate rules ops stack' locals'
    | none => none

variable {σ : Type} {env : Env σ} {index : Routine → Nat} {rules : Rules} {a : Activation}
  {rest : List Instr} {stack locals stack' locals' : List Value}

theorem evaluate_var {ops : List Op} {k : Nat} {v : Value} (h : locals[k]? = some v) :
    evaluate rules (.plain (.localGet k) :: ops) stack locals = evaluate rules ops (v :: stack) locals := by
  have hv : Op.eval rules (.plain (.localGet k)) stack locals = some (v :: stack, locals) :=
    (congrArg (Option.map _) h).trans rfl
  rw [evaluate, hv]

theorem replaceAt_ofNat {α : Type} (l : List α) (k : Nat) (x : α) : replaceAt l k x = l.set k x := by
  unfold replaceAt
  rw [position?_ofNat]
  by_cases hk : k < l.length
  · rw [if_pos hk]
  · rw [if_neg hk, List.set_eq_of_length_le (Nat.le_of_not_lt hk)]

theorem Op.leads_of_eval (hrules : env.Obeys rules) (o : Op)
    (h : o.eval rules a.stack a.locals = some (stack', locals')) (hcode : a.code = o.instr index :: rest) :
    env.Leads a { a with code := rest, stack := stack', locals := locals' } := by
  cases o with
  | call r => cases h
  | plain i =>
    cases i with
    | localGet k =>
      cases k with
      | negSucc k => cases h
      | ofNat k =>
        obtain ⟨v, hv, heq⟩ := Option.map_eq_some_iff.mp h
        cases heq
        have hplain : ∀ s, env.plain (.localGet k) [] a.locals s = .ok ([v], a.locals, s) := fun s => by
          simp only [Env.plain, elementAt?_ofNat, hv]
        exact Env.leads_isLocal rfl hcode hplain
    | localSet k | localTee k =>
      cases k with
      | negSucc k => cases hstack : a.stack <;> rw [hstack] at h <;> cases h
      | ofNat k =>
        cases hstack : a.stack with
        | nil =>
          rw [hstack] at h
          cases h
        | cons v stack =>
          rw [hstack] at h
          cases h
          refine Env.leads_of_step fun waiting s => ?_
          rw [Env.step_isLocal rfl hcode, ← replaceAt_ofNat]
          unfold Env.proceed
          rw [hstack]
          rfl
    | const t i =>
      cases h
      exact Env.leads_isLocal rfl hcode fun _ => rfl
    | num op =>
      have hv : ∃ v, rules op (a.stack.take op.type.params.length).reverse = some (.ok v) ∧
          (v :: a.stack.drop op.type.params.length, a.locals) = (stack', locals') := by
        simp only [Op.eval] at h
        split at h
        next htake =>
          obtain ⟨rfl, rfl⟩ := takeArgs_eq htake
          split at h
          next hv =>
            rw [List.append_nil] at hv
            exact ⟨_, hv, Option.some.inj h⟩
          next => cases h
        next => cases h
      obtain ⟨v, hv, heq⟩ := hv
      cases heq
      refine Env.leads_of_step fun waiting s => ?_
      rw [Env.step_isLocal rfl hcode]
      show Env.proceed _ _ _ _ _ (env.num op (a.stack.take op.type.params.length).reverse >>= _) = _
      rw [hrules _ _ _ hv]
      rfl
    | _ => cases h

theorem leads_of_evaluate (hrules : env.Obeys rules) (rest : List Instr) (ops : List Op)
    (a : Activation) (h : evaluate rules ops a.stack a.locals = some (stack', locals'))
    (hcode : a.code = ops.map (Op.instr index) ++ rest) :
    env.Leads a { a with code := rest, stack := stack', locals := locals' } := by
  induction ops generalizing a with
  | nil =>
    cases h
    rw [← show a.code = rest from hcode]
    exact .refl env a
  | cons o ops ih =>
    unfold evaluate at h
    split at h
    next hfirst => exact (o.leads_of_eval hrules hfirst hcode).trans (ih _ h rfl)
    next => cases h

end ScoreWasm.SoftFloat
