import ScoreWasm.Proofs.Wasm.Value

/-!
# Structured execution

A small-step semantics of WebAssembly.  An activation of a function holds the instructions still to be
run, the labels of the constructs around them, its operands and its locals.  A label says how many
operands a branch to it takes along, how many stay below them, and with which instructions the run goes
on: those after the matching `end`, or those after the `loop`.

Every instruction that does something besides passing control leaves an event.  Two machines that run
the same program can be compared by their events and by how they end.
-/

namespace ScoreWasm.Wasm

variable {σ : Type} {t : FuncType}

/-! ### Runs -/

/-- An instruction that was run, with its operands and the locals before it. -/
structure Event where
  instr : Instr
  operands : List Value
  locals : List Value
  deriving DecidableEq, Repr

/-- What comes after a step: another state, results, or an early end. -/
inductive Outcome (σ γ : Type) where
  | next (c : γ)
  | done (results : List Value) (s : Store σ)
  | halt (why : Halt) (s : Store σ)

/-- A step: at most one event and what comes after it. -/
abbrev Advance (σ γ : Type) := List Event × Outcome σ γ

/-- A number of steps at most: the events in order and what comes after them. -/
def runFor {γ : Type} (step : γ → Advance σ γ) : Nat → γ → Advance σ γ
  | 0, c => ([], .next c)
  | n + 1, c =>
    match step c with
    | (es, .next c) => let (more, o) := runFor step n c; (es ++ more, o)
    | ended => ended

section Runs

variable {γ : Type} {step : γ → Advance σ γ} {c c' : γ} {es : List Event}

variable {n m : Nat}

theorem runFor_succ_next (h : step c = (es, .next c')) :
    runFor step (n + 1) c = (es ++ (runFor step n c').1, (runFor step n c').2) := by
  show (match step c with
    | (es, .next c) => let (more, o) := runFor step n c; (es ++ more, o)
    | ended => ended) = _
  rw [h]

/-- The outcomes after which nothing more comes. -/
def Outcome.Ended : Outcome σ γ → Prop
  | .next _ => False
  | _ => True

variable {o : Outcome σ γ}

theorem runFor_succ_ended (h : step c = (es, o)) (ho : o.Ended) : runFor step (n + 1) c = (es, o) := by
  show (match step c with
    | (es, .next c) => let (more, o) := runFor step n c; (es ++ more, o)
    | ended => ended) = _
  rw [h]
  cases o with
  | next c' => cases ho
  | done r s | halt w s => rfl

theorem runFor_one (step : γ → Advance σ γ) (c : γ) : runFor step 1 c = step c := by
  cases h : step c with
  | mk es o =>
    cases o with
    | next c' =>
      rw [runFor_succ_next h]
      show (es ++ [], _) = _
      rw [List.append_nil]
      rfl
    | done r s | halt w s => exact runFor_succ_ended h trivial

/-- A run that has not ended is continued. -/
theorem runFor_add (h : runFor step n c = (es, .next c')) :
    runFor step (n + m) c = (es ++ (runFor step m c').1, (runFor step m c').2) := by
  induction n generalizing c es with
  | zero =>
    cases h
    rw [Nat.zero_add]
    rfl
  | succ n ih =>
    cases hstep : step c with
    | mk es1 o =>
      cases o with
      | next c1 =>
        rw [runFor_succ_next hstep] at h
        obtain ⟨rfl, hnext⟩ := Prod.mk.inj h
        rw [Nat.add_right_comm, runFor_succ_next hstep, ih (Prod.ext rfl hnext), List.append_assoc]
      | done r s | halt w s =>
        rw [runFor_succ_ended hstep trivial] at h
        cases h

theorem runFor_ended (ho : o.Ended) (h : runFor step n c = (es, o)) :
    runFor step (n + m) c = (es, o) := by
  induction n generalizing c es with
  | zero =>
    cases h
    cases ho
  | succ n ih =>
    rw [Nat.add_right_comm]
    cases hstep : step c with
    | mk es1 o1 =>
      cases o1 with
      | next c1 =>
        rw [runFor_succ_next hstep] at h
        obtain ⟨rfl, hnext⟩ := Prod.mk.inj h
        rw [runFor_succ_next hstep, ih (Prod.ext rfl hnext)]
      | done r s | halt w s =>
        rw [runFor_succ_ended hstep trivial] at h ⊢
        exact h

end Runs

/-! ### Nesting -/

/-- The instructions after the end of the construct that lies so many constructs outside of these. -/
def afterEnd : Nat → List Instr → List Instr
  | _, [] => []
  | depth, i :: rest =>
    match i with
    | .block _ => afterEnd (depth + 1) rest
    | .loop _ => afterEnd (depth + 1) rest
    | .if_ _ => afterEnd (depth + 1) rest
    | .end_ =>
      match depth with
      | 0 => rest
      | outer + 1 => afterEnd outer rest
    | _ => afterEnd depth rest

/-- The instructions of the second arm of the construct that lies so many constructs outside of these, if
there is one. -/
def afterElse? : Nat → List Instr → Option (List Instr)
  | _, [] => none
  | depth, i :: rest =>
    match i with
    | .block _ => afterElse? (depth + 1) rest
    | .loop _ => afterElse? (depth + 1) rest
    | .if_ _ => afterElse? (depth + 1) rest
    | .else_ =>
      match depth with
      | 0 => some rest
      | _ + 1 => afterElse? depth rest
    | .end_ =>
      match depth with
      | 0 => none
      | outer + 1 => afterElse? outer rest
    | _ => afterElse? depth rest

/-- The type of a block. -/
def Module.blockType? (m : Module) : BlockType → Option FuncType
  | .empty => some ⟨[], []⟩
  | .value t => some ⟨[], [t]⟩
  | .index (.ofNat n) => m.types[n]?
  | .index (.negSucc _) => none

/-! ### Activations -/

/-- What a branch to a construct does. -/
structure Label where
  isLoop : Bool
  arity : Nat
  height : Nat
  cont : List Instr

/-- A function being run.  Operands are held with the topmost first, labels with the innermost first; the
outermost label is that of the function itself. -/
structure Activation where
  func : Nat
  code : List Instr
  labels : List Label
  stack : List Value
  locals : List Value

/-- The activations, the innermost first, and the store. -/
structure Config (σ : Type) where
  active : Activation
  waiting : List Activation
  store : Store σ

namespace Config

/-- Goes on with the innermost activation changed. -/
def go (c : Config σ) (a : Activation) : Outcome σ (Config σ) := .next { c with active := a }

/-- The run ends. -/
def halt (c : Config σ) (why : Halt) : Outcome σ (Config σ) := .halt why c.store

/-- The end of a run that only unchecked code has. -/
def stuck (c : Config σ) : Outcome σ (Config σ) := c.halt .stuck

/-- Ends the innermost activation with results, which go to the one that waits for them. -/
def ret (c : Config σ) (results : List Value) : Outcome σ (Config σ) :=
  match c.waiting with
  | [] => .done results c.store
  | a :: rest => .next { c with active := { a with stack := results.reverse ++ a.stack }, waiting := rest }

/-- Branches to a label.  A branch to a loop stays in it; one to another construct leaves it, and one to
the function's own label returns. -/
def branch (c : Config σ) (a : Activation) (label : Int) : Outcome σ (Config σ) :=
  match position? a.labels.length label with
  | none => c.stuck
  | some depth =>
    match a.labels[depth]? with
    | none => c.stuck
    | some l =>
      let taken := a.stack.take l.arity
      let stack := taken ++ a.stack.drop (a.stack.length - l.height)
      if l.isLoop then c.go { a with code := l.cont, labels := a.labels.drop depth, stack := stack }
      else if depth + 1 = a.labels.length then c.ret taken.reverse
      else c.go { a with code := l.cont, labels := a.labels.drop (depth + 1), stack := stack }

end Config

/-! ### Calls -/

/-- The function, unless it is imported. -/
def Module.defined? (m : Module) (f : Nat) : Option Function :=
  if f < m.importCount then none else m.functions[f - m.importCount]?

/-- The locals of a function when it is entered: its arguments, then zeros. -/
def Function.firstLocals (fn : Function) (args : List Value) : List Value :=
  args ++ fn.locals.map Value.zero

/-- The first instruction of a body, with its own label around it and the operands as locals. -/
def Env.activation? (env : Env σ) (f : Nat) (args : List Value) : Option Activation :=
  (env.module.defined? f).map (fun fn =>
    { func := f
      code := fn.body.map Placed.instr
      labels := [⟨false, (env.module.funcType f).results.length, 0, []⟩]
      stack := []
      locals := fn.firstLocals args })

theorem funcType_eq {m : Module} {f : Int} (h : m.funcType? f = some t) : m.funcType f = t := by
  unfold Module.funcType
  rw [h]
  rfl

theorem Env.activation?_eq {env : Env σ} {f : Nat} {fn : Function}
    (hf : env.module.defined? f = some fn) (ht : env.module.funcType? f = some t) (args : List Value) :
    env.activation? f args =
      some ⟨f, fn.body.map Placed.instr, [⟨false, t.results.length, 0, []⟩], [], fn.firstLocals args⟩ := by
  unfold Env.activation?
  rw [hf, funcType_eq ht]
  rfl

/-- Calls a function with the activation `a`, which waits for the results. -/
def Env.call (env : Env σ) (c : Config σ) (a : Activation) (f : Nat) (args : List Value) :
    Outcome σ (Config σ) :=
  if env.module.isImport f then
    match env.host f args c.store with
    | .ok (vs, s) => .next { c with active := { a with stack := vs.reverse ++ a.stack }, store := s }
    | .error why => c.halt why
  else
    match env.activation? f args with
    | some callee => .next { c with active := callee, waiting := a :: c.waiting }
    | none => c.stuck

/-- The function that a table holds at an index, if it has the type that is called for.  A table that is
not there is empty. -/
def Env.target (env : Env σ) (type table : Int) (index : Nat) : Except Halt Nat :=
  match ((elementAt? env.tables table).getD [])[index]? with
  | none => .error (.trap .undefinedElement)
  | some none => .error (.trap .uninitializedElement)
  | some (some f) =>
    if env.module.funcType? f = env.module.typeAt? type then .ok f else .error (.trap .typeMismatch)

/-! ### Steps -/

/-- Runs the first instruction of an activation, given those after it. -/
def Env.stepInstr (env : Env σ) (c : Config σ) (i : Instr) (rest : List Instr) :
    Advance σ (Config σ) :=
  let a := c.active
  let after := { a with code := rest }
  let enter (t : FuncType) (isLoop : Bool) (stack : List Value) (code : List Instr) : Activation :=
    { a with
      code := code
      labels := ⟨isLoop, if isLoop then t.params.length else t.results.length,
        stack.length - t.params.length, if isLoop then rest else afterEnd 0 rest⟩ :: a.labels
      stack := stack }
  match i with
  | .nop => ([], c.go after)
  | .block bt =>
    match env.module.blockType? bt with
    | some t => ([], c.go (enter t false a.stack rest))
    | none => ([], c.stuck)
  | .loop bt =>
    match env.module.blockType? bt with
    | some t => ([], c.go (enter t true a.stack rest))
    | none => ([], c.stuck)
  | .if_ bt =>
    match env.module.blockType? bt, a.stack with
    | some t, cond :: stack =>
      if cond.bits = 0 then
        match afterElse? 0 rest with
        | some code => ([], c.go (enter t false stack code))
        | none => ([], c.go { a with code := afterEnd 0 rest, stack := stack })
      else ([], c.go (enter t false stack rest))
    | _, _ => ([], c.stuck)
  | .else_ => ([], c.go { a with code := afterEnd 0 rest, labels := a.labels.tail })
  | .end_ =>
    match a.labels with
    | [] => ([], c.stuck)
    | [l] => ([], c.ret (a.stack.take l.arity).reverse)
    | _ :: labels => ([], c.go { after with labels := labels })
  | .br l => ([], c.branch after l)
  | .brIf l =>
    match a.stack with
    | cond :: stack =>
      let after := { after with stack := stack }
      ([], if cond.bits = 0 then c.go after else c.branch after l)
    | [] => ([], c.stuck)
  | .brTable labels default =>
    match a.stack with
    | index :: stack =>
      ([], c.branch { after with stack := stack } ((labels[index.bits]?).getD default))
    | [] => ([], c.stuck)
  | .ret => ([], c.branch after (-1))
  | .unreachable kind => ([], c.halt (.trap (kind.getD .unreachable)))
  | .callIndirect type table =>
    let arity := ((env.module.typeAt? type).getD ⟨[], []⟩).params.length
    match a.stack with
    | index :: stack =>
      let args := (stack.take arity).reverse
      ([⟨i, args ++ [index], a.locals⟩],
        match env.target type table index.bits with
        | .ok f => env.call c { after with stack := stack.drop arity } f args
        | .error why => c.halt why)
    | [] => ([], c.stuck)
  | .call f =>
    let args := (a.stack.take (i.inputs env.module)).reverse
    ([⟨i, args, a.locals⟩],
      env.call c { after with stack := a.stack.drop (i.inputs env.module) } f.toNat args)
  | i =>
    let args := (a.stack.take (i.inputs env.module)).reverse
    ([⟨i, args, a.locals⟩],
      match env.plain i args a.locals c.store with
      | .ok (results, locals, s) =>
        .next { c with
          active := { after with
            stack := results.reverse ++ a.stack.drop (i.inputs env.module)
            locals := locals }
          store := s }
      | .error why => c.halt why)

/-- Runs the next instruction. -/
def Env.step (env : Env σ) (c : Config σ) : Advance σ (Config σ) :=
  match c.active.code with
  | [] => ([], c.stuck)
  | i :: rest => env.stepInstr c i rest

/-- The configuration that runs a function on its own, if it is defined in the module. -/
def Env.start? (env : Env σ) (f : Nat) (args : List Value) (s : Store σ) : Option (Config σ) :=
  (env.activation? f args).map (fun a => ⟨a, [], s⟩)

end ScoreWasm.Wasm
