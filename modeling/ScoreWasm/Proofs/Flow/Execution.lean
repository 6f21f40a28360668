import ScoreWasm.Proofs.Wasm.Structured
import ScoreWasm.Flow.Build

/-!
# Running graphs

A graph works on numbered operand slots, which all functions share, and on the locals of the function
being run.  A block runs its instructions one after another and then its terminator.

A call saves the locals and the operands below its arguments in a frame that names the block to go on
with.  A function that ends leaves its results beside the slots and enters that block, whose first
instruction brings back what the frame holds, drops it, and puts the results where the arguments were.
-/

namespace ScoreWasm.Flow

open Wasm List

variable {σ : Type}

/-! ### Slots -/

/-- The registers for operands, by their height. -/
abbrev Slots := Int → Value

namespace Slots

variable {n : Nat} {v : Value} {stack : List Value}

/-- The values of consecutive slots. -/
def read (slots : Slots) (base : Int) : Nat → List Value
  | 0 => []
  | n + 1 => slots base :: slots.read (base + 1) n

/-- The slots with a value in one of them. -/
def set (slots : Slots) (d : Int) (v : Value) : Slots := fun k => if k = d then v else slots k

/-- Fills consecutive slots with values. -/
def write (slots : Slots) (base : Int) : List Value → Slots
  | [] => slots
  | v :: vs => (slots.set base v).write (base + 1) vs

/-- Copies consecutive slots one after another, the lowest first. -/
def move (slots : Slots) (src dst : Int) : Nat → Slots
  | 0 => slots
  | n + 1 => (slots.set dst (slots src)).move (src + 1) (dst + 1) n

variable {slots : Slots}

@[simp] theorem length_read (base : Int) (n : Nat) : (slots.read base n).length = n := by
  induction n generalizing base with
  | zero => rfl
  | succ n ih => simp [read, ih]

theorem read_add (base : Int) (m n : Nat) :
    slots.read base (m + n) = slots.read base m ++ slots.read (base + m) n := by
  induction m generalizing base with
  | zero => simp [read]
  | succ m ih =>
    rw [Nat.succ_add]
    show slots base :: slots.read (base + 1) (m + n) = slots base :: (slots.read (base + 1) m ++ _)
    rw [ih (base + 1)]
    congr 3
    omega

variable {slots' : Slots}

theorem read_congr {base : Int} (h : ∀ k, base ≤ k → k < base + n → slots' k = slots k) :
    slots'.read base n = slots.read base n := by
  induction n generalizing base with
  | zero => rfl
  | succ n ih =>
    show slots' base :: slots'.read (base + 1) n = slots base :: slots.read (base + 1) n
    rw [h base (Int.le_refl _) (by omega), ih]
    intro k hk hk'
    exact h k (by omega) (by omega)

theorem set_of_ne {d k : Int} (h : k ≠ d) : slots.set d v k = slots k := if_neg h

theorem set_self {d : Int} : slots.set d v d = v := if_pos rfl

theorem write_of_lt {vs : List Value} {base k : Int} (h : k < base) : slots.write base vs k = slots k := by
  induction vs generalizing slots base with
  | nil => rfl
  | cons v vs ih =>
    show (slots.set base v).write (base + 1) vs k = slots k
    rw [ih (by omega), set_of_ne (by omega)]

theorem read_write (base : Int) (vs : List Value) : (slots.write base vs).read base vs.length = vs := by
  induction vs generalizing slots base with
  | nil => rfl
  | cons v vs ih =>
    show (slots.set base v).write (base + 1) vs base ::
      ((slots.set base v).write (base + 1) vs).read (base + 1) vs.length = v :: vs
    rw [ih, write_of_lt (by omega), set_self]

theorem move_of_lt {src dst k : Int} (h : k < dst) : slots.move src dst n k = slots k := by
  induction n generalizing slots src dst with
  | zero => rfl
  | succ n ih =>
    show (slots.set dst (slots src)).move (src + 1) (dst + 1) n k = slots k
    rw [ih (by omega), set_of_ne (by omega)]

/-- Copying downwards, the lowest first, never overwrites what is still to be copied. -/
theorem read_move {src dst : Int} (h : dst ≤ src) : (slots.move src dst n).read dst n = slots.read src n := by
  induction n generalizing slots src dst with
  | zero => rfl
  | succ n ih =>
    show (slots.set dst (slots src)).move (src + 1) (dst + 1) n dst ::
      ((slots.set dst (slots src)).move (src + 1) (dst + 1) n).read (dst + 1) n =
        slots src :: slots.read (src + 1) n
    rw [ih (by omega), move_of_lt (by omega), set_self]
    congr 1
    refine read_congr ?_
    intro k hk _
    exact set_of_ne (by omega)

/-- The slots hold an operand stack, whose topmost operand comes first, from slot 0 on. -/
def HoldsStack (slots : Slots) (stack : List Value) : Prop := slots.read 0 stack.length = stack.reverse

theorem HoldsStack.append {xs ys : List Value} :
    slots.HoldsStack (xs ++ ys) ↔ slots.HoldsStack ys ∧ slots.read ys.length xs.length = xs.reverse := by
  unfold HoldsStack
  rw [length_append, Nat.add_comm, read_add, reverse_append, Int.zero_add]
  constructor
  · intro h
    exact append_inj h (by simp)
  · rintro ⟨h1, h2⟩
    rw [h1, h2]

theorem HoldsStack.cons {ys : List Value} : slots.HoldsStack (v :: ys) ↔ slots.HoldsStack ys ∧ slots ys.length = v := by
  rw [show v :: ys = [v] ++ ys from rfl, HoldsStack.append]
  simp [read]

theorem HoldsStack.nil : slots.HoldsStack [] := rfl

theorem HoldsStack.congr (h : slots.HoldsStack stack)
    (heq : ∀ k : Int, 0 ≤ k → k < stack.length → slots' k = slots k) : slots'.HoldsStack stack := by
  unfold HoldsStack at h ⊢
  rw [← h]
  exact read_congr (fun k hk hk' => heq k hk (by omega))

/-- Results that are written above what stays on the stack. -/
theorem HoldsStack.write {rest vs : List Value} (h : slots.HoldsStack rest) :
    (slots.write rest.length vs).HoldsStack (vs.reverse ++ rest) := by
  rw [HoldsStack.append]
  refine ⟨h.congr (fun k _ hk => write_of_lt hk), ?_⟩
  rw [length_reverse, read_write, reverse_reverse]

/-- The values that a branch takes along have come to lie on what stays below its target. -/
theorem HoldsStack.moved {arity height : Nat} (h : slots.HoldsStack stack) (hle : arity + height ≤ stack.length) (move : Bool)
    (hmove : move = false → arity = 0 ∨ stack.length - arity = height) :
    Slots.HoldsStack (if move then slots.move (stack.length - arity : Nat) height arity else slots)
      (stack.take arity ++ stack.drop (stack.length - height)) := by
  have hsplit : slots.HoldsStack (stack.take arity ++ stack.drop arity) := by
    rw [take_append_drop]
    exact h
  have hlow : slots.HoldsStack (stack.drop (stack.length - height)) := by
    have : slots.HoldsStack (stack.take (stack.length - height) ++ stack.drop (stack.length - height)) := by
      rw [take_append_drop]
      exact h
    exact (HoldsStack.append.mp this).1
  cases move with
  | false =>
    rcases hmove rfl with hzero | hbase
    · rw [hzero, take_zero, nil_append]
      exact hlow
    · rw [show stack.length - height = arity by omega]
      exact hsplit
  | true =>
    show Slots.HoldsStack (slots.move _ _ _) _
    rw [HoldsStack.append]
    have hlen : (stack.drop (stack.length - height)).length = height := by
      rw [length_drop]
      omega
    have htake : (stack.take arity).length = arity := by
      rw [length_take]
      omega
    refine ⟨hlow.congr ?_, ?_⟩
    · intro k _ hk
      rw [hlen] at hk
      exact move_of_lt hk
    · rw [hlen, htake, read_move (by omega)]
      have := (HoldsStack.append.mp hsplit).2
      rw [htake, length_drop] at this
      exact this

end Slots

/-! ### States -/

/-- What a call has saved: where to go on, the locals, and the operands below the arguments. -/
structure Saved where
  func : Nat
  cont : Nat
  locals : List Value
  operands : List Value

/-- Where a run is: a function, one of its blocks, and how many of its instructions have been run. -/
structure State (σ : Type) where
  func : Nat
  block : Nat
  index : Nat
  slots : Slots
  locals : List Value
  results : List Value
  frames : List Saved
  store : Wasm.Store σ

namespace State

/-- Goes on with a block of the same function. -/
def goto (g : State σ) (block : Nat) : Outcome σ (State σ) := .next { g with block := block, index := 0 }

/-- The end of a run that only unchecked code has. -/
def stuck (g : State σ) : Outcome σ (State σ) := .halt .stuck g.store

/-- Leaves a function with results, for its caller or for good. -/
def leave (g : State σ) (results : List Value) : Outcome σ (State σ) :=
  match g.frames with
  | [] => .done results g.store
  | fr :: _ => .next { g with func := fr.func, block := fr.cont, index := 0, results := results }

end State

/-! ### Steps -/

/-- Runs an instruction inside a block. -/
def stepBlockInstr (env : Env σ) (g : State σ) : BlockInstr → Advance σ (State σ)
  | .plain c =>
    let n := c.instr.inputs env.module
    let base := (c.height : Int) - n
    let args := g.slots.read base n
    ([⟨c.instr, args, g.locals⟩],
      match env.plain c.instr args g.locals g.store with
      | .ok (vs, locals, s) =>
        .next { g with
          index := g.index + 1, slots := g.slots.write base vs, locals := locals, store := s }
      | .error why => .halt why g.store)
  | .move src dst types =>
    ([], .next { g with index := g.index + 1, slots := g.slots.move src dst types.length })
  | .resume live results base =>
    ([], match g.frames with
      | [] => g.stuck
      | fr :: rest =>
        let slots := g.slots.write 0 (fr.operands.take live.length)
        .next { g with
          index := g.index + 1
          slots := slots.write base (g.results.take results.length)
          locals := fr.locals
          frames := rest })

/-- Enters a function of the module, with what its caller has saved on top of the frames. -/
def enter (env : Env σ) (g : State σ) (f : Nat) (args : List Value) : Outcome σ (State σ) :=
  match env.module.defined? f with
  | some fn => .next { g with func := f, block := 0, index := 0, locals := fn.firstLocals args }
  | none => g.stuck

/-- Runs the terminator of a block of a function with so many results. -/
def stepTerm (env : Env σ) (arity : Nat) (g : State σ) : Terminator → Advance σ (State σ)
  | .fallthrough target => ([], g.goto target)
  | .jump target _ => ([], g.goto target)
  | .branchIf cond taken other =>
    ([], g.goto (if (g.slots cond).bits = 0 then other else taken))
  | .branchTable index targets default =>
    ([], g.goto ((targets[(g.slots index).bits]?).getD default))
  | .ret base => ([], g.leave (g.slots.read base arity))
  | .unreachable kind => ([], .halt (.trap kind) g.store)
  | .call f cont base live params _ =>
    let args := g.slots.read base params.length
    let saved : Saved := ⟨g.func, cont, g.locals, g.slots.read 0 live.length⟩
    ([⟨.call f, args, g.locals⟩], enter env { g with frames := saved :: g.frames } f.toNat args)
  | .callIndirect type table cont base live params _ =>
    let args := g.slots.read base params.length
    let index := g.slots (base + params.length)
    let saved : Saved := ⟨g.func, cont, g.locals, g.slots.read 0 live.length⟩
    let g' := { g with frames := saved :: g.frames }
    ([⟨.callIndirect type table, args ++ [index], g.locals⟩],
      match env.target type table index.bits with
      | .error why => .halt why g.store
      | .ok f =>
        if env.module.isImport f then
          match env.host f args g.store with
          | .ok (vs, s) => { g' with store := s }.leave vs
          | .error why => .halt why g.store
        else enter env g' f args)

/-- The graph of a function of the module. -/
def graphOf? (env : Env σ) (graphs : List Graph) (f : Nat) : Option Graph :=
  if f < env.module.importCount then none else graphs[f - env.module.importCount]?

/-- Runs the instruction or the terminator that is next. -/
def step (env : Env σ) (graphs : List Graph) (g : State σ) : Advance σ (State σ) :=
  match graphOf? env graphs g.func with
  | none => ([], g.stuck)
  | some graph =>
    match graph.blocks[g.block]? with
    | none => ([], g.stuck)
    | some b =>
      match b.instrs[g.index]? with
      | some i => stepBlockInstr env g i
      | none => stepTerm env graph.type.results.length g b.term

/-- The state that runs a function from the entry of its graph, on slots that may hold anything. -/
def start? (env : Env σ) (slots : Slots) (f : Nat) (args : List Value) (s : Wasm.Store σ) :
    Option (State σ) :=
  (env.module.defined? f).map (fun fn =>
    { func := f
      block := 0
      index := 0
      slots := slots
      locals := fn.firstLocals args
      results := []
      frames := []
      store := s })

end ScoreWasm.Flow
