import ScoreWasm.Proofs.Wasm.Bodies

/-!
# Typing rules for code

The rules of WebAssembly, as relations that know nothing of how code is checked.  A piece of code takes
some operands and leaves others; what lies below them stays.  Code that never falls through may be given
any results, and that is all there is to unreachable code: behind such an instruction the operands are
whatever the rest of the code asks for.

Value types are the four numeric ones.  Indices count from the start, as those of a binary module do.
-/

namespace ScoreWasm.Wasm

open Validate

/-- The element at an index that counts from the start. -/
def nth? {α : Type} (l : List α) : Int → Option α
  | .ofNat n => l[n]?
  | .negSucc _ => none

/-- The types are numeric. -/
def Numeric (ts : List ValType) : Prop := ∀ t ∈ ts, t.isNumeric = true

instance (ts : List ValType) : Decidable (Numeric ts) := inferInstanceAs (Decidable (∀ t ∈ ts, _))

/-- The promise of an alignment, given by an exponent, is no more than a size. -/
def Aligned (align : Int) (size : Nat) : Prop := ∃ e : Nat, align = e ∧ 2 ^ e ≤ size

/-- The rules for the instructions that do not enclose others: the operands that one takes and those that
it leaves, the last one on top.  A label is given by the types that a branch to it takes along, the
innermost label first. -/
inductive FlatType (ctx : Context) (labels : List (List ValType)) : Instr → List ValType → List ValType → Prop where
  | unreachable {kind : Option Trap} {ins outs : List ValType} : Numeric outs →
    FlatType ctx labels (.unreachable kind) ins outs
  | nop : FlatType ctx labels .nop [] []
  | br {l : Int} {ts below outs : List ValType} : nth? labels l = some ts → Numeric outs →
    FlatType ctx labels (.br l) (below ++ ts) outs
  | brIf {l : Int} {ts : List ValType} : nth? labels l = some ts → FlatType ctx labels (.brIf l) (ts ++ [.i32]) ts
  | brTable {ls : List Int} {d : Int} {ts below outs : List ValType} :
    (∀ l ∈ ls ++ [d], nth? labels l = some ts) → Numeric outs →
    FlatType ctx labels (.brTable ls d) (below ++ ts ++ [.i32]) outs
  | ret {below outs : List ValType} : Numeric outs → FlatType ctx labels .ret (below ++ ctx.results) outs
  | call {f : Int} {t : FuncType} : 0 ≤ f → ctx.module.funcType? f = some t →
    FlatType ctx labels (.call f) t.params t.results
  | callIndirect {type table : Int} {l : Limits} {t : FuncType} :
    nth? ctx.module.tableLimits table = some l → nth? ctx.module.types type = some t →
    FlatType ctx labels (.callIndirect type table) (t.params ++ [.i32]) t.results
  | drop {t : ValType} : t.isNumeric = true → FlatType ctx labels .drop [t] []
  | select {t : ValType} : t.isNumeric = true → FlatType ctx labels (.select none) [t, t, .i32] [t]
  | selectTyped {t : ValType} : t.isNumeric = true → FlatType ctx labels (.select (some [t])) [t, t, .i32] [t]
  | localGet {x : Int} {t : ValType} : nth? ctx.locals x = some t → FlatType ctx labels (.localGet x) [] [t]
  | localSet {x : Int} {t : ValType} : nth? ctx.locals x = some t → FlatType ctx labels (.localSet x) [t] []
  | localTee {x : Int} {t : ValType} : nth? ctx.locals x = some t → FlatType ctx labels (.localTee x) [t] [t]
  | globalGet {x : Int} {g : GlobalType} : nth? ctx.module.globalTypes x = some g →
    FlatType ctx labels (.globalGet x) [] [g.type]
  | globalSet {x : Int} {g : GlobalType} : nth? ctx.module.globalTypes x = some g →
    g.isMutable = true → FlatType ctx labels (.globalSet x) [g.type] []
  | load {op : LoadOp} {arg : MemArg} : ctx.module.memoryLimits ≠ [] → Aligned arg.align op.size →
    FlatType ctx labels (.load op arg) [.i32] [op.type]
  | store {op : StoreOp} {arg : MemArg} : ctx.module.memoryLimits ≠ [] → Aligned arg.align op.size →
    FlatType ctx labels (.store op arg) [.i32, op.type] []
  | memorySize : ctx.module.memoryLimits ≠ [] → FlatType ctx labels .memorySize [] [.i32]
  | memoryGrow : ctx.module.memoryLimits ≠ [] → FlatType ctx labels .memoryGrow [.i32] [.i32]
  | const {t : ValType} {v : Int} : FlatType ctx labels (.const t v) [] [t]
  | num {op : NumOp} : FlatType ctx labels (.num op) op.type.params op.type.results

/-- The rules for sequences of instructions.  An instruction leaves alone what lies below its operands,
and a construct is typed by its type: its arms turn the parameters into the results, with one more label
to branch to.  At the label of a loop the parameters are expected, at any other one the results. -/
inductive CodeType (ctx : Context) : List (List ValType) → List Instr → List ValType → List ValType → Prop where
  | nil {labels : List (List ValType)} {ts : List ValType} : CodeType ctx labels [] ts ts
  | flat {labels : List (List ValType)} {i : Instr} {rest : List Instr}
    {ins outs below final : List ValType} : FlatType ctx labels i ins outs →
    CodeType ctx labels rest (below ++ outs) final →
    CodeType ctx labels (i :: rest) (below ++ ins) final
  | block {labels : List (List ValType)} {bt : BlockType} {t : FuncType} {body rest : List Instr}
    {below final : List ValType} : ctx.module.blockType? bt = some t →
    CodeType ctx (t.results :: labels) body t.params t.results →
    CodeType ctx labels rest (below ++ t.results) final →
    CodeType ctx labels (.block bt :: (body ++ .end_ :: rest)) (below ++ t.params) final
  | loop {labels : List (List ValType)} {bt : BlockType} {t : FuncType} {body rest : List Instr}
    {below final : List ValType} : ctx.module.blockType? bt = some t →
    CodeType ctx (t.params :: labels) body t.params t.results →
    CodeType ctx labels rest (below ++ t.results) final →
    CodeType ctx labels (.loop bt :: (body ++ .end_ :: rest)) (below ++ t.params) final
  | ifElse {labels : List (List ValType)} {bt : BlockType} {t : FuncType} {yes no rest : List Instr}
    {below final : List ValType} : ctx.module.blockType? bt = some t →
    CodeType ctx (t.results :: labels) yes t.params t.results →
    CodeType ctx (t.results :: labels) no t.params t.results →
    CodeType ctx labels rest (below ++ t.results) final →
    CodeType ctx labels (.if_ bt :: (yes ++ .else_ :: (no ++ .end_ :: rest))) (below ++ t.params ++ [.i32]) final
  | ifThen {labels : List (List ValType)} {bt : BlockType} {t : FuncType} {yes rest : List Instr}
    {below final : List ValType} : ctx.module.blockType? bt = some t → t.params = t.results →
    CodeType ctx (t.results :: labels) yes t.params t.results →
    CodeType ctx labels rest (below ++ t.results) final →
    CodeType ctx labels (.if_ bt :: (yes ++ .end_ :: rest)) (below ++ t.params ++ [.i32]) final

/-- The body of a function is code that leaves its results, and the end of the function. -/
def Function.WellTyped (m : Module) (fn : Function) : Prop :=
  ∃ t code, m.typeAt? fn.type = some t ∧ fn.body.map Placed.instr = code ++ [.end_] ∧
    CodeType (context m t fn) [t.results] code [] t.results

/-! ### What a binary module can say -/

/-- Whether a binary module can give a block type. -/
def BlockType.isStandard : BlockType → Bool
  | .empty => true
  | .value t => t.isNumeric
  | .index i => 0 ≤ i

/-- Whether a binary module can give the immediates of an instruction: indices count from the start, and
types are numeric. -/
def Instr.isStandard : Instr → Bool
  | .block bt | .loop bt | .if_ bt => bt.isStandard
  | .br i | .brIf i | .call i => 0 ≤ i
  | .localGet i | .localSet i | .localTee i | .globalGet i | .globalSet i => 0 ≤ i
  | .brTable ls d => (ls ++ [d]).all (0 ≤ ·)
  | .callIndirect type table => 0 ≤ type && 0 ≤ table
  | .select types => types.all (fun ts => ts.all ValType.isNumeric)
  | .load op arg => 0 ≤ arg.align && op.type.isNumeric
  | .store op arg => 0 ≤ arg.align && op.type.isNumeric
  | .const t _ => t.isNumeric
  | _ => true

/-- The types that code is typed against are numeric. -/
structure Validate.Context.Standard (ctx : Context) : Prop where
  types : ∀ t ∈ ctx.module.types, Numeric t.params ∧ Numeric t.results
  locals : Numeric ctx.locals
  globals : ∀ g ∈ ctx.module.globalTypes, g.type.isNumeric = true
  results : Numeric ctx.results

end ScoreWasm.Wasm
