import ScoreWasm.Flow.Graph

/-!
# The call graph

A function leads to every function that it calls, and through a table to every function that some
element segment lists and whose type is the one called for.  Which entry of the table is called is
not looked at, so the graph holds every call that can happen.
-/

namespace ScoreWasm.Flow

open Wasm

/-- An edge of the call graph; `indirect` says that the last call found on it goes through a
table. -/
structure CallEdge where
  caller : Nat
  callee : Nat
  indirect : Bool
  deriving DecidableEq, Repr

def tableFunctions (m : Module) : List Nat :=
  let listed := m.elements.flatMap ElemSegment.funcs
  (List.range m.funcCount).filter (fun f => listed.contains (f : Int))

/-- Whether a function is called through a table while some element segment lists an index that
reaches before the first import. -/
def hasUntypedTarget (m : Module) : Bool :=
  let isIndirect (p : Placed) : Bool := p.instr.opcode == .callIndirect
  m.functions.any (fun f => f.body.any isIndirect)
    && (m.elements.flatMap ElemSegment.funcs).any (fun f => (m.funcType? f).isNone)

def hasStrayCallee (m : Module) : Bool :=
  let stray := (m.elements.flatMap ElemSegment.funcs).filter (· < 0)
  m.functions.any (fun f => f.body.any (fun p => match p.instr with
    | .call g => g < 0
    | .callIndirect t _ => stray.any (fun g => m.funcType? g == m.typeAt? t)
    | _ => false))

/-- The functions that an instruction may call, and whether it does so through a table.  An index before
the first function leads to none. -/
def instrCallees (m : Module) (listed : List Nat) : Instr → List (Nat × Bool)
  | .call f => if f < 0 then [] else [(f.toNat, false)]
  | .callIndirect t _ =>
    (listed.filter (fun (f : Nat) => m.funcType? f == m.typeAt? t)).map (fun f => (f, true))
  | _ => []

/-- The functions that a function may call, in increasing order, each with the way of the last call
to it. -/
def callees (m : Module) (listed : List Nat) (f : Nat) : List (Nat × Bool) :=
  if m.isImport f then []
  else
    let body := ((m.functions[f - m.importCount]?).map Function.body).getD []
    let calls := (body.flatMap (fun p => instrCallees m listed p.instr)).reverse
    (List.range m.funcCount).filterMap (fun g => (calls.lookup g).map (fun way => (g, way)))

def callEdges (m : Module) : List CallEdge :=
  let listed := tableFunctions m
  (List.range m.funcCount).flatMap (fun f =>
    (callees m listed f).map (fun (g, way) => ⟨f, g, way⟩))

/-- The functions that may call themselves, directly or through others, in increasing order. -/
def recursiveFunctions (m : Module) : List Nat :=
  let listed := tableFunctions m
  let table := (List.range m.funcCount).map (fun f => (callees m listed f).map Prod.fst) |>.toArray
  let next (f : Nat) : List Nat := table.getD f []
  (List.range m.funcCount).filter (fun f => (reach next m.funcCount (next f)).getD f false)

end ScoreWasm.Flow
