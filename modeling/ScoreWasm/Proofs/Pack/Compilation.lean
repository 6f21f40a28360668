import ScoreWasm.Pack.Manifest
import ScoreWasm.Proofs.Monad

/-!
# Parts of a compiled module

What a module was compiled from: everything that was worked out on the way, with the steps that gave it.
The functions of a program are then found by name, where of two with one name the later counts.
-/

namespace ScoreWasm.Pack

open Wasm Emit

variable {α : Type} {m : Module} {o : Options} {registry : Host.Registry}

/-- All that goes into the functions of a module: the options, the module as it is compiled, the layout of
its memory, its tables, the functions of its blocks, its exports, and the function that prepares everything. -/
structure Draft where
  options : Options
  source : Validated
  layout : Option MemoryLayout
  tables : List (List Int)
  compiled : List Compiled
  exports : List ExportEntry
  init : Script

namespace Draft

variable (d : Draft)

/-- The scripts of the blocks. -/
def blocks : List (String × Script) := d.compiled.flatMap Compiled.scripts

/-- The scripts of the library. -/
def library : List (String × Script) := Library.routines d.options.ns d.options.budget d.tables.length

/-- The functions that call through tables. -/
def indirect : List (String × Script) :=
  (allCalls d.compiled).flatMap (indirectScripts d.options.ns d.source.module d.tables)

/-- The function that runs the start function. -/
def start : List (String × Script) :=
  match d.source.module.start with
  | some f => [("rt/start", startScript d.options.ns d.source.module f false)]
  | none => []

/-- The lines of scripts, under their full names. -/
def named (scripts : List (String × Script)) : List (String × List Line) :=
  scripts.map (fun (path, s) => (inNamespace d.options.ns path, s.lines))

/-- All functions in the order in which they are made. -/
def functions : List (String × List Line) :=
  d.named (d.blocks ++ d.library ++ d.indirect)
    ++ d.exports.map (fun e => (e.function, (startScript d.options.ns d.source.module e.index true).lines))
    ++ d.named (d.start ++ [("init", d.init)])

/-- The pack of the design. -/
def pack : Pack where
  ns := d.options.ns
  functions := byName d.functions
  exports := d.exports
  hasStart := d.source.module.start.isSome
  memory := d.layout
  options := d.options
  load := [inNamespace d.options.ns "init"]
  tick := if d.options.budget.isSome then [inNamespace d.options.ns "rt/tick"] else []
  compiled := d.compiled

end Draft

/-! ### The steps of compiling -/

/-- The words of the data segments. -/
def memoryWords (m : Module) : Option MemoryLayout → Except CompileError (List (Nat × Nat))
  | some l => dataImage m l.pages
  | none => .ok []

/-- Refuses a start function that is imported. -/
def checkStart (m : Module) : Except CompileError Unit :=
  match m.start with
  | some f =>
    if m.isImport f then .error (.unsupported "host-functions" "imported start function" none) else .ok ()
  | none => .ok ()

/-- Fails on a line that has no bytes. -/
def checkLines (functions : List (String × List Line)) : Except CompileError Unit :=
  match lineFault? functions with
  | some f => .error (.noBytes f)
  | none => .ok ()

theorem checkStart_bind (m : Module) (k : Except CompileError α) : (checkStart m >>= fun _ => k) = match m.start with
      | some f =>
        if m.isImport f then throw (.unsupported "host-functions" "imported start function" none) >>= fun _ : Unit => k
        else k
      | none => k := by
  unfold checkStart
  cases m.start with
  | none => rfl
  | some f =>
    dsimp only
    split <;> rfl

theorem checkLines_bind (functions : List (String × List Line)) (k : Except CompileError α) :
    (checkLines functions >>= fun _ => k) = match lineFault? functions with
      | some f => throw (.noBytes f) >>= fun _ : Unit => k
      | _ => k := by
  unfold checkLines
  cases lineFault? functions <;> rfl

theorem compile_steps (m : Module) (o : Options) (registry : Host.Registry) : compile m o registry = (do
      checkNamespace o.ns
      let u ← validate m
      let v ← SoftFloat.lower u
      let hosts ← Host.bindAll registry v.module
      let layout ← memoryLayout v.module
      let words ← memoryWords v.module layout
      let tables ← tableContents v.module
      let compiled ← compileFunctions ⟨o.ns, o.budget, o.maxDepth, o.comments⟩ v hosts
      let exports ← exportEntries o.ns v.module [] v.module.exports
      checkStart v.module
      let init ← initScript o.ns v.module
        ((compiled.flatMap Compiled.scripts ++ Library.routines o.ns o.budget tables.length).flatMap
          (fun r => r.2.constants)) layout words tables
      let d : Draft := ⟨o, v, layout, tables, compiled, exports, init⟩
      d.functions.forM (fun f => checkFunctionName f.1)
      checkLines (byName d.functions)
      return d.pack) := by
  refine bind_congr fun _ => bind_congr fun u => bind_congr fun v => bind_congr fun hosts => bind_congr fun layout => ?_
  simp only [checkStart_bind, checkLines_bind]
  cases layout with
  | none | some l => rfl

/-- **A compiled module has been put together step by step.** -/
theorem compile_eq_ok {pk : Pack} (h : compile m o registry = .ok pk) :
    ∃ (d : Draft) (u : Validated) (hosts : List Host) (words : List (Nat × Nat)),
      pk = d.pack ∧ d.options = o ∧ checkNamespace o.ns = .ok () ∧ validate m = .ok u ∧ SoftFloat.lower u = .ok d.source ∧
      Host.bindAll registry d.source.module = .ok hosts ∧ memoryLayout d.source.module = .ok d.layout ∧
      memoryWords d.source.module d.layout = .ok words ∧ tableContents d.source.module = .ok d.tables ∧
      compileFunctions ⟨o.ns, o.budget, o.maxDepth, o.comments⟩ d.source hosts = .ok d.compiled ∧
      exportEntries o.ns d.source.module [] d.source.module.exports = .ok d.exports ∧
      checkStart d.source.module = .ok () ∧
      initScript o.ns d.source.module ((d.blocks ++ d.library).flatMap (fun r => r.2.constants)) d.layout words d.tables
        = .ok d.init ∧
      (d.functions.forM (fun f => checkFunctionName f.1) : Except CompileError PUnit) = .ok () := by
  rw [compile_steps] at h
  simp only [Except.bind_eq_ok] at h
  obtain ⟨_, hns, u, hu, v, hv, hosts, hhosts, layout, hlayout, words, hwords, tables, htables,
    compiled, hcompiled, exports, hexports, _, hstart, init, hinit, _, hnames, _, -, hpack⟩ := h
  cases hpack
  exact ⟨⟨o, v, layout, tables, compiled, exports, init⟩, u, hosts, words, rfl, rfl, hns, hu, hv,
    hhosts, hlayout, hwords, htables, hcompiled, hexports, hstart, hinit, hnames⟩

/-- Steps that all succeed make up a compiled module. -/
theorem compile_of_steps {d : Draft} {u : Validated} {hosts : List Host} {words : List (Nat × Nat)}
    (ho : d.options = o) (hns : checkNamespace o.ns = .ok ()) (hu : validate m = .ok u)
    (hv : SoftFloat.lower u = .ok d.source) (hhosts : Host.bindAll registry d.source.module = .ok hosts)
    (hlayout : memoryLayout d.source.module = .ok d.layout)
    (hwords : memoryWords d.source.module d.layout = .ok words)
    (htables : tableContents d.source.module = .ok d.tables)
    (hcompiled : compileFunctions ⟨o.ns, o.budget, o.maxDepth, o.comments⟩ d.source hosts = .ok d.compiled)
    (hexports : exportEntries o.ns d.source.module [] d.source.module.exports = .ok d.exports)
    (hstart : checkStart d.source.module = .ok ())
    (hinit : initScript o.ns d.source.module ((d.blocks ++ d.library).flatMap (fun r => r.2.constants)) d.layout words d.tables = .ok d.init)
    (hnames : (d.functions.forM (fun f => checkFunctionName f.1) : Except CompileError PUnit) = .ok ())
    (hlines : checkLines (byName d.functions) = .ok ()) : compile m o registry = .ok d.pack := by
  subst ho
  rw [compile_steps]
  simp only [Except.bind_eq_ok]
  exact ⟨(), hns, u, hu, d.source, hv, hosts, hhosts, d.layout, hlayout, words, hwords, d.tables, htables, d.compiled,
    hcompiled, d.exports, hexports, (), hstart, d.init, hinit, (), hnames, (), hlines, rfl⟩

end ScoreWasm.Pack
