import Mathlib
import ScoreWasm.Proofs.Binary.Sections

/-!
# Modules are read back

What can be written of a module is stated part by part.  The main statement is that writing such a module
succeeds and that reading the bytes gives the module back, up to the places of its instructions.
-/

namespace ScoreWasm.Wasm

open List

/-- An expression with a plain `select` in place of every one with an empty list of types. -/
def plainExpr (e : Expr) : Expr := e.map (fun p => { p with instr := p.instr.plain })

/-- The module with a plain `select` in place of every one with an empty list of types. -/
def Module.plain (m : Module) : Module :=
  { m with
    functions := m.functions.map (fun f => { f with body := plainExpr f.body })
    globals := m.globals.map (fun g => { g with init := plainExpr g.init })
    elements := m.elements.map (fun e => { e with mode := match e.mode with
      | .active t x => .active t (plainExpr x)
      | other => other })
    data := m.data.map (fun d => { d with mode := match d.mode with
      | .active t x => .active t (plainExpr x)
      | other => other }) }

namespace Binary

variable {m : Module} {α β : Type}

/-- The code entry of a function. -/
def entry (f : Function) : CodeEntry := (f.locals, f.body, f.offset)

/-- The contents of the sections of a module, without those of a single number. -/
def payloads (m : Module) : List Written :=
  [vectorM funcType m.types, vectorM import_ m.imports, vectorM index (m.functions.map Function.type),
   vectorM table m.tables, vectorM limits m.memories, vectorM globalBytes m.globals, vectorM export_ m.exports,
   vectorM element m.elements, vectorM code m.functions, vectorM data m.data]
    ++ m.customs.map (fun c => do return (← name c.name) ++ c.payload)

/-- Parts that can be written as a vector. -/
def AllFit {α : Type} (Fit : α → Prop) (l : List α) : Prop := l.length < 2 ^ 32 ∧ ∀ a ∈ l, Fit a

theorem AllFit.nil {Fit : α → Prop} : AllFit Fit [] := ⟨Nat.two_pow_pos 32, nofun⟩

theorem AllFit.map {Fit : α → Prop} {Fit' : β → Prop} {f : α → β} {l : List α} (h : AllFit Fit l)
    (hf : ∀ a, Fit a → Fit' (f a)) : AllFit Fit' (l.map f) :=
  ⟨by rw [length_map]; exact h.1, forall_mem_map.mpr fun a ha => hf a (h.2 a ha)⟩

/-- A function that can be written. -/
def FunctionFits (f : Function) : Prop := Fits32 f.type ∧ CodeFits (entry f)

/-- A global whose parts can be written, without regard to where its expression ends. -/
def GlobalPartsFit (g : Global) : Prop := GlobalTypeFits g.type ∧ ∀ p ∈ g.init, InstrFits p.instr

/-- A module that can be written: its parts can, its sections are not too large, the number of its data
segments is right, and its names are those in its custom sections. -/
structure Writable (m : Module) : Prop where
  types : AllFit FuncTypeFits m.types
  imports : AllFit ImportFits m.imports
  functions : AllFit FunctionFits m.functions
  tables : AllFit LimitsFit m.tables
  memories : AllFit LimitsFit m.memories
  globals : AllFit GlobalPartsFit m.globals
  exports : AllFit ExportFits m.exports
  start : ∀ i, m.start = some i → Fits32 i
  elements : AllFit ElemFits m.elements
  data : AllFit DataFits m.data
  dataCount : ∀ n, m.dataCount = some n → n = m.data.length
  customs : ∀ c ∈ m.customs, NameFits c.name
  sizes : ∀ w ∈ payloads m, ∀ bs, w = .ok bs → bs.length < 2 ^ 32
  names : m.names = namesOf m.customs

theorem vectorM_map (w : β → Written) (f : α → β) (l : List α) :
    vectorM w (l.map f) = vectorM (fun a => w (f a)) l := by
  unfold vectorM concat
  rw [length_map, mapM_map]
  rfl

theorem sectionOf_map (id : UInt8) (w : β → Written) (f : α → β) (l : List α) :
    sectionOf id w (l.map f) = sectionOf id (fun a => w (f a)) l := by
  unfold sectionOf
  rw [vectorM_map, isEmpty_map]

/-- What is read of a module that was written: every field comes back. -/
structure DraftBack (m : Module) (d : Draft) : Prop where
  types : d.module.types = m.types
  imports : d.module.imports = m.imports
  functions : d.module.functions = []
  indices : d.types = m.functions.map Function.type
  tables : d.module.tables = m.tables
  memories : d.module.memories = m.memories
  globals : List.Forall₂ GlobalBack m.globals d.module.globals
  exports : d.module.exports = m.exports
  start : d.module.start = m.start
  elements : List.Forall₂ ElemBack m.elements d.module.elements
  dataCount : d.module.dataCount = m.dataCount
  codes : List.Forall₂ CodeBack (m.functions.map entry) d.codes
  data : List.Forall₂ DataBack m.data d.module.data
  customs : d.module.customs = m.customs
  names : d.module.names = m.names

/-- The bytes a module starts with. -/
def magic : List UInt8 := [0x00, 0x61, 0x73, 0x6d, 0x01, 0x00, 0x00, 0x00]

theorem custom_fits (h : Writable m) {c : Custom} (hc : c ∈ m.customs) : CustomFits c := by
  refine ⟨h.customs c hc, fun bs hbs => ?_⟩
  refine h.sizes (do return (← name c.name) ++ c.payload) ?_ _ (by rw [hbs]; rfl)
  exact mem_append_right _ (mem_map.mpr ⟨c, hc, rfl⟩)

/-- Writing a module that can be written gives sections that are read back. -/
theorem reaches_module (h : Writable m) (hinit : ∀ g ∈ m.globals, Balanced g.init) :
    ∃ body, module m = .ok (magic ++ body) ∧ Reaches 0 ⟨.empty, [], []⟩ body 12 (DraftBack m) := by
  have size : ∀ w ∈ payloads m, ∀ bs, w = .ok bs → bs.length < 2 ^ 32 := h.sizes
  simp only [payloads, cons_append, nil_append, forall_mem_cons] at size
  obtain ⟨s1, s2, s3, s4, s5, s6, s7, s9, s10, s11, -⟩ := size
  have hindices : AllFit Fits32 (m.functions.map Function.type) := h.functions.map fun _ hf => hf.1
  have hentries : AllFit CodeFits (m.functions.map entry) := h.functions.map fun _ hf => hf.2
  have hcode : ∀ bs, vectorM codeBytes (m.functions.map entry) = .ok bs → bs.length < 2 ^ 32 := by
    rw [vectorM_map]
    exact s10
  obtain ⟨start, hstart, hbound⟩ : ∃ s : Option Nat, m.start = s.map Int.ofNat ∧ ∀ n, s = some n → n < 2 ^ 32 := by
    cases hs : m.start with
    | none => exact ⟨none, rfl, by simp⟩
    | some i =>
      obtain ⟨h0, hlt⟩ := h.start i hs
      obtain ⟨n, rfl⟩ := Int.eq_ofNat_of_zero_le h0
      exact ⟨some n, rfl, by rintro _ ⟨⟩; omega⟩
  have hglobals : AllFit GlobalFits m.globals :=
    ⟨h.globals.1, fun g hg => ⟨(h.globals.2 g hg).1, (h.globals.2 g hg).2, hinit g hg⟩⟩
  have hcount : ∀ n, m.dataCount = some n → n < 2 ^ 32 := fun n hn => h.dataCount n hn ▸ h.data.1
  -- The sections in the order in which they are written.
  obtain ⟨b1, h1, r1⟩ := reaches_items format_funcType 1 (by decide) rfl h.types s1
  obtain ⟨b2, h2, r2⟩ := reaches_items format_import 2 (by decide) rfl h.imports s2
  obtain ⟨b3, h3, r3⟩ := reaches_items format_index 3 (by decide) rfl hindices s3
  obtain ⟨b4, h4, r4⟩ := reaches_items format_table 4 (by decide) rfl h.tables s4
  obtain ⟨b5, h5, r5⟩ := reaches_items format_limits 5 (by decide) rfl h.memories s5
  obtain ⟨b6, h6, r6⟩ := reaches_items format_global 6 (by decide) rfl hglobals s6
  obtain ⟨b7, h7, r7⟩ := reaches_items format_export 7 (by decide) rfl h.exports s7
  have hindex : ∀ n, n < 2 ^ 32 → Takes readIndex (unsigned n) (· = Int.ofNat n) := fun n hn => by
    obtain ⟨bs, ⟨⟩, htake⟩ := format_index.back n ⟨by omega, by omega⟩
    exact htake
  obtain ⟨b8, h8, r8⟩ := reaches_index hindex 8 (by decide) rfl hbound
  obtain ⟨b9, h9, r9⟩ := reaches_items format_element 9 (by decide) rfl h.elements s9
  obtain ⟨b12, h12, r12⟩ := reaches_index (fun _ => Takes.u32) 12 (by decide) rfl hcount
  obtain ⟨b10, h10, r10⟩ := reaches_items format_code 10 (by decide) rfl hentries hcode
  obtain ⟨b11, h11, r11⟩ := reaches_items format_data 11 (by decide) rfl h.data s11
  obtain ⟨b0, h0, r0⟩ := reaches_customs 12 (fun c hc => custom_fits h hc)
  refine ⟨b1 ++ (b2 ++ (b3 ++ (b4 ++ (b5 ++ (b6 ++ (b7 ++ (b8 ++ (b9 ++ (b12 ++ (b10 ++ (b11 ++ b0))))))))))), ?_, ?_⟩
  · rw [sectionOf_map] at h3 h10
    rw [← hstart] at h8
    have h10 : sectionOf 10 code m.functions = .ok b10 := h10
    unfold globalBytes at h6
    unfold module
    simp only [mapM_cons, mapM_nil, id, h1, h2, h3, h4, h5, h6, h7, h8, h9, h10, h11, h12]
    refine Except.bind_eq_ok.mpr ⟨_, rfl, Except.bind_eq_ok.mpr ⟨_, h0, ?_⟩⟩
    simp [magic, pure, Except.pure]
  · refine Reaches.trans (r1 rfl rfl) ?_
    rintro _ ⟨types, htypes, rfl⟩
    refine Reaches.trans (r2 rfl rfl) ?_
    rintro _ ⟨imports, himports, rfl⟩
    refine Reaches.trans (r3 rfl rfl) ?_
    rintro _ ⟨indices, hindices, rfl⟩
    refine Reaches.trans (r4 rfl rfl) ?_
    rintro _ ⟨tables, htables, rfl⟩
    refine Reaches.trans (r5 rfl rfl) ?_
    rintro _ ⟨memories, hmemories, rfl⟩
    refine Reaches.trans (r6 rfl rfl) ?_
    rintro _ ⟨globals, hglobals, rfl⟩
    refine Reaches.trans (r7 rfl rfl) ?_
    rintro _ ⟨exports, hexports, rfl⟩
    refine Reaches.trans (r8 (fun i d => { d with module := { d.module with start := i } }) rfl rfl) ?_
    rintro _ rfl
    refine Reaches.trans (r9 rfl rfl) ?_
    rintro _ ⟨elements, helements, rfl⟩
    refine Reaches.trans (r12 (fun n d => { d with module := { d.module with dataCount := n } }) rfl rfl) ?_
    rintro _ rfl
    refine Reaches.trans (r10 rfl rfl) ?_
    rintro _ ⟨codes, hcodes, rfl⟩
    refine Reaches.trans (r11 rfl rfl) ?_
    rintro _ ⟨data, hdata, rfl⟩
    refine r0 ?_
    rw [foldl_addCustom]
    exact ⟨forall₂_same htypes, forall₂_same himports, rfl, forall₂_same hindices, forall₂_same htables,
      forall₂_same hmemories, hglobals, forall₂_same hexports, hstart.symm, helements, Option.map_id', hcodes, hdata, rfl,
      h.names.symm⟩

/-! ### Without places -/

theorem map_eq_of_forall₂ {γ : Type} {R : α → β → Prop} {f : β → γ} {g : α → γ} {l : List α} {l' : List β}
    (h : List.Forall₂ R l l') (hfg : ∀ a b, R a b → f b = g a) : l'.map f = l.map g := by
  induction h with
  | nil => rfl
  | cons h _ ih => rw [map_cons, map_cons, hfg _ _ h, ih]

theorem forgetExpr_back {e e' : Expr} (h : ExprBack e e') : Module.forgetExpr e' = Module.forgetExpr (plainExpr e) := by
  unfold Module.forgetExpr plainExpr
  rw [map_map]
  exact map_eq_of_forall₂ h (fun p p' hp => by rw [show p'.instr = _ from hp]; rfl)

/-- The functions of a draft that came back are those of the module. -/
theorem functions_back {fs : List Function} {codes : List CodeEntry} (h : List.Forall₂ CodeBack (fs.map entry) codes) :
    (List.zipWith (fun t (c : CodeEntry) => (⟨t, c.1, c.2.1, c.2.2⟩ : Function)) (fs.map Function.type) codes).map
      (fun f => { f with body := Module.forgetExpr f.body, offset := 0 })
    = fs.map (fun f => { f with body := Module.forgetExpr (plainExpr f.body), offset := 0 }) := by
  induction fs generalizing codes with
  | nil => rfl
  | cons f fs ih =>
    cases h with
    | cons hc hrest =>
      simp only [map_cons, zipWith_cons_cons, ih hrest, forgetExpr_back hc.2, hc.1]
      rfl

theorem assemble_back (hm : Writable m) {d : Draft} (h : DraftBack m d) :
    ∃ m', assemble d = .ok m' ∧ m'.forgetPlaces = m.plain.forgetPlaces := by
  have hcodes : d.types.length = d.codes.length := by
    rw [h.indices, ← h.codes.length_eq, length_map, length_map]
  have hcount : d.module.dataCount.any (· != d.module.data.length) = false := by
    rw [h.dataCount, ← h.data.length_eq]
    cases hn : m.dataCount with
    | none => rfl
    | some n =>
      rw [hm.dataCount n hn]
      simp
  refine ⟨_, by unfold assemble; rw [if_neg (by simp [hcodes]), if_neg (by simp [hcount])], ?_⟩
  have hfunctions := functions_back h.codes
  rw [← h.indices] at hfunctions
  unfold Module.forgetPlaces Module.plain
  simp only [map_map, h.types, h.imports, h.tables, h.memories, h.exports, h.start, h.dataCount,
    h.customs, h.names, Module.mk.injEq, true_and, and_true]
  refine ⟨hfunctions, ?_, ?_, ?_⟩
  · exact map_eq_of_forall₂ h.globals (fun g g' hg => by rw [hg.1, forgetExpr_back hg.2]; rfl)
  · refine map_eq_of_forall₂ h.elements ?_
    rintro ⟨mode, funcs⟩ ⟨mode', funcs'⟩ ⟨hmode, rfl⟩
    cases mode <;> cases mode'
    case active.active t x t' x' =>
      obtain ⟨rfl, hx⟩ := hmode
      dsimp only [Function.comp]
      rw [forgetExpr_back hx]
    all_goals first | rfl | exact hmode.elim
  · refine map_eq_of_forall₂ h.data ?_
    rintro ⟨mode, bytes⟩ ⟨mode', bytes'⟩ ⟨hmode, rfl⟩
    cases mode <;> cases mode'
    case active.active t x t' x' =>
      obtain ⟨rfl, hx⟩ := hmode
      dsimp only [Function.comp]
      rw [forgetExpr_back hx]
    all_goals first | rfl | exact hmode.elim

/-- A module that can be written is written and read back, with plain `select`s. -/
theorem decode_module (h : Writable m) (hinit : ∀ g ∈ m.globals, Balanced g.init) : ∃ bs,
    module m = .ok bs ∧ ∃ m', decode bs = .ok m' ∧ m'.forgetPlaces = m.plain.forgetPlaces := by
  obtain ⟨body, hbody, hreach⟩ := reaches_module h hinit
  refine ⟨_, hbody, ?_⟩
  obtain ⟨fuel, n, d, part, pos, -, hfuel, hback, heq⟩ :=
    hreach (body.length + 1) 0 "header" 8 [] (Nat.le_refl 0) (by simp)
  obtain ⟨m', hm', hforget⟩ := assemble_back h hback
  refine ⟨m', ?_, hforget⟩
  rw [append_nil] at heq
  have hend : readSections fuel n d ⟨part, pos, []⟩ = .ok d := by
    cases fuel <;> rfl
  simp [decode, magic, heq, hend, hm']

/-! ### Modules that can be encoded -/

/-- A module that can be written and has no `select` with an empty list of types. -/
structure Encodable (m : Module) : Prop extends Writable m where
  selects : m.plain = m

/-- **A module that can be encoded is read back from its bytes.** -/
theorem encoded_reads_back {m : Module} (h : Encodable m) (hinit : ∀ g ∈ m.globals, Balanced g.init) :
    ∃ bs, module m = .ok bs ∧ ∃ m', decode bs = .ok m' ∧ m'.forgetPlaces = m.forgetPlaces := by
  have := decode_module h.toWritable hinit
  rwa [h.selects] at this

/-- A module with one of most things: a function with locals and a loop, a memory, a global, an export and a
segment. -/
def sample : Module :=
  { Module.empty with
    types := [⟨[.i32], [.i32]⟩]
    functions := [⟨0, [.i64, .i64],
      [⟨.loop .empty, 0⟩, ⟨.localGet 0, 0⟩, ⟨.brIf 0, 0⟩, ⟨.end_, 0⟩, ⟨.const .i32 (-7), 0⟩, ⟨.end_, 0⟩], 0⟩]
    memories := [⟨1, some 2⟩]
    globals := [⟨⟨.i64, true⟩, [⟨.const .i64 (-1), 0⟩]⟩]
    exports := [⟨"run", .known .func, 0⟩]
    data := [⟨.active 0 [⟨.const .i32 8, 0⟩], [1, 2, 3]⟩] }

theorem nameFits_run : NameFits "run" := by
  refine ⟨[114, 117, 110], ?_, by decide, by decide⟩
  simp [Text.IsScalar, Text.isHalf]

/-- How many bytes were written. -/
def size : Written → Nat
  | .ok bs => bs.length
  | .error _ => 0

theorem sizes_of_map (h : ∀ n ∈ (payloads m).map size, n < 2 ^ 32) :
    ∀ w ∈ payloads m, ∀ bs, w = .ok bs → bs.length < 2 ^ 32 := by
  rintro w hw bs rfl
  exact h bs.length (mem_map.mpr ⟨_, hw, rfl⟩)

theorem length_lt_of_ok {w : Written} {n : Nat} (h : ∃ bs, w = .ok bs ∧ bs.length < n) :
    ∀ bs, w = .ok bs → bs.length < n := by
  obtain ⟨bs, rfl, hlen⟩ := h
  rintro _ ⟨⟩
  exact hlen

theorem encodable_sample : Encodable sample where
  types := by simp [AllFit, sample, FuncTypeFits, TypesFit, ValType.isNumeric, ValType.all]
  imports := .nil
  functions := by
    refine ⟨by decide, ?_⟩
    simp only [sample, mem_singleton, forall_eq]
    refine ⟨⟨by decide, by decide⟩, ⟨by decide, by decide⟩,
      ⟨[⟨.loop .empty, 0⟩, ⟨.localGet 0, 0⟩, ⟨.brIf 0, 0⟩, ⟨.end_, 0⟩, ⟨.const .i32 (-7), 0⟩],
        ⟨.end_, 0⟩, rfl, rfl, ?_, by unfold Balanced; decide⟩, ?_⟩
    · simp [InstrFits, Fits32, InWidth, BlockTypeFits]
    · exact length_lt_of_ok ⟨[1, 2, 126, 3, 64, 32, 0, 13, 0, 11, 65, 121, 11], by cbv, by decide⟩
  tables := .nil
  memories := by simp [AllFit, sample, LimitsFit, Fits32]
  globals := by simp [AllFit, sample, GlobalPartsFit, GlobalTypeFits, InstrFits, InWidth, ValType.isNumeric, ValType.all]
  exports := by simp [AllFit, sample, ExportFits, nameFits_run, Fits32]
  start := by simp [sample, Module.empty]
  elements := .nil
  data := by
    simp [AllFit, sample, DataFits, DataModeFits, ExprFits, Balanced, InstrFits, InWidth, Fits32,
      depthAfter, depthStep, Instr.opensBlock]
  dataCount := by simp [sample, Module.empty]
  customs := by simp [sample, Module.empty]
  sizes := by
    apply sizes_of_map
    rw [show (payloads sample).map size = [6, 1, 2, 1, 4, 6, 7, 1, 15, 9] by cbv]
    decide
  names := rfl
  selects := by decide

theorem encoded_reads_back_sample : ∃ bs, module sample = .ok bs ∧
    ∃ m', decode bs = .ok m' ∧ m'.forgetPlaces = sample.forgetPlaces :=
  encoded_reads_back encodable_sample (by simp [sample, Balanced, depthAfter, depthStep, Instr.opensBlock])

/-- A module whose global starts with an `end`. -/
def endInGlobal : Module := { Module.empty with globals := [⟨⟨.i32, false⟩, [⟨.end_, 0⟩]⟩] }

theorem encodable_endInGlobal : Encodable endInGlobal where
  types := .nil
  imports := .nil
  functions := .nil
  tables := .nil
  memories := .nil
  globals := by simp [AllFit, endInGlobal, GlobalPartsFit, GlobalTypeFits, InstrFits, ValType.isNumeric, ValType.all]
  exports := .nil
  start := by simp [endInGlobal, Module.empty]
  elements := .nil
  data := .nil
  dataCount := by simp [endInGlobal, Module.empty]
  customs := by simp [endInGlobal, Module.empty]
  sizes := by
    apply sizes_of_map
    rw [show (payloads endInGlobal).map size = [1, 1, 1, 1, 1, 5, 1, 1, 1, 1] by cbv]
    decide
  names := rfl
  selects := by decide

/-- **An `end` in the first value of a global is not read back.** -/
theorem endInGlobal_not_read_back : Encodable endInGlobal ∧
    ∃ bs, module endInGlobal = .ok bs ∧ decode bs = .error (.invalid .sectionSize (some "global") (some 14)) := by
  exact ⟨encodable_endInGlobal, [0, 97, 115, 109, 1, 0, 0, 0, 6, 5, 1, 127, 0, 11, 11], by cbv, by cbv⟩

end Binary

end ScoreWasm.Wasm
