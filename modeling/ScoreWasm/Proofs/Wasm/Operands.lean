import ScoreWasm.Proofs.Wasm.Typing

/-!
# Operands that instructions find

In code that can be reached, an instruction that was checked finds the operands that it takes on top of the
stack, above the innermost open block, and every index that it uses leads somewhere.
-/

namespace ScoreWasm.Wasm

open Validate

variable {ctx : Context} {offset : Nat} {fs : List Frame} {i : Instr} {ins outs rest : List ValType}

/-- The operands that an instruction takes from code that can be reached, the last one from the top.  Its
indices lead somewhere: to a block type, an open block, a function, a type, a local or a global. -/
inductive Expects (ctx : Context) (fs : List Frame) : Instr → List ValType → Prop where
  | nop : Expects ctx fs .nop []
  | unreachable (kind : Option Trap) : Expects ctx fs (.unreachable kind) []
  | block {bt : BlockType} {t : FuncType} : ctx.module.blockType? bt = some t → Expects ctx fs (.block bt) t.params
  | loop {bt : BlockType} {t : FuncType} : ctx.module.blockType? bt = some t → Expects ctx fs (.loop bt) t.params
  | if_ {bt : BlockType} {t : FuncType} : ctx.module.blockType? bt = some t →
    Expects ctx fs (.if_ bt) (t.params ++ [.i32])
  | else_ {f : Frame} : fs.head? = some f → Expects ctx fs .else_ f.type.results
  | end_ {f : Frame} : fs.head? = some f → Expects ctx fs .end_ f.type.results
  | br {l : Int} {f : Frame} : elementAt? fs l = some f → Expects ctx fs (.br l) f.labelTypes
  | brIf {l : Int} {f : Frame} : elementAt? fs l = some f → Expects ctx fs (.brIf l) (f.labelTypes ++ [.i32])
  | brTable {ls : List Int} {d : Int} {ts : List ValType} :
    (∀ l ∈ ls ++ [d], ∃ f, elementAt? fs l = some f ∧ f.labelTypes = ts) →
    Expects ctx fs (.brTable ls d) (ts ++ [.i32])
  | ret : Expects ctx fs .ret ctx.results
  | call {f : Int} {t : FuncType} : 0 ≤ f → f < ctx.module.funcCount → ctx.module.funcType? f = some t →
    Expects ctx fs (.call f) t.params
  | callIndirect {type table : Int} {t : FuncType} : table < ctx.module.tableLimits.length →
    ctx.module.typeAt? type = some t → Expects ctx fs (.callIndirect type table) (t.params ++ [.i32])
  | drop (t : ValType) : Expects ctx fs .drop [t]
  | select {types : Option (List ValType)} {t : ValType} :
    selectType types = some none ∨ selectType types = some (some t) →
    Expects ctx fs (.select types) [t, t, .i32]
  | localGet {k : Int} {t : ValType} : elementAt? ctx.locals k = some t → Expects ctx fs (.localGet k) []
  | localSet {k : Int} {t : ValType} : elementAt? ctx.locals k = some t → Expects ctx fs (.localSet k) [t]
  | localTee {k : Int} {t : ValType} : elementAt? ctx.locals k = some t → Expects ctx fs (.localTee k) [t]
  | globalGet {k : Int} {g : GlobalType} : elementAt? ctx.module.globalTypes k = some g →
    Expects ctx fs (.globalGet k) []
  | globalSet {k : Int} {g : GlobalType} : elementAt? ctx.module.globalTypes k = some g →
    Expects ctx fs (.globalSet k) [g.type]
  | load (op : LoadOp) (arg : MemArg) : ctx.module.memoryLimits.isEmpty = false → Expects ctx fs (.load op arg) [.i32]
  | store (op : StoreOp) (arg : MemArg) : ctx.module.memoryLimits.isEmpty = false →
    Expects ctx fs (.store op arg) [.i32, op.type]
  | memorySize : ctx.module.memoryLimits.isEmpty = false → Expects ctx fs .memorySize []
  | memoryGrow : ctx.module.memoryLimits.isEmpty = false → Expects ctx fs .memoryGrow [.i32]
  | const (t : ValType) (v : Int) : Expects ctx fs (.const t v) []
  | num (op : NumOp) : Expects ctx fs (.num op) op.type.params

/-- The operands of an instruction lie on top of others that stay, and at the end of an arm nothing but
its results is left in the block. -/
def Found (ctx : Context) (fs : List Frame) (i : Instr) (ts : List ValType) : Prop :=
  ∃ ins rest, Expects ctx fs i ins ∧ ts = ins.reverse ++ rest ∧ Fits fs rest ∧
    (i = .else_ ∨ i = .end_ → ∀ f ∈ fs.head?, rest.length = f.height)

theorem Expects.of_offset (h : Expects { ctx with offset := offset } fs i ins) : Expects ctx fs i ins := by
  cases h <;> constructor <;> assumption

theorem Found.of_offset {ts : List ValType} (h : Found { ctx with offset := offset } fs i ts) : Found ctx fs i ts := by
  obtain ⟨ins, rest, hexp, hts, hfits, hall⟩ := h
  exact ⟨ins, rest, hexp.of_offset, hts, hfits, hall⟩

section Found

variable {s s' : Stacks} {note : Note} {ts : List ValType}

theorem expects_of_plain (h : PlainType ctx i ins outs) (hi : ∀ types, i ≠ .select types) :
    Expects ctx fs i ins := by
  cases h with
  | drop t => exact .drop t
  | select types t => exact absurd rfl (hi types)
  | localGet ht => exact .localGet ht
  | localSet ht => exact .localSet ht
  | localTee ht => exact .localTee ht
  | globalGet hg => exact .globalGet hg
  | globalSet hg => exact .globalSet hg
  | load op arg hm => exact .load op arg hm
  | store op arg hm => exact .store op arg hm
  | memorySize hm => exact .memorySize hm
  | memoryGrow hm => exact .memoryGrow hm
  | const t v => exact .const t v
  | num op => exact .num op

theorem found_plain (hi : isFlat i = true) (h : Expects ctx fs i ins)
    (hfits : Fits fs rest) : Found ctx fs i (ins.reverse ++ rest) := by
  refine ⟨ins, rest, h, rfl, hfits, ?_⟩
  rintro (rfl | rfl) <;> cases hi

theorem found_brTable {ls : List Int} {d : Int} (hs : s.WF) (hk : s.Knows ts)
    (h : step ctx (.brTable ls d) s = .ok (note, s')) : Found ctx s.frames (.brTable ls d) ts := by
  have htyping := (step_flat hs rfl h).2 ts hk
  unfold step at h
  simp only [StateT.bind_eq_ok, StateT.discard_eq_ok, StateT.pure_eq_ok] at h
  obtain ⟨_, s1, ⟨r, h1⟩, us, s2, h2, _, s3, h3, -⟩ := h
  have k1 := pop_keeps hs h1
  obtain ⟨f, hf, rfl, rfl⟩ := labelTypes_eq_ok.mp h2
  have harity := (checkTable_ok (k1.wf hs) h3).2.2
  rw [k1.frames] at hf harity
  cases htyping with
  | plain hp => cases hp
  | @brTable _ _ ts _ _ hreach =>
    obtain ⟨g, rest, hg, rfl, hfits⟩ := hreach d (by simp)
    rw [hf] at hg
    cases hg
    refine ⟨f.labelTypes ++ [.i32], rest, .brTable ?_, by simp, hfits, by simp⟩
    intro l hl
    rcases List.mem_append.mp hl with hl | hl
    · -- Two lists of one length on top of the same operands are equal.
      obtain ⟨g, rest', hg, htypes, -⟩ := hreach l (by simp [hl])
      obtain ⟨g', hg', hlen, -⟩ := harity l hl
      rw [hg] at hg'
      cases hg'
      refine ⟨g, hg, ?_⟩
      have := (List.append_inj htypes (by simpa using hlen.symm)).1
      exact (List.reverse_inj.mp this).symm
    · cases List.mem_singleton.mp hl
      exact ⟨f, hf, rfl⟩

section

variable (hs : s.WF) (hk : s.Knows ts) (h : step ctx i s = .ok (note, s'))
include hs hk h

/-- **An instruction that was checked finds its operands.** -/
theorem step_found : Found ctx s.frames i ts := by
  have flat : isFlat i = true → Typing ctx s.frames i ts note s' := fun hi => (step_flat hs hi h).2 ts hk
  have opens : ∀ kind, opened? i = some kind → ∃ t rest,
      (∀ bt, i = .block bt ∨ i = .loop bt ∨ i = .if_ bt → ctx.module.blockType? bt = some t) ∧
      ts = (if kind = .if_ then [.i32] else []) ++ (t.params.reverse ++ rest) ∧ Fits s.frames rest := by
    intro kind hkind
    obtain ⟨t, base, -, ho, hbt, hfound⟩ := step_opens hs hkind h
    obtain ⟨rest, rfl, hts⟩ := hfound ts hk
    refine ⟨t, rest, hbt, hts, ?_⟩
    intro f hf
    have := ho.keeps.height f hf
    simpa using this
  cases i with
  | block bt =>
    obtain ⟨t, rest, hbt, rfl, hfits⟩ := opens _ rfl
    exact ⟨t.params, rest, .block (hbt bt (by simp)), rfl, hfits, by simp⟩
  | loop bt =>
    obtain ⟨t, rest, hbt, rfl, hfits⟩ := opens _ rfl
    exact ⟨t.params, rest, .loop (hbt bt (by simp)), rfl, hfits, by simp⟩
  | if_ bt =>
    obtain ⟨t, rest, hbt, rfl, hfits⟩ := opens _ rfl
    exact ⟨t.params ++ [.i32], rest, .if_ (hbt bt (by simp)), by simp, hfits, by simp⟩
  | else_ =>
    obtain ⟨f, fs, hf, -, -, hfound⟩ := step_else hs h
    obtain ⟨rest, rfl, hlen⟩ := hfound ts hk
    rw [hf]
    refine ⟨_, rest, .else_ rfl, rfl, ?_, ?_⟩
    · rintro g ⟨⟩
      exact Nat.le_of_eq hlen.symm
    · rintro - g ⟨⟩
      exact hlen
  | end_ =>
    obtain ⟨f, fs, hf, -, -, hfound⟩ := step_end hs h
    obtain ⟨rest, rfl, hlen⟩ := hfound ts hk
    rw [hf]
    refine ⟨_, rest, .end_ rfl, rfl, ?_, ?_⟩
    · rintro g ⟨⟩
      exact Nat.le_of_eq hlen.symm
    · rintro - g ⟨⟩
      exact hlen
  | brTable ls d => exact found_brTable hs hk h
  | select types =>
    obtain ⟨t, rest, rfl, hfits, -, htypes, -⟩ := (checkSelect_knows hs h).2 ts hk
    have hexp : Expects ctx s.frames (.select types) [t, t, .i32] := .select htypes
    exact found_plain rfl hexp hfits
  | nop =>
    refine ⟨[], ts, .nop, rfl, (Keeps.refl hs).fits hk, by simp⟩
  | unreachable kind =>
    refine ⟨[], ts, .unreachable kind, rfl, (Keeps.refl hs).fits hk, by simp⟩
  | br l =>
    cases flat rfl with
    | plain hp => cases hp
    | br hreach =>
      obtain ⟨f, rest, hf, rfl, hfits⟩ := hreach
      exact found_plain rfl (.br hf) hfits
  | brIf l =>
    cases flat rfl with
    | plain hp => cases hp
    | brIf hreach =>
      obtain ⟨f, rest, hf, rfl, hfits⟩ := hreach
      refine ⟨f.labelTypes ++ [.i32], rest, .brIf hf, by simp, hfits, by simp⟩
  | ret =>
    cases flat rfl with
    | plain hp => cases hp
    | ret hfits => exact found_plain rfl .ret hfits
  | call f =>
    cases flat rfl with
    | plain hp => cases hp
    | call h0 hlt ht hfits => exact found_plain rfl (.call h0 hlt ht) hfits
  | callIndirect type table =>
    cases flat rfl with
    | plain hp => cases hp
    | @callIndirect _ _ t rest _ _ htable ht hfits =>
      refine ⟨t.params ++ [.i32], rest, .callIndirect htable ht, by simp, hfits, by simp⟩
  | drop | localGet _ | localSet _ | localTee _ | globalGet _ | globalSet _ | load _ _ | store _ _ |
    memorySize | memoryGrow | const _ _ | num _ =>
    cases flat rfl with
    | plain hp hfits => exact found_plain rfl (expects_of_plain hp nofun) hfits

/-- **What is noted about a call or an operand of any type is what is found there.** -/
theorem step_noted : (∀ f, i = .call f → note.stack = some (ts.map some).reverse) ∧
    (∀ type table, i = .callIndirect type table → note.stack = some (ts.map some).reverse) ∧
    (∀ t rest, i = .drop → ts = t :: rest → t.name ≠ "" → note.valueType = some t) ∧
    (∀ types c t rest, i = .select types → ts = c :: t :: rest → t.name ≠ "" → note.valueType = some t) := by
  refine ⟨?_, ?_, ?_, ?_⟩
  · rintro f rfl
    cases (step_flat hs rfl h).2 ts hk with
    | plain hp => cases hp
    | call _ _ _ _ hnote => exact hnote
  · rintro type table rfl
    cases (step_flat hs rfl h).2 ts hk with
    | plain hp => cases hp
    | callIndirect _ _ _ hnote => exact hnote
  · rintro t rest rfl rfl hn
    unfold step at h
    simp only [StateT.bind_eq_ok, StateT.pure_eq_ok] at h
    obtain ⟨r, s1, h1, rfl, -⟩ := h
    obtain ⟨t', rest', hts, rfl, he, -⟩ := pop_knows hk h1
    cases hts
    rw [(namedType_known he hn).2]
  · rintro types c t rest rfl rfl hn
    obtain ⟨t', rest', hts, -, -, -, hnote⟩ := (checkSelect_knows hs h).2 _ hk
    cases hts
    exact hnote hn

end

end Found

end ScoreWasm.Wasm
