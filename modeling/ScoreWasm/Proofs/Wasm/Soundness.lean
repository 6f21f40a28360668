import ScoreWasm.Proofs.Wasm.Typing

/-!
# Types at run time

An instruction without control flow, on operands of the types that its rule asks for, gives results of
the types that its rule promises or ends the run with a reason of its own; it never meets operands that
it has no meaning for.
-/

namespace ScoreWasm.Wasm

open List

variable {σ : Type} {f : Nat} {type : Int}

variable {i : Instr} {s : Store σ} {env : Env σ} {table : Int} {index : Nat}

/-! ### Elements by index -/

theorem elementAt?_map {α β : Type} (f : α → β) (l : List α) (i : Int) :
    elementAt? (l.map f) i = (elementAt? l i).map f := by
  unfold elementAt?
  rw [length_map]
  cases position? l.length i with
  | none => rfl
  | some n => simp

/-- Replacing an element by one that looks the same changes nothing of how the list looks. -/
theorem map_replaceAt {α β : Type} {f : α → β} {l : List α} {i : Int} {a : α}
    (h : elementAt? (l.map f) i = some (f a)) : (replaceAt l i a).map f = l.map f := by
  unfold replaceAt
  unfold elementAt? at h
  rw [length_map] at h
  cases hp : position? l.length i with
  | none => rfl
  | some n =>
    rw [hp, Option.bind_some] at h
    rw [List.map_set]
    obtain ⟨hlt, hget⟩ := List.getElem?_eq_some_iff.mp h
    rw [← hget]
    exact List.set_getElem_self hlt

theorem position?_neg_one {size : Nat} (h : 0 < size) : position? size (-1) = some (size - 1) := by
  unfold position?
  rw [if_neg (by omega), if_pos (by omega)]
  congr 1
  omega

/-- The outermost block is a target, by the index of a return. -/
theorem Validate.Reaches.outermost {fs : List Validate.Frame} {f : Validate.Frame}
    {below : List ValType} (hf : fs[fs.length - 1]? = some f) (hfits : Validate.Fits fs below) :
    Validate.Reaches fs (f.labelTypes.reverse ++ below) (-1) := by
  refine ⟨f, below, ?_, rfl, hfits⟩
  have hlt := (List.getElem?_eq_some_iff.mp hf).1
  unfold elementAt?
  rw [position?_neg_one (by omega)]
  exact hf

/-! ### Rules and counts -/

theorem Validate.PlainType.length_inputs {ctx : Validate.Context} {ins outs : List ValType}
    (h : Validate.PlainType ctx i ins outs) (m : Module) : ins.length = i.inputs m := by
  cases h <;> rfl

section Operands

variable {stack : List Value} {ins below : List ValType} (h : stack.map Value.type = ins.reverse ++ below)

include h

theorem height_of_types : stack.length - ins.length = below.length := by
  have := congrArg List.length h
  simp at this
  omega

theorem types_taken : (stack.take ins.length).map Value.type = ins.reverse := by
  rw [map_take, h, ← length_reverse, take_left]

theorem types_left : (stack.drop ins.length).map Value.type = below := by
  rw [map_drop, h, ← length_reverse, drop_left]

end Operands

/-- What a store holds has the types that the module declares. -/
def Store.Typed (s : Store σ) (m : Module) : Prop :=
  s.globals.map Value.type = m.globalTypes.map GlobalType.type

/-- What an instruction leaves behind has the right types, or it ends the run for a reason. -/
def WellTyped (m : Module) (locals outs : List ValType) : Except Halt (List Value × List Value × Store σ) → Prop
  | .ok (vs, locals', s) => vs.map Value.type = outs ∧ locals'.map Value.type = locals ∧ s.Typed m
  | .error e => e ≠ .stuck

open Validate in
/-- **An instruction that was checked keeps the types of everything it touches.** -/
theorem Env.plain_wellTyped (env : Env σ) {ctx : Context} {ins outs : List ValType} (h : PlainType ctx i ins outs)
    (hm : ctx.module = env.module) {args locals : List Value} (hargs : args.map Value.type = ins)
    (hlocals : locals.map Value.type = ctx.locals) (hs : s.Typed env.module) :
    WellTyped env.module ctx.locals outs (env.plain i args locals s) := by
  cases h with
  | drop t =>
    obtain ⟨v, rfl, -⟩ := map_eq_singleton_iff.mp hargs
    exact ⟨rfl, hlocals, hs⟩
  | select types t =>
    obtain ⟨a, as, rfl, ha, has⟩ := map_eq_cons_iff.mp hargs
    obtain ⟨b, bs, rfl, hb, hbs⟩ := map_eq_cons_iff.mp has
    obtain ⟨c, rfl, -⟩ := map_eq_singleton_iff.mp hbs
    refine ⟨?_, hlocals, hs⟩
    show [(if c.bits = 0 then b else a).type] = [t]
    split
    · rw [hb]
    · rw [ha]
  | @localGet k t ht =>
    cases map_eq_nil_iff.mp hargs
    rw [← hlocals, elementAt?_map] at ht
    obtain ⟨v, hv, rfl⟩ := Option.map_eq_some_iff.mp ht
    unfold Env.plain
    simp only [hv]
    exact ⟨rfl, hlocals, hs⟩
  | @localSet k t ht =>
    obtain ⟨v, rfl, hv⟩ := map_eq_singleton_iff.mp hargs
    refine ⟨rfl, ?_, hs⟩
    rw [map_replaceAt, hlocals]
    rw [hlocals, hv]
    exact ht
  | @localTee k t ht =>
    obtain ⟨v, rfl, hv⟩ := map_eq_singleton_iff.mp hargs
    refine ⟨by rw [← hv]; rfl, ?_, hs⟩
    rw [map_replaceAt, hlocals]
    rw [hlocals, hv]
    exact ht
  | @globalGet k g hg =>
    cases map_eq_nil_iff.mp hargs
    have hk : elementAt? (s.globals.map Value.type) k = some g.type := by
      rw [hs, elementAt?_map, ← hm, hg]
      rfl
    rw [elementAt?_map] at hk
    obtain ⟨v, hv, hvt⟩ := Option.map_eq_some_iff.mp hk
    unfold Env.plain
    simp only [hv]
    exact ⟨by rw [← hvt]; rfl, hlocals, hs⟩
  | @globalSet k g hg =>
    obtain ⟨v, rfl, hv⟩ := map_eq_singleton_iff.mp hargs
    refine ⟨rfl, hlocals, ?_⟩
    show (replaceAt s.globals k v).map Value.type = _
    rw [map_replaceAt, hs]
    rw [hs, elementAt?_map, ← hm, hg, hv]
    rfl
  | load op arg _ =>
    obtain ⟨a, rfl, -⟩ := map_eq_singleton_iff.mp hargs
    unfold Env.plain
    simp only
    split
    · exact ⟨by simp, hlocals, hs⟩
    · intro h
      cases h
  | store op arg _ =>
    obtain ⟨a, as, rfl, -, has⟩ := map_eq_cons_iff.mp hargs
    obtain ⟨v, rfl, -⟩ := map_eq_singleton_iff.mp has
    unfold Env.plain
    simp only
    split
    · exact ⟨rfl, hlocals, hs⟩
    · intro h
      cases h
  | memorySize _ =>
    cases map_eq_nil_iff.mp hargs
    exact ⟨by simp, hlocals, hs⟩
  | memoryGrow _ =>
    obtain ⟨n, rfl, -⟩ := map_eq_singleton_iff.mp hargs
    unfold Env.plain
    simp only
    split
    · exact ⟨by simp, hlocals, hs⟩
    · exact ⟨by simp, hlocals, hs⟩
  | const t v =>
    cases map_eq_nil_iff.mp hargs
    exact ⟨by simp, hlocals, hs⟩
  | num op =>
    unfold Env.plain
    simp only
    cases hn : env.num op args with
    | ok v => exact ⟨env.num_type op args v hn, hlocals, hs⟩
    | error e => exact env.num_stop op args e hargs hn

/-- A host that was called keeps the types as well. -/
theorem Env.host_wellTyped (env : Env σ) (f : Int) (args : List Value) (hs : s.Typed env.module) :
    match env.host f args s with
    | .ok (vs, s') => vs.map Value.type = (env.module.funcType f).results ∧ s'.Typed env.module
    | .error e => e ≠ .stuck := by
  cases h : env.host f args s with
  | ok r =>
    obtain ⟨vs, s'⟩ := r
    obtain ⟨hvs, hg⟩ := env.host_type f args s vs s' h
    refine ⟨hvs, ?_⟩
    show s'.globals.map Value.type = _
    rw [hg]
    exact hs
  | error e => exact env.host_stop f args s e h

/-! ### Functions that are called -/

theorem defined?_isSome (hf : f < env.module.funcCount) (himp : env.module.isImport f = false) :
    ∃ fn, env.module.defined? f = some fn := by
  unfold Module.funcCount at hf
  unfold Module.isImport at himp
  have hge : ¬f < env.module.importCount := by simpa using himp
  unfold Module.defined?
  rw [if_neg hge]
  exact ⟨_, getElem?_eq_getElem (by omega)⟩

theorem types_firstLocals (fn : Function) {args : List Value} {params : List ValType}
    (h : args.map Value.type = params) : (fn.firstLocals args).map Value.type = params ++ fn.locals := by
  unfold Function.firstLocals
  rw [map_append, h, map_map]
  congr 1
  exact map_congr_left (fun t _ => Value.type_zero t) |>.trans (map_id _)

theorem entry_lt (h : ((elementAt? env.tables table).getD [])[index]? = some (some f)) : f < env.module.funcCount := by
  cases htable : elementAt? env.tables table with
  | none =>
    rw [htable] at h
    simp at h
  | some entries =>
    rw [htable] at h
    exact env.table_lt entries (mem_of_elementAt? htable) f (mem_of_getElem? h)

/-- What a table gives is a function of the module with the type that is called for. -/
theorem target_ok (h : env.target type table index = .ok f) :
    f < env.module.funcCount ∧ env.module.funcType? f = env.module.typeAt? type := by
  unfold Env.target at h
  cases hentry : ((elementAt? env.tables table).getD [])[index]? with
  | none =>
    rw [hentry] at h
    cases h
  | some entry =>
    rw [hentry] at h
    cases entry with
    | none => cases h
    | some f' =>
      simp only at h
      by_cases htype : env.module.funcType? f' = env.module.typeAt? type
      · rw [if_pos htype] at h
        cases h
        exact ⟨entry_lt hentry, htype⟩
      · rw [if_neg htype] at h
        cases h

theorem target_error {why : Halt} (h : env.target type table index = .error why) : why ≠ .stuck := by
  unfold Env.target at h
  rintro rfl
  split at h
  · cases h
  · cases h
  · split at h <;> cases h

end ScoreWasm.Wasm
