import ScoreWasm.Proofs.Wasm.Checking

/-!
# Typing rules

What checking an instruction means.  For the open blocks there are four cases: an instruction opens a
block, turns to the second arm of an `if`, closes a block, or stays above the innermost one, where it
may make the rest of that block unreachable.

In code that can be reached there is one rule for each instruction, which says what lies on the operand
stack before and after it.
-/

namespace ScoreWasm.Wasm.Validate

open List

open ScoreWasm.StateT (bind_eq_ok discard_eq_ok get_eq_ok ite_eq_ok modify_eq_ok pure_eq_ok)

variable {ctx : Context} {s s' : Stacks} {c : Check Note}

variable {i : Instr} {note : Note} {u : Unit}

/-! ### Rules for reachable code -/

/-- The operands and results of an instruction that passes control to the next one. -/
inductive PlainType (ctx : Context) : Instr → List ValType → List ValType → Prop where
  | drop (t : ValType) : PlainType ctx .drop [t] []
  | select (types : Option (List ValType)) (t : ValType) : PlainType ctx (.select types) [t, t, .i32] [t]
  | localGet {k : Int} {t : ValType} : elementAt? ctx.locals k = some t → PlainType ctx (.localGet k) [] [t]
  | localSet {k : Int} {t : ValType} : elementAt? ctx.locals k = some t → PlainType ctx (.localSet k) [t] []
  | localTee {k : Int} {t : ValType} : elementAt? ctx.locals k = some t → PlainType ctx (.localTee k) [t] [t]
  | globalGet {k : Int} {g : GlobalType} : elementAt? ctx.module.globalTypes k = some g →
    PlainType ctx (.globalGet k) [] [g.type]
  | globalSet {k : Int} {g : GlobalType} : elementAt? ctx.module.globalTypes k = some g →
    PlainType ctx (.globalSet k) [g.type] []
  | load (op : LoadOp) (arg : MemArg) : ctx.module.memoryLimits.isEmpty = false →
    PlainType ctx (.load op arg) [.i32] [op.type]
  | store (op : StoreOp) (arg : MemArg) : ctx.module.memoryLimits.isEmpty = false →
    PlainType ctx (.store op arg) [.i32, op.type] []
  | memorySize : ctx.module.memoryLimits.isEmpty = false → PlainType ctx .memorySize [] [.i32]
  | memoryGrow : ctx.module.memoryLimits.isEmpty = false → PlainType ctx .memoryGrow [.i32] [.i32]
  | const (t : ValType) (v : Int) : PlainType ctx (.const t v) [] [t]
  | num (op : NumOp) : PlainType ctx (.num op) op.type.params op.type.results

/-- A label finds the types that it takes along on top of the operands. -/
def Reaches (fs : List Frame) (ts : List ValType) (l : Int) : Prop :=
  ∃ f rest, elementAt? fs l = some f ∧ ts = f.labelTypes.reverse ++ rest ∧ Fits fs rest

/-- The block that a label stands for: the operands that it takes along lie on top, and it is no higher
than what stays. -/
theorem Reaches.target {ts : List ValType} {l : Int} (h : Reaches s.frames ts l) (hs : s.WF) :
    ∃ depth f rest, position? s.frames.length l = some depth ∧ s.frames[depth]? = some f ∧
      ts = f.labelTypes.reverse ++ rest ∧ f.height ≤ rest.length := by
  obtain ⟨f, rest, hf, htypes, hfits⟩ := h
  obtain ⟨depth, hpos, hf⟩ := Option.bind_eq_some_iff.mp hf
  obtain ⟨top, fs, hfs⟩ := exists_cons_of_ne_nil (ne_nil_of_mem (mem_of_getElem? hf))
  refine ⟨depth, f, rest, hpos, hf, htypes, ?_⟩
  have htop := hfits top (by rw [hfs]; rfl)
  exact Nat.le_trans (hs.height_le (n := 0) (by rw [hfs]; rfl) (mem_of_getElem? hf)) htop

/-- The rule of an instruction in reachable code, for one that stays above the innermost block: the
types of the operands before it, what is noted about it, and the state after it. -/
inductive Typing (ctx : Context) (fs : List Frame) : Instr → List ValType → Note → Stacks → Prop where
  | nop {ts : List ValType} {note : Note} {s' : Stacks} : s'.Knows ts → Typing ctx fs .nop ts note s'
  | plain {i : Instr} {ins outs rest : List ValType} {note : Note} {s' : Stacks} :
    PlainType ctx i ins outs → Fits fs rest → s'.Knows (outs.reverse ++ rest) →
    Typing ctx fs i (ins.reverse ++ rest) note s'
  | unreachable (kind : Option Trap) {ts : List ValType} {note : Note} {s' : Stacks} :
    Typing ctx fs (.unreachable kind) ts note s'
  | br {l : Int} {ts : List ValType} {note : Note} {s' : Stacks} : Reaches fs ts l → Typing ctx fs (.br l) ts note s'
  | brIf {l : Int} {ts : List ValType} {note : Note} {s' : Stacks} : Reaches fs ts l → s'.Knows ts →
    Typing ctx fs (.brIf l) (.i32 :: ts) note s'
  | brTable {ls : List Int} {d : Int} {ts : List ValType} {note : Note} {s' : Stacks} :
    (∀ l ∈ ls ++ [d], Reaches fs ts l) → Typing ctx fs (.brTable ls d) (.i32 :: ts) note s'
  | ret {rest : List ValType} {note : Note} {s' : Stacks} : Fits fs rest →
    Typing ctx fs .ret (ctx.results.reverse ++ rest) note s'
  | call {f : Int} {t : FuncType} {rest : List ValType} {note : Note} {s' : Stacks} :
    0 ≤ f → f < ctx.module.funcCount → ctx.module.funcType? f = some t → Fits fs rest →
    note.stack = some ((t.params.reverse ++ rest).map some).reverse →
    s'.Knows (t.results.reverse ++ rest) → Typing ctx fs (.call f) (t.params.reverse ++ rest) note s'
  | callIndirect {type table : Int} {t : FuncType} {rest : List ValType} {note : Note} {s' : Stacks} :
    table < ctx.module.tableLimits.length → ctx.module.typeAt? type = some t → Fits fs rest →
    note.stack = some ((.i32 :: (t.params.reverse ++ rest)).map some).reverse →
    s'.Knows (t.results.reverse ++ rest) →
    Typing ctx fs (.callIndirect type table) (.i32 :: (t.params.reverse ++ rest)) note s'

/-! ### One instruction and the open blocks -/

/-- The kind of frame an instruction opens. -/
def opened? : Instr → Option FrameKind
  | .block _ => some .block
  | .loop _ => some .loop
  | .if_ _ => some .if_
  | _ => none

/-- Whether an instruction neither opens nor ends a block or an arm of one. -/
def isFlat : Instr → Bool
  | .block _ | .loop _ | .if_ _ | .else_ | .end_ => false
  | _ => true

theorem step_opens {kind : FrameKind} (hs : s.WF) (hi : opened? i = some kind) (h : step ctx i s = .ok (note, s')) :
    ∃ t base, note.blockType = some t ∧ Opened kind t base s s' ∧
      (∀ bt, i = .block bt ∨ i = .loop bt ∨ i = .if_ bt → ctx.module.blockType? bt = some t) ∧
      ∀ ts, s.Knows ts → ∃ rest, base = rest.map some ∧
        ts = (if kind = .if_ then [.i32] else []) ++ (t.params.reverse ++ rest) := by
  cases i with
  | block bt | loop bt | if_ bt =>
    cases hi
    obtain ⟨t, base, ht, hn, ho, hk⟩ := openBlock_ok hs h
    refine ⟨t, base, hn, ho, ?_, hk⟩
    rintro bt' (h | h | h) <;> cases h
    exact ht
  | _ => cases hi

theorem step_else_eq_ok : step ctx .else_ s = .ok (note, s') ↔ ∃ f s1, popFrame ctx s = .ok (f, s1) ∧ f.kind = .if_ ∧
    note = .empty ∧ s' = ⟨(f.type.params.map some).reverse ++ s1.vals,
      ⟨.else_, f.type, s1.vals.length, false⟩ :: s1.frames⟩ := by
  unfold step
  simp only [bind_eq_ok, get_eq_ok, and_assoc, exists_and_left, exists_eq_left]
  cases hf : s.frames with
  | nil => simp only [popFrame_eq_ok, hf, fail_eq_ok, reduceCtorEq, false_and, exists_false]
  | cons g gs =>
    simp only [bind_eq_ok, discard_eq_ok, guard_eq_ok, pure_eq_ok, bne_iff_ne, ne_eq, Decidable.not_not]
    constructor
    · rintro ⟨hk, _, s1, ⟨f, h1⟩, _, _, h2, rfl, rfl⟩
      obtain ⟨fs, -, -, hcons, -⟩ := popFrame_eq_ok.mp h1
      cases hf.symm.trans hcons
      exact ⟨g, s1, h1, hk, rfl, pushFrame_ok h2⟩
    · rintro ⟨f, s1, h1, hk, rfl, rfl⟩
      obtain ⟨fs, -, -, hcons, -⟩ := popFrame_eq_ok.mp h1
      cases hf.symm.trans hcons
      exact ⟨hk, (), s1, ⟨g, h1⟩, (), _, rfl, rfl, rfl⟩

/-- At an `else` the first arm of an `if` ends, and the second one starts where the first one did. -/
theorem step_else (hs : s.WF) (h : step ctx .else_ s = .ok (note, s')) : ∃ f fs, s.frames = f :: fs ∧ f.kind = .if_ ∧
      s' = ⟨(f.type.params.map some).reverse ++ low f.height s.vals, ⟨.else_, f.type, f.height, false⟩ :: fs⟩ ∧
      ∀ ts, s.Knows ts → ∃ rest, ts = f.type.results.reverse ++ rest ∧ rest.length = f.height := by
  obtain ⟨f, s1, h1, hk, -, rfl⟩ := step_else_eq_ok.mp h
  obtain ⟨fs, hf, rfl, hrest⟩ := popFrame_ok hs h1
  refine ⟨f, fs, hf, hk, ?_, hrest⟩
  rw [length_low (hs.cons hf).1]

theorem step_end_eq_ok : step ctx .end_ s = .ok (note, s') ↔ ∃ f s1, popFrame ctx s = .ok (f, s1) ∧
    (f.kind = .if_ → f.type.params = f.type.results) ∧ note = .empty ∧
      s' = ⟨if f.kind = .function then [] else (f.type.results.map some).reverse ++ s1.vals, s1.frames⟩ := by
  unfold step
  simp only [bind_eq_ok, guard_eq_ok, Bool.and_eq_true, beq_iff_eq, bne_iff_ne, ne_eq, not_and, Decidable.not_not]
  refine exists_congr fun f => exists_congr fun s1 => and_congr_right fun _ => and_congr_right fun _ => ?_
  simp only [pushTypes, pushMany, modify_eq_ok, exists_const, exists_eq_left]
  split <;> simp only [bind_eq_ok, modify_eq_ok, pure_eq_ok, exists_const, exists_eq_left,
    eq_comm (b := note), eq_comm (b := s')]

/-- At an `end` the innermost block gives its results to the one around it. -/
theorem step_end (hs : s.WF) (h : step ctx .end_ s = .ok (note, s')) :
    ∃ f fs, s.frames = f :: fs ∧ (f.kind = .if_ → f.type.params = f.type.results) ∧ s' = ⟨if f.kind = .function then []
        else (f.type.results.map some).reverse ++ low f.height s.vals, fs⟩ ∧
      ∀ ts, s.Knows ts → ∃ rest, ts = f.type.results.reverse ++ rest ∧ rest.length = f.height := by
  obtain ⟨f, s1, h1, hif, -, rfl⟩ := step_end_eq_ok.mp h
  obtain ⟨fs, hf, rfl, hrest⟩ := popFrame_ok hs h1
  exact ⟨f, fs, hf, hif, rfl, hrest⟩

theorem step_call_eq_ok {f : Int} : step ctx (.call f) s = .ok (note, s') ↔ 0 ≤ f ∧ f < ctx.module.funcCount ∧
    ∃ t, ctx.module.funcType? f = some t ∧ applyCall ctx t false s = .ok (note, s') := by
  unfold step
  simp only [guard_eq_ok, Bool.or_eq_true, decide_eq_true_eq, not_or, Int.not_lt, Int.not_le, and_assoc]
  refine and_congr_right fun _ => and_congr_right fun _ => ?_
  cases ctx.module.funcType? f with
  | none => simp [failRange_eq_ok]
  | some t => simp

theorem step_callIndirect_eq_ok {type table : Int} :
    step ctx (.callIndirect type table) s = .ok (note, s') ↔ table < ctx.module.tableLimits.length ∧
      ∃ t, ctx.module.typeAt? type = some t ∧ applyCall ctx t true s = .ok (note, s') := by
  unfold step
  simp only [bind_eq_ok, guard_eq_ok, elementOr_eq_ok, Int.not_le]
  refine and_congr_right fun _ => exists_congr fun t => ⟨?_, ?_⟩
  · rintro ⟨_, ⟨ht, rfl⟩, hcall⟩
    exact ⟨ht, hcall⟩
  · rintro ⟨ht, hcall⟩
    exact ⟨s, ⟨ht, rfl⟩, hcall⟩

theorem needMemory_ok (h : (do needMemory ctx; c) s = .ok (note, s')) :
    ctx.module.memoryLimits.isEmpty = false ∧ c s = .ok (note, s') := by
  simp only [needMemory, bind_eq_ok, ite_eq_ok, fail_eq_ok, and_false, false_or, pure_eq_ok] at h
  obtain ⟨_, _, ⟨hm, -, rfl⟩, h⟩ := h
  exact ⟨by simpa using hm, h⟩

theorem access_ok {size : Nat} {align : Int}
    (h : (do needMemory ctx; needAlignment ctx size align; c) s = .ok (note, s')) :
    ctx.module.memoryLimits.isEmpty = false ∧ c s = .ok (note, s') := by
  obtain ⟨hm, h⟩ := needMemory_ok h
  refine ⟨hm, ?_⟩
  obtain ⟨_, s1, h1, h⟩ := bind_eq_ok.mp h
  unfold needAlignment at h1
  cases align with
  | negSucc e => cases h1
  | ofNat e =>
    simp only [ite_eq_ok, fail_eq_ok, and_false, false_or, pure_eq_ok] at h1
    obtain ⟨-, -, rfl⟩ := h1
    exact h

/-- The last part of a check whose note is fixed. -/
theorem ends_ok {c : Check Unit} {n : Note} (h : (do c; return n : Check Note) s = .ok (note, s')) :
    c s = .ok ((), s') := by
  simp only [bind_eq_ok, pure_eq_ok] at h
  obtain ⟨_, _, h, -, rfl⟩ := h
  exact h

theorem Trades.plain {ins outs : List ValType} (h : Trades s ins outs s') (hi : PlainType ctx i ins outs) :
    (Keeps s s' ∨ s.Dies s') ∧ ∀ ts, s.Knows ts → Typing ctx s.frames i ts note s' := by
  refine ⟨.inl h.keeps, fun ts hk => ?_⟩
  obtain ⟨rest, rfl, hfit, hk'⟩ := h.knows ts hk
  exact .plain hi hfit hk'

/-- Every other instruction stays above the innermost block, or makes the rest of it unreachable.  In
reachable code it follows its rule. -/
theorem step_flat (hs : s.WF) (hi : isFlat i = true) (h : step ctx i s = .ok (note, s')) :
    (Keeps s s' ∨ s.Dies s') ∧ ∀ ts, s.Knows ts → Typing ctx s.frames i ts note s' := by
  cases i with
  | block _ | loop _ | if_ _ | else_ | end_ => cases hi
  | nop =>
    obtain ⟨-, rfl⟩ := pure_eq_ok.mp h
    exact ⟨.inl (Keeps.refl hs), fun ts hk => .nop hk⟩
  | unreachable kind => exact ⟨setDead_ok hs (ends_ok h), fun ts hk => .unreachable kind⟩
  | br l =>
    unfold step at h
    simp only [bind_eq_ok, discard_eq_ok, pure_eq_ok] at h
    obtain ⟨ts, s1, h1, _, s2, ⟨rs, h2⟩, _, s3, h3, -, rfl⟩ := h
    obtain ⟨f, hf, rfl, rfl⟩ := labelTypes_eq_ok.mp h1
    have p2 := (popMany_trades hs h2).1
    refine ⟨p2.keeps.setDead hs h3, fun ts hk => ?_⟩
    obtain ⟨rest, rfl, hfit, -⟩ := p2.knows ts hk
    exact .br ⟨f, rest, hf, rfl, hfit⟩
  | ret =>
    unfold step at h
    simp only [bind_eq_ok, discard_eq_ok, pure_eq_ok] at h
    obtain ⟨_, s2, ⟨rs, h2⟩, _, s3, h3, -, rfl⟩ := h
    have p2 := (popMany_trades hs h2).1
    refine ⟨p2.keeps.setDead hs h3, fun ts hk => ?_⟩
    obtain ⟨rest, rfl, hfit, -⟩ := p2.knows ts hk
    exact .ret hfit
  | brIf l =>
    unfold step at h
    simp only [bind_eq_ok, discard_eq_ok, pure_eq_ok] at h
    obtain ⟨_, s1, ⟨r, h1⟩, ts, s2, h2, rs, s3, h3, _, s4, h4, -, rfl⟩ := h
    have p1 := (pop_trades hs h1).1
    have hs1 := p1.keeps.wf hs
    obtain ⟨f, hf, rfl, rfl⟩ := labelTypes_eq_ok.mp h2
    obtain ⟨p3, e3⟩ := popMany_trades hs1 h3
    refine ⟨.inl ((p1.trans p3).keeps.trans (pushMany_keeps (p3.keeps.wf hs1) h4)), fun ts hk => ?_⟩
    obtain ⟨ts', rfl, -, hk1⟩ := p1.knows ts hk
    cases e3 _ hk1
    obtain ⟨rest, hts, hfit, hk4⟩ := (p3.pushTypes hs1 h4).knows _ hk1
    cases hts
    rw [p1.keeps.frames] at hf hfit
    exact .brIf ⟨f, rest, hf, rfl, hfit⟩ hk4
  | brTable ls d =>
    unfold step at h
    simp only [bind_eq_ok, discard_eq_ok, pure_eq_ok] at h
    obtain ⟨_, s1, ⟨r, h1⟩, ts, s2, h2, _, s3, h3, _, s4, ⟨rs, h4⟩, _, s5, h5, -, rfl⟩ := h
    have p1 := (pop_trades hs h1).1
    obtain ⟨f, hf, rfl, rfl⟩ := labelTypes_eq_ok.mp h2
    obtain ⟨k, hknows, hls⟩ := checkTable_ok (p1.keeps.wf hs) h3
    have k3 := p1.keeps.trans k
    have p4 := (popMany_trades (k3.wf hs) h4).1
    refine ⟨(k3.trans p4.keeps).setDead hs h5, fun ts hk => ?_⟩
    obtain ⟨ts', rfl, -, hk1⟩ := p1.knows ts hk
    obtain ⟨rest, hts, hfit, -⟩ := p4.knows _ (hknows _ hk1)
    cases hts
    rw [p1.keeps.frames] at hf hls
    rw [k3.frames] at hfit
    have hd : Reaches s.frames _ d := ⟨f, rest, hf, rfl, hfit⟩
    refine .brTable (forall_mem_append.mpr ⟨fun l hl => ?_, forall_mem_singleton.mpr hd⟩)
    obtain ⟨g, hg, -, hfound⟩ := hls l hl
    obtain ⟨rest, hrest, hfit⟩ := hfound _ hk1
    exact ⟨g, rest, hg, hrest, hfit⟩
  | call f =>
    obtain ⟨h0, hlt, t, ht, h⟩ := step_call_eq_ok.mp h
    obtain ⟨p, hn⟩ := applyCall_trades hs h
    refine ⟨.inl p.keeps, fun ts hk => ?_⟩
    obtain ⟨rest, rfl, hfit, hk1⟩ := p.knows ts hk
    rw [hk.vals] at hn
    simp only [Bool.false_eq_true, if_false, append_nil] at hn ⊢
    exact .call h0 hlt ht hfit hn hk1
  | callIndirect type table =>
    obtain ⟨htable, t, ht, h⟩ := step_callIndirect_eq_ok.mp h
    obtain ⟨p, hn⟩ := applyCall_trades hs h
    refine ⟨.inl p.keeps, fun ts hk => ?_⟩
    obtain ⟨rest, rfl, hfit, hk1⟩ := p.knows ts hk
    rw [hk.vals] at hn
    simp only [if_true, reverse_append, append_assoc] at hn ⊢
    exact .callIndirect htable ht hfit hn hk1
  | drop =>
    obtain ⟨r, s1, h1, h2⟩ := bind_eq_ok.mp h
    obtain ⟨-, rfl⟩ := pure_eq_ok.mp h2
    have k1 := pop_keeps hs h1
    refine ⟨.inl k1, fun ts hk => ?_⟩
    obtain ⟨t, rest, rfl, -, -, hk1⟩ := pop_knows hk h1
    exact .plain (.drop t) (k1.fits hk1) hk1
  | select types =>
    obtain ⟨k, hknows⟩ := checkSelect_knows hs h
    refine ⟨.inl k, fun ts hk => ?_⟩
    obtain ⟨t, rest, rfl, hfit, hk1, -, -⟩ := hknows ts hk
    exact .plain (.select types t) hfit hk1
  | localGet k =>
    obtain ⟨t, s1, h1, h2⟩ := bind_eq_ok.mp h
    obtain ⟨ht, rfl⟩ := elementOr_eq_ok.mp h1
    exact ((Trades.refl hs).push hs (ends_ok h2)).plain (.localGet ht)
  | localSet k =>
    obtain ⟨t, s1, h1, h2⟩ := bind_eq_ok.mp h
    obtain ⟨ht, rfl⟩ := elementOr_eq_ok.mp h1
    obtain ⟨r, h3⟩ := discard_eq_ok.mp (ends_ok h2)
    exact (pop_trades hs h3).1.plain (.localSet ht)
  | localTee k =>
    obtain ⟨t, s1, h1, h2⟩ := bind_eq_ok.mp h
    obtain ⟨ht, rfl⟩ := elementOr_eq_ok.mp h1
    obtain ⟨_, s2, h3, h4⟩ := bind_eq_ok.mp h2
    obtain ⟨r, h3⟩ := discard_eq_ok.mp h3
    exact ((pop_trades hs h3).1.push hs (ends_ok h4)).plain (.localTee ht)
  | globalGet k =>
    obtain ⟨g, s1, h1, h2⟩ := bind_eq_ok.mp h
    obtain ⟨hg, rfl⟩ := elementOr_eq_ok.mp h1
    exact ((Trades.refl hs).push hs (ends_ok h2)).plain (.globalGet hg)
  | globalSet k =>
    unfold step at h
    simp only [bind_eq_ok, guard_eq_ok, discard_eq_ok, pure_eq_ok] at h
    obtain ⟨g, s1, h1, -, _, s2, ⟨r, h2⟩, -, rfl⟩ := h
    obtain ⟨hg, rfl⟩ := elementOr_eq_ok.mp h1
    exact (pop_trades hs h2).1.plain (.globalSet hg)
  | load op arg =>
    obtain ⟨hm, h⟩ := access_ok h
    exact (applyType_trades hs (ends_ok h)).plain (.load op arg hm)
  | store op arg =>
    obtain ⟨hm, h⟩ := access_ok h
    exact (applyType_trades hs (ends_ok h)).plain (.store op arg hm)
  | memorySize =>
    obtain ⟨hm, h⟩ := needMemory_ok h
    exact ((Trades.refl hs).push hs (ends_ok h)).plain (.memorySize hm)
  | memoryGrow =>
    obtain ⟨hm, h⟩ := needMemory_ok h
    exact (applyType_trades hs (ends_ok h)).plain (.memoryGrow hm)
  | const t v => exact ((Trades.refl hs).push hs (ends_ok h)).plain (.const t v)
  | num op => exact (applyType_trades hs (ends_ok h)).plain (.num op)

end ScoreWasm.Wasm.Validate
