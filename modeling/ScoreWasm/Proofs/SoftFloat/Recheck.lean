import ScoreWasm.Proofs.SoftFloat.Layout
import ScoreWasm.Proofs.Wasm.Exactness
import ScoreWasm.Proofs.Wasm.Places

/-!
# Lowered modules pass type checking

Checking a lowered body goes through the same stacks as checking the original one.  Most instructions do
not look at the module at all, and those that do find in the lowered module what they have found before.
An operator that was replaced takes its operands and leaves its result in one step; what replaces it does
the same in one or two.  The bodies of the routines are checked once, in a module that only declares
their types.
-/

namespace ScoreWasm

open Wasm Validate List
open ScoreWasm.StateT (bind_eq_ok discard_eq_ok get_eq_ok ite_eq_ok modify_eq_ok pure_eq_ok)

namespace Wasm.Validate

/-! ### Checking does not look at the module -/

/-- The same context for a body of another module. -/
def Context.within (ctx : Context) (m' : Module) : Context := { ctx with module := m' }

section OtherModule

variable (ctx : Context) (m' : Module)

theorem popMany_within (ts : List ValType) : popMany (ctx.within m') ts = popMany ctx ts := by
  induction ts with
  | nil => rfl
  | cons t ts ih =>
    unfold popMany
    rw [ih]
    rfl

theorem applyType_within (t : FuncType) : applyType (ctx.within m') t = applyType ctx t := by
  unfold applyType
  rw [popMany_within]

theorem applyCall_within (t : FuncType) (indexed : Bool) :
    applyCall (ctx.within m') t indexed = applyCall ctx t indexed := by
  unfold applyCall
  rw [applyType_within]
  rfl

theorem popFrame_within : popFrame (ctx.within m') = popFrame ctx := by
  unfold popFrame
  simp only [popMany_within]
  rfl

theorem takeEntry_within (kind : FrameKind) (t : FuncType) :
    takeEntry (ctx.within m') kind t = takeEntry ctx kind t := by
  unfold takeEntry
  rw [popMany_within]
  rfl

theorem checkTable_within (arity : Nat) (labels : List Int) :
    checkTable (ctx.within m') arity labels = checkTable ctx arity labels := by
  induction labels with
  | nil => rfl
  | cons l labels ih =>
    unfold checkTable
    simp only [ih, popMany_within]
    rfl

/-- Whether checking an instruction looks at the module. -/
def readsModule : Instr → Bool
  | .block (.index _) | .loop (.index _) | .if_ (.index _) => true
  | .call _ | .callIndirect _ _ => true
  | .globalGet _ | .globalSet _ => true
  | .load _ _ | .store _ _ | .memorySize | .memoryGrow => true
  | _ => false

theorem openBlock_within (kind : FrameKind) {bt : BlockType} (hbt : ∀ i, bt ≠ .index i) :
    openBlock (ctx.within m') kind bt = openBlock ctx kind bt := by
  unfold openBlock
  cases bt with
  | index i => exact absurd rfl (hbt i)
  | _ => rfl

/-- **An instruction that does not look at the module is checked alike in all modules.** -/
theorem step_within {i : Instr} (hi : readsModule i = false) : step (ctx.within m') i = step ctx i := by
  cases i with
  | block bt | loop bt | if_ bt =>
    refine openBlock_within ctx m' _ ?_
    rintro i rfl
    cases hi
  | else_ | end_ =>
    simp only [step, popFrame_within]
    rfl
  | br l | brIf l =>
    simp only [step, popMany_within]
    rfl
  | brTable ls d =>
    simp only [step, popMany_within, checkTable_within]
    rfl
  | ret =>
    simp only [step, popMany_within]
    rfl
  | num op => simp only [step, applyType_within]
  | call f => cases hi
  | callIndirect t table => cases hi
  | load op arg | store op arg | globalGet k | globalSet k | memorySize | memoryGrow => cases hi
  | _ => rfl

end OtherModule

/-! ### Operands taken in two steps -/

section Operands

variable {ctx : Context} {s s' : Stacks} {r : List Operand}

variable {t : FuncType}

theorem popMany_cons {t : ValType} {ts : List ValType} :
    popMany ctx (t :: ts) s = .ok (r, s') ↔ ∃ after s1 v, popMany ctx ts s = .ok (after, s1) ∧
      pop ctx (some t) s1 = .ok (v, s') ∧ r = v :: after := by
  show (do
    let after ← popMany ctx ts
    let v ← pop ctx (some t)
    return v :: after : Check (List Operand)) s = _ ↔ _
  simp only [bind_eq_ok, pure_eq_ok]
  constructor
  · rintro ⟨after, s1, hafter, v, _, hv, rfl, rfl⟩
    exact ⟨after, s1, v, hafter, hv, rfl⟩
  · rintro ⟨after, s1, v, hafter, hv, rfl⟩
    exact ⟨after, s1, hafter, v, s', hv, rfl, rfl⟩

theorem popMany_append {ys : List ValType} {xs : List ValType} {s s' : Stacks} :
    popMany ctx (xs ++ ys) s = .ok (r, s') ↔ ∃ a b s1, popMany ctx ys s = .ok (b, s1) ∧
      popMany ctx xs s1 = .ok (a, s') ∧ r = a ++ b := by
  induction xs generalizing s s' r with
  | nil =>
    constructor
    · intro h
      exact ⟨[], r, s', h, rfl, rfl⟩
    · rintro ⟨a, b, s1, hb, ha, rfl⟩
      cases ha
      exact hb
  | cons x xs ih =>
    rw [cons_append, popMany_cons]
    constructor
    · rintro ⟨after, s2, v, hafter, hv, rfl⟩
      obtain ⟨a, b, s1, hb, ha, rfl⟩ := ih.mp hafter
      exact ⟨v :: a, b, s1, hb, popMany_cons.mpr ⟨a, s2, v, ha, hv, rfl⟩, rfl⟩
    · rintro ⟨_, b, s1, hb, ha, rfl⟩
      obtain ⟨a, s2, v, hrest, hv, rfl⟩ := popMany_cons.mp ha
      exact ⟨a ++ b, s2, v, ih.mpr ⟨a, b, s1, hb, hrest, rfl⟩, hv, rfl⟩

/-- An operand that was just put on the stack is there. -/
theorem pop_push {t : ValType} (hs : s.WF) (hne : s.frames ≠ []) :
    pop ctx (some t) { s with vals := some t :: s.vals } = .ok (some t, s) := by
  obtain ⟨vals, frames⟩ := s
  cases frames with
  | nil => exact absurd rfl hne
  | cons f fs =>
    have hle : f.height ≤ vals.length := hs.1
    have hlen : ¬((vals.length + 1 == f.height) = true) := by
      simp
      omega
    unfold pop take
    simp only [bind_eq_ok]
    refine ⟨some (some t), ⟨vals, f :: fs⟩, ⟨_, _, rfl, ?_⟩, ?_⟩
    · simp only [length_cons, if_neg hlen]
      rfl
    · simp only [beq_self_eq_true, if_true]
      rfl

theorem applyType_ok : applyType ctx t s = .ok ((), s') ↔
    ∃ r s1, popMany ctx t.params s = .ok (r, s1) ∧
      s' = { s1 with vals := (t.results.map some).reverse ++ s1.vals } := by
  unfold applyType pushTypes pushMany
  simp only [bind_eq_ok, discard_eq_ok, modify_eq_ok]
  constructor
  · rintro ⟨_, s1, ⟨r, hr⟩, h⟩
    exact ⟨r, s1, hr, h⟩
  · rintro ⟨r, s1, hr, h⟩
    exact ⟨(), s1, ⟨r, hr⟩, h⟩

/-- Taking operands in one step, or in two of which the first one leaves an operand for the second. -/
theorem applyType_split {first last outs : List ValType} {u : ValType} (hs : s.WF)
    (hne : s.frames ≠ []) (h : applyType ctx ⟨first ++ last, outs⟩ s = .ok ((), s')) :
    ∃ s1, applyType ctx ⟨last, [u]⟩ s = .ok ((), s1) ∧
      applyType ctx ⟨first ++ [u], outs⟩ s1 = .ok ((), s') := by
  obtain ⟨r, s2, hpop, rfl⟩ := applyType_ok.mp h
  obtain ⟨a, b, s1, hb, ha, -⟩ := popMany_append.mp hpop
  have hkeeps := (popMany_trades hs hb).1.keeps
  have htop : popMany ctx [u] { s1 with vals := some u :: s1.vals } = .ok ([some u], s1) :=
    popMany_cons.mpr ⟨[], _, some u, rfl, pop_push (hkeeps.wf hs) (by rw [hkeeps.frames]; exact hne), rfl⟩
  exact ⟨_, applyType_ok.mpr ⟨b, s1, hb, rfl⟩,
    applyType_ok.mpr ⟨_, s2, popMany_append.mpr ⟨a, _, s1, htop, ha, rfl⟩, rfl⟩⟩

theorem applyCall_of_applyType (h : applyType ctx t s = .ok ((), s')) :
    ∃ note, applyCall ctx t false s = .ok (note, s') := by
  unfold applyCall
  simp only [bind_eq_ok, pure_eq_ok, Bool.false_eq_true, if_false, get_eq_ok]
  exact ⟨_, s, s, ⟨rfl, rfl⟩, (), s', h, rfl, rfl⟩

end Operands

end Wasm.Validate

namespace SoftFloat

variable {m : Module} {ops : List Op}

variable {reason : Invalid} {part : String} {v : Validated}

/-! ### What the lowered module shows -/

theorem globalTypes_lowered (m : Module) : (lowered m).globalTypes = m.globalTypes := by
  rw [lowered_outside]
  rfl

theorem tableLimits_lowered (m : Module) : (lowered m).tableLimits = m.tableLimits := by
  rw [lowered_outside]
  rfl

theorem memoryLimits_lowered (m : Module) : (lowered m).memoryLimits = m.memoryLimits := by
  rw [lowered_outside]
  rfl

section Step

variable {ctx : Context} {s s' : Stacks} {note : Note}

theorem openBlock_lowered (hm : ctx.module = m) {kind : FrameKind} {bt : BlockType}
    (h : openBlock ctx kind bt s = .ok (note, s')) :
    openBlock (ctx.within (lowered m)) kind bt s = .ok (note, s') := by
  obtain ⟨t, s1, ht, hentry, hframe, hnote⟩ := openBlock_eq_ok.mp h
  refine openBlock_eq_ok.mpr ⟨t, s1, blockType?_lowered (hm ▸ ht), ?_, hframe, hnote⟩
  rw [takeEntry_within]
  exact hentry

/-- **Checking an instruction of a lowered body finds what it has found in the original one.** -/
theorem step_lowered (ctx : Context) (hm : ctx.module = m) (hnat : m.hasNaturalTypes = true)
    {i : Instr} (hi : i.hasNaturalType = true) (h : step ctx i s = .ok (note, s')) :
    step (ctx.within (lowered m)) i s = .ok (note, s') := by
  by_cases hreads : readsModule i = false
  · rw [step_within _ _ hreads]
    exact h
  have hmodule : (ctx.within (lowered m)).module = lowered m := rfl
  cases i with
  | block bt | loop bt | if_ bt => exact openBlock_lowered hm h
  | call f =>
    obtain ⟨h0, hlt, t, ht, hcall⟩ := step_call_eq_ok.mp h
    rw [hm] at hlt ht
    refine step_call_eq_ok.mpr ⟨h0, ?_, t, funcType?_lowered hnat ht, ?_⟩
    · have := funcCount_le_lowered m
      rw [hmodule]
      omega
    · rw [applyCall_within]
      exact hcall
  | callIndirect type table =>
    obtain ⟨htable, t, ht, hcall⟩ := step_callIndirect_eq_ok.mp h
    rw [hm] at htable ht
    refine step_callIndirect_eq_ok.mpr ⟨?_, t, typeAt?_lowered (by simpa [Instr.hasNaturalType] using hi) ht, ?_⟩
    · rw [hmodule, tableLimits_lowered]
      exact htable
    · rw [applyCall_within]
      exact hcall
  | globalGet k | globalSet k =>
    rw [← h]
    simp only [step, globalType, hmodule, globalTypes_lowered, hm]
    rfl
  | memorySize | memoryGrow | load op arg | store op arg =>
    rw [← h]
    simp only [step, needMemory, applyType_within, hmodule, memoryLimits_lowered, hm]
    rfl
  | _ => exact absurd rfl hreads

end Step

/-! ### Lowered bodies -/

section Bodies

variable {ctx : Context} {s s' : Stacks}

/-- What replaces an operator takes and gives operands by its type. -/
theorem step_op (ctx : Context) (hm : ctx.module = lowered m) {o : Op} {t : FuncType} (ht : o.type? = some t)
    (hr : ∀ r, o = .call r → r ∈ routinesFor m) (h : applyType ctx t s = .ok ((), s')) :
    ∃ note, step ctx (o.instr (routineIndex m)) s = .ok (note, s') := by
  cases o with
  | plain i =>
    cases i with
    | num op =>
      cases ht
      refine ⟨.empty, ?_⟩
      simp only [Op.instr, step, bind_eq_ok, pure_eq_ok]
      exact ⟨(), s', h, trivial, rfl⟩
    | _ => cases ht
  | call r =>
    cases ht
    obtain ⟨note, hcall⟩ := applyCall_of_applyType h
    have hmem := hr r rfl
    refine ⟨note, step_call_eq_ok.mpr ⟨Int.natCast_nonneg _, ?_, r.type, ?_, hcall⟩⟩
    · rw [hm]
      exact Int.ofNat_lt.mpr (routineIndex_lt hmem)
    · rw [hm]
      exact funcType?_routine hmem

/-- The operator that was replaced and what replaces it lead to the same stacks. -/
theorem accepted_replacement (hm : ctx.module = lowered m) {op : NumOp} {note : Note}
    {offset : Nat} {rest : List Placed} (hops : replacement? op = some ops)
    (hr : ∀ r, .call r ∈ ops → r ∈ routinesFor m) (hs : s.WF) (hne : s.frames ≠ [])
    (h : step { ctx with offset := offset } (.num op) s = .ok (note, s')) (hrest : Accepted ctx rest s') :
    Accepted ctx ((ops.map (Op.instr (routineIndex m))).map (fun i => ⟨i, offset⟩) ++ rest) s := by
  simp only [step, bind_eq_ok, pure_eq_ok] at h
  obtain ⟨_, _, h, -, rfl⟩ := h
  rcases replacement_cases hops with ⟨o, rfl, ht⟩ | ⟨o1, o2, first, last, u, outs, rfl, ht1, ht2, htype⟩
  · obtain ⟨note, hstep⟩ := step_op { ctx with offset := offset } hm ht
      (fun r ho => hr r (by simp [ho])) h
    exact accepted_cons.mpr ⟨hne, note, _, hstep, hrest⟩
  · rw [htype] at h
    obtain ⟨s1, h1, h2⟩ := applyType_split hs hne h
    have hne1 : s1.frames ≠ [] := by
      rw [(applyType_trades hs h1).keeps.frames]
      exact hne
    obtain ⟨note1, hstep1⟩ := step_op { ctx with offset := offset } hm ht1
      (fun r ho => hr r (by simp [ho])) h1
    obtain ⟨note2, hstep2⟩ := step_op { ctx with offset := offset } hm ht2
      (fun r ho => hr r (by simp [ho])) h2
    exact accepted_cons.mpr ⟨hne, note1, s1, hstep1, accepted_cons.mpr ⟨hne1, note2, _, hstep2, hrest⟩⟩

/-- **A lowered body is accepted if the original one is.** -/
theorem accepted_lowerBody (ctx : Context) (hm : ctx.module = m) (hnat : m.hasNaturalTypes = true)
    {body : List Placed} {s : Stacks} (htypes : (∀ p ∈ body, p.instr.hasNaturalType = true))
    (hsoft : (∀ p ∈ body, ∀ op, p.instr = .num op → (replacement? op).isSome = true → op ∈ softOpsOf m)) (hs : s.WF)
    (hshape : Shaped ctx.results s.frames) (h : Accepted ctx body s) :
    Accepted (ctx.within (lowered m)) (lowerBody (routineIndex m) body) s := by
  induction body generalizing s with
  | nil =>
    exact accepted_nil.mpr (accepted_nil.mp h)
  | cons p rest ih =>
    obtain ⟨hne, note, s', hstep, hrest⟩ := accepted_cons.mp h
    obtain ⟨hs', hshape'⟩ := step_shaped hs hshape hne hstep
    have hrest := ih (fun q hq => htypes q (.tail _ hq))
      (fun q hq => hsoft q (.tail _ hq)) hs' hshape' hrest
    have hstep := step_lowered { ctx with offset := p.offset } hm hnat (htypes p (.head _)) hstep
    rw [lowerBody_cons]
    unfold lowerInstr
    cases hreplaced : replaced? p.instr with
    | none => exact accepted_cons.mpr ⟨hne, note, s', hstep, hrest⟩
    | some ops =>
      cases hi : p.instr with
      | num op =>
        rw [hi] at hstep hreplaced
        refine accepted_replacement rfl hreplaced ?_ hs hne hstep hrest
        intro r hr
        exact mem_routinesFor (hsoft p (.head _) op hi (by rw [show replacement? op = _ from hreplaced]; rfl))
          hreplaced hr
      | _ =>
        rw [hi] at hreplaced
        cases hreplaced

end Bodies

/-! ### Routines -/

/-- A module that declares every routine at its rank. -/
def library : Module :=
  { Module.empty with
    types := Routine.all.map Routine.type
    functions := Routine.all.map (fun r => ⟨r.rank, [], [], 0⟩) }

theorem typeAt?_library (r : Routine) : library.typeAt? r.rank = some r.type := by
  have hall : ∀ r ∈ Routine.all, library.typeAt? r.rank = some r.type := by decide
  exact hall r r.mem_all

theorem funcType?_library (r : Routine) : library.funcType? r.rank = some r.type := by
  have hall : ∀ r ∈ Routine.all, library.funcType? r.rank = some r.type := by decide
  exact hall r r.mem_all

theorem library_checked : ∀ r ∈ Routine.all,
    (function library (r.function Routine.rank r.rank)).isOk = true := by
  decide +kernel

/-- Whether checking code does not look at the module, apart from the types of the routines it calls. -/
def Code.isPortable (c : Code) : Bool :=
  c.ops.all (fun o => match o with
    | .plain i => !readsModule i
    | .call _ => true)

theorem Routine.isPortable_code (r : Routine) : r.code.isPortable = true := by
  have hall : ∀ r ∈ Routine.all, r.code.isPortable = true := by decide +kernel
  exact hall r r.mem_all

/-- Code that is accepted among all routines is accepted among those that it calls. -/
theorem accepted_portable {ctx : Context} (hm : ctx.module = library) {s : Stacks}
    (hport : (Code.mk ops).isPortable = true) (hcalls : (∀ r, .call r ∈ ops → r ∈ routinesFor m))
    (h : Accepted ctx (((Code.mk ops).instrs Routine.rank).map Placed.new) s) :
    Accepted (ctx.within (lowered m)) (((Code.mk ops).instrs (routineIndex m)).map Placed.new) s := by
  induction ops generalizing s with
  | nil =>
    obtain ⟨hne, note, s', hstep, hrest⟩ := accepted_cons.mp h
    refine accepted_cons.mpr ⟨hne, note, s', ?_, accepted_nil.mpr (accepted_nil.mp hrest)⟩
    exact (congrFun (step_within { ctx with offset := 0 } _ rfl) s).trans hstep
  | cons o ops ih =>
    obtain ⟨ho, hport⟩ := Bool.and_eq_true_iff.mp hport
    obtain ⟨hne, note, s', hstep, hrest⟩ := accepted_cons.mp h
    have hrest := ih hport (fun r hr => hcalls r (.tail _ hr)) hrest
    refine accepted_cons.mpr ⟨hne, note, s', ?_, hrest⟩
    cases o with
    | plain i =>
      have hi : readsModule i = false := by simpa using ho
      exact (congrFun (step_within { ctx with offset := 0 } _ hi) s).trans hstep
    | call r =>
      obtain ⟨-, -, t, ht, hcall⟩ := step_call_eq_ok.mp hstep
      have ht : library.funcType? r.rank = some t := hm ▸ ht
      rw [funcType?_library] at ht
      cases ht
      have hmem := hcalls r (.head _)
      refine step_call_eq_ok.mpr ⟨Int.natCast_nonneg _, Int.ofNat_lt.mpr (routineIndex_lt hmem),
        r.type, funcType?_routine hmem, ?_⟩
      exact (congrFun (applyCall_within { ctx with offset := 0 } _ r.type false) s).trans hcall

/-- **A routine is accepted in the lowered module.** -/
theorem function_routine {r : Routine} (hr : r ∈ routinesFor m) {n : Nat}
    (htype : (lowered m).types[n]? = some r.type) :
    ∃ cs, function (lowered m) (r.function (routineIndex m) n) = .ok cs := by
  obtain ⟨t, ht, haccepted⟩ := function_accepted.mp (Except.exists_ok (library_checked r r.mem_all))
  have ht : library.typeAt? r.rank = some t := ht
  rw [typeAt?_library] at ht
  cases ht
  refine function_accepted.mpr ⟨r.type, ?_, ?_⟩
  · show elementAt? (lowered m).types (n : Int) = some r.type
    rw [elementAt?_ofNat]
    exact htype
  · exact accepted_portable rfl r.isPortable_code (fun c hc => routinesFor_closed hr hc) haccepted

/-- **A lowered function is accepted if the original one is.** -/
theorem function_lowerFunction (hnat : m.hasNaturalTypes = true) {fn : Function}
    (hfn : fn ∈ m.functions) (h : ∃ cs, function m fn = .ok cs) :
    ∃ cs, function (lowered m) (lowerFunction (routineIndex m) fn) = .ok cs := by
  obtain ⟨t, ht, haccepted⟩ := function_accepted.mp h
  have hpos := Module.type_nonneg hnat hfn
  refine function_accepted.mpr ⟨t, typeAt?_lowered hpos ht, ?_⟩
  refine accepted_lowerBody (context m t fn) rfl hnat ?_ ?_ ⟨Nat.zero_le _, trivial⟩
    ⟨⟨fun _ => rfl, fun _ => rfl⟩, fun _ => rfl, trivial⟩ haccepted
  · intro p hp
    exact Module.hasNaturalType_of_mem hnat hfn hp
  · intro p hp op hop hsoft
    exact mem_softOpsOf hfn hp hop hsoft

/-! ### Outside of the bodies -/

/-- If a computation succeeds, another one does, with the same outcome. -/
def CarriesOver {ε α : Type} (x x' : Except ε α) : Prop := ∀ a, x = .ok a → x' = .ok a

namespace CarriesOver

variable {ε α β : Type}

theorem rfl {x : Except ε α} : CarriesOver x x := fun _ h => h

theorem bind {x x' : Except ε α} {f f' : α → Except ε β} (hx : CarriesOver x x')
    (hf : ∀ a, CarriesOver (f a) (f' a)) : CarriesOver (x >>= f) (x' >>= f') := by
  intro b h
  obtain ⟨a, ha, hb⟩ := Except.bind_eq_ok.mp h
  exact Except.bind_eq_ok.mpr ⟨a, hx a ha, hf a b hb⟩

theorem ite {c : Prop} [Decidable c] {x x' y y' : Except ε α} (hx : CarriesOver x x')
    (hy : CarriesOver y y') : CarriesOver (if c then x else y) (if c then x' else y') := by
  by_cases h : c
  · rw [if_pos h, if_pos h]
    exact hx
  · rw [if_neg h, if_neg h]
    exact hy

theorem forM {f f' : α → Except ε PUnit} {l : List α} (h : (∀ a ∈ l, CarriesOver (f a) (f' a))) :
    CarriesOver (l.forM f) (l.forM f') := by
  induction l with
  | nil =>
    exact rfl
  | cons a l ih =>
    exact bind (h a (.head _)) (fun _ => ih (fun b hb => h b (.tail _ hb)))

theorem forIn {f f' : α → β → Except ε (ForInStep β)} (h : ∀ a b, CarriesOver (f a b) (f' a b))
    {l : List α} {b : β} : CarriesOver (ForIn.forIn l b f) (ForIn.forIn l b f') := by
  induction l generalizing b with
  | nil =>
    exact rfl
  | cons a l ih =>
    rw [forIn_cons, forIn_cons]
    refine bind (h a b) fun r => ?_
    cases r with
    | done b => exact rfl
    | yield b => exact ih

end CarriesOver

theorem require_carriesOver {ok ok' : Bool} (h : ok = true → ok' = true) :
    CarriesOver (require ok reason part) (require ok' reason part) := by
  intro u hu
  cases ok with
  | false => cases hu
  | true =>
    rw [h rfl]
    exact hu

theorem checkImport_lowered (i : Import) : CarriesOver (checkImport m i) (checkImport (lowered m) i) := by
  unfold checkImport
  cases i.desc with
  | func t =>
    refine require_carriesOver ?_
    have := (types_lowered m).length_le
    simp only [decide_eq_true_eq]
    omega
  | _ => exact .rfl

theorem countOf_lowered (k : ExternKind) : countOf m k ≤ countOf (lowered m) k := by
  cases k with
  | func => exact funcCount_le_lowered m
  | table => exact Nat.le_of_eq (congrArg List.length (tableLimits_lowered m).symm)
  | memory => exact Nat.le_of_eq (congrArg List.length (memoryLimits_lowered m).symm)
  | global => exact Nat.le_of_eq (congrArg List.length (globalTypes_lowered m).symm)

theorem checkExports_lowered {es : List Export} {seen : List String} :
    CarriesOver (checkExports m seen es) (checkExports (lowered m) seen es) := by
  induction es generalizing seen with
  | nil =>
    exact .rfl
  | cons e es ih =>
    refine .bind .rfl fun _ => ?_
    cases e.kind with
    | unknown name => exact .rfl
    | known k =>
      refine .bind (require_carriesOver ?_) fun _ => ih
      have := countOf_lowered (m := m) k
      simp only [decide_eq_true_eq]
      omega

theorem checkStart_lowered (hnat : m.hasNaturalTypes = true) :
    CarriesOver (checkStart m) (checkStart (lowered m)) := by
  unfold checkStart
  rw [(sameOutside_lowered m).start]
  cases m.start with
  | none => exact .rfl
  | some f =>
    refine .bind (require_carriesOver ?_) fun _ => ?_
    · have := funcCount_le_lowered m
      simp only [decide_eq_true_eq]
      omega
    · cases ht : m.funcType? f with
      | none => exact fun _ h => nomatch h
      | some t =>
        rw [funcType?_lowered hnat ht]
        exact .rfl

theorem checkElement_lowered (e : ElemSegment) :
    CarriesOver (checkElement m e) (checkElement (lowered m) e) := by
  have hloop : CarriesOver
      (do for f in e.funcs do require (f < m.funcCount) (.unknown "function" f) "element")
      (do for f in e.funcs do require (f < (lowered m).funcCount) (.unknown "function" f) "element") := by
    refine .bind (.forIn fun f _ => .bind (require_carriesOver ?_) fun _ => .rfl) fun _ => .rfl
    have := funcCount_le_lowered m
    simp only [decide_eq_true_eq]
    omega
  unfold checkElement
  rw [tableLimits_lowered]
  cases e.mode with
  | active table x => exact .bind .rfl fun _ => .bind .rfl fun _ => hloop
  | passive | declarative => exact hloop

theorem checkData_lowered (d : DataSegment) : CarriesOver (checkData m d) (checkData (lowered m) d) := by
  unfold checkData
  rw [memoryLimits_lowered]
  exact .rfl

theorem require_ok {ok : Bool} : require ok reason part = .ok () ↔ ok = true := by
  unfold require
  cases ok <;> simp

theorem functionTypes_lowered : CarriesOver
    (m.functions.forM (fun f => require (f.type < m.types.length) (.unknownType f.type) "function"))
    ((lowered m).functions.forM
      (fun f => require (f.type < (lowered m).types.length) (.unknownType f.type) "function")) := by
  intro _ h
  rw [Except.forM_eq_ok] at h ⊢
  intro fn hfn
  rw [require_ok, decide_eq_true_eq]
  rcases mem_functions_lowered hfn with ⟨fn0, hfn0, rfl⟩ | ⟨r, -, n, rfl, htype⟩
  · have hlt := require_ok.mp (h fn0 hfn0)
    have := (types_lowered m).length_le
    simp only [decide_eq_true_eq] at hlt
    show fn0.type < _
    omega
  · exact Int.ofNat_lt.mpr (List.getElem?_eq_some_iff.mp htype).1

/-- Appending types and routines leaves everything outside of the bodies in order. -/
theorem checkOutside_lowered (hnat : m.hasNaturalTypes = true) :
    CarriesOver (checkOutside m) (checkOutside (lowered m)) := by
  have same := sameOutside_lowered m
  have hlast : CarriesOver
      (do
        checkExports m [] m.exports
        checkStart m
        m.elements.forM (checkElement m)
        m.data.forM (checkData m))
      (do
        checkExports (lowered m) [] m.exports
        checkStart (lowered m)
        m.elements.forM (checkElement (lowered m))
        m.data.forM (checkData (lowered m))) :=
    .bind checkExports_lowered fun _ => .bind (checkStart_lowered hnat) fun _ =>
      .bind (.forM fun e _ => checkElement_lowered e) fun _ => .forM fun d _ => checkData_lowered d
  unfold checkOutside
  rw [same.imports, same.tables, same.memories, same.globals, same.exports, same.elements, same.data]
  refine .bind (.forM fun i _ => checkImport_lowered i) fun _ => .bind functionTypes_lowered fun _ =>
    .ite (.bind .rfl fun _ => .bind .rfl fun _ => ?_) (.bind .rfl fun _ => ?_)
  all_goals
    refine .ite (.bind .rfl fun _ => ?_) ?_
    all_goals exact .bind .rfl fun _ => .bind .rfl fun _ => hlast

/-! ### The whole module -/

/-- Every function of a checked module has a type. -/
theorem funcType?_of_validate (hv : validate m = .ok v) (hnat : m.hasNaturalTypes = true) {f : Nat}
    (hf : f < m.funcCount) : ∃ t, m.funcType? f = some t := by
  by_cases himp : f < m.importCount
  · obtain ⟨houtside, -, -⟩ := validate_module hv
    have himports : m.imports.forM (checkImport m) = .ok () := by
      obtain ⟨_, himports, -⟩ := Except.bind_eq_ok.mp houtside
      exact himports
    obtain ⟨p, hp⟩ : ∃ p, m.funcImports[f]? = some p := ⟨_, getElem?_eq_getElem himp⟩
    obtain ⟨i, hi, hdesc⟩ := mem_filterMap.mp (mem_of_getElem? hp)
    have hcheck := Except.forM_eq_ok.mp himports i hi
    unfold checkImport at hcheck
    cases hd : i.desc with
    | func t =>
      rw [hd] at hcheck hdesc
      cases hdesc
      have hlt : t < m.types.length := of_decide_eq_true (require_ok.mp hcheck)
      obtain ⟨n, rfl⟩ := Int.eq_ofNat_of_zero_le (Module.importType_nonneg hnat (mem_of_getElem? hp))
      refine ⟨m.types[n], ?_⟩
      have himport : m.isImport f = true := by
        simp only [Module.isImport, decide_eq_true_eq]
        omega
      unfold Module.funcType? Module.typeIndex?
      rw [if_pos himport, elementAt?_ofNat, hp]
      show elementAt? m.types (n : Int) = _
      rw [elementAt?_ofNat, getElem?_eq_getElem (Int.ofNat_lt.mp hlt)]
    | _ =>
      rw [hd] at hdesc
      cases hdesc
  · have hdefined : m.defined? f = m.functions[f - m.importCount]? := if_neg himp
    unfold Module.funcCount at hf
    rw [getElem?_eq_getElem (by omega)] at hdefined
    obtain ⟨t, -, ht, -⟩ := function_checked hv hdefined
    exact ⟨t, ht⟩

/-- **Lowering a checked module succeeds.** -/
theorem validate_lowered (hv : validate m = .ok v) (hnat : m.hasNaturalTypes = true) :
    ∃ v', validate (lowered m) = .ok v' := by
  obtain ⟨houtside, -, hbodies⟩ := validate_module hv
  obtain ⟨-, hall⟩ := Except.mapM_eq_ok hbodies
  have hmap : ∃ bodies, (lowered m).functions.mapM (function (lowered m)) = .ok bodies := by
    refine Except.exists_mapM_eq_ok ?_
    intro fn hfn
    rcases mem_functions_lowered hfn with ⟨fn0, hfn0, rfl⟩ | ⟨r, hr, n, rfl, htype⟩
    · obtain ⟨j, hj⟩ := mem_iff_getElem?.mp hfn0
      obtain ⟨cs, -, hcs⟩ := hall j fn0 hj
      exact function_lowerFunction hnat hfn0 ⟨cs, hcs⟩
    · exact function_routine hr htype
  obtain ⟨bodies, hmap⟩ := hmap
  refine ⟨⟨lowered m, bodies⟩, ?_⟩
  unfold validate
  rw [checkOutside_lowered hnat () houtside, hmap]
  rfl

theorem lower_eq (hv : validate m = .ok v) : lower v = validate (lowered m) := by
  obtain ⟨-, hm, -⟩ := validate_module hv
  unfold lower
  rw [hm, lower?_eq]
  by_cases h : softOpsOf m = []
  · rw [if_pos h, lowered_eq_self h]
    exact hv.symm
  · rw [if_neg h]

end SoftFloat

end ScoreWasm
