import ScoreWasm.Proofs.SoftFloat.Computing

/-!
# Lowering keeps the meaning of a module

The states of the lowered module mirror those of the original one: the same activations with their code
lowered, and the same store.  An instruction that stays does the same on both sides.  An operator that was
replaced takes one step on one side, and on the other side as many as its replacement needs to compute it.
So each step is matched by one or more, and the two runs end together.
-/

namespace ScoreWasm

open Wasm Validate List

variable {σ : Type}

namespace SoftFloat

variable {m : Module}

/-! ### Mirrored states -/

section Mirror

variable (index : Routine → Nat)

variable {i : Instr} {xs : List Instr}

/-- The label with its code lowered. -/
def lowerLabel (l : Label) : Label := { l with cont := lowerCode index l.cont }

/-- The activation with its code lowered. -/
def lowerActivation (a : Activation) : Activation :=
  { a with code := lowerCode index a.code, labels := a.labels.map (lowerLabel index) }

/-- A configuration with all code lowered. -/
def lowerConfig (c : Config σ) : Config σ :=
  ⟨lowerActivation index c.active, c.waiting.map (lowerActivation index), c.store⟩

/-- What comes after a step, with all code lowered. -/
def lowerOutcome : Outcome σ (Config σ) → Outcome σ (Config σ)
  | .next c => .next (lowerConfig index c)
  | .done results s => .done results s
  | .halt why s => .halt why s

variable {index}

theorem lowerCode_cons (i : Instr) (rest : List Instr) :
    lowerCode index (i :: rest) = lowerInstr index i ++ lowerCode index rest := rfl

theorem lowerInstr_of_none (h : replaced? i = none) : lowerInstr index i = [i] := by
  unfold lowerInstr
  rw [h]

/-- What replaces an operator neither opens nor ends a construct. -/
theorem isFlat_lowerInstr (hi : isFlat i = true) : ∀ j ∈ lowerInstr index i, isFlat j = true := by
  intro j hj
  unfold lowerInstr at hj
  cases h : replaced? i with
  | none =>
    rw [h] at hj
    rw [mem_singleton.mp hj]
    exact hi
  | some ops =>
    rw [h] at hj
    obtain ⟨o, ho, rfl⟩ := mem_map.mp hj
    have htype : ∃ t, o.type? = some t := by
      cases i with
      | num op =>
        rcases replacement_cases h with ⟨o', rfl, ht⟩ | ⟨o1, o2, _, _, _, _, rfl, ht1, ht2, -⟩
        · rw [mem_singleton.mp ho]
          exact ⟨_, ht⟩
        · rcases mem_cons.mp ho with rfl | ho
          · exact ⟨_, ht1⟩
          · rw [mem_singleton.mp ho]
            exact ⟨_, ht2⟩
      | _ => cases h
    obtain ⟨t, ht⟩ := htype
    cases o with
    | call r => rfl
    | plain i =>
      cases i with
      | num op => rfl
      | _ => cases ht

theorem after_append_flat (h : ∀ i ∈ xs, isFlat i = true) (d : Nat) (rest : List Instr) :
    afterEnd d (xs ++ rest) = afterEnd d rest ∧ afterElse? d (xs ++ rest) = afterElse? d rest := by
  induction xs with
  | nil => exact ⟨rfl, rfl⟩
  | cons x xs ih =>
    have hx := h x (.head _)
    rw [cons_append, afterEnd_flat hx, afterElse?_flat hx]
    exact ih (fun i hi => h i (.tail _ hi))

/-- Leaving a construct and going to its second arm commute with lowering. -/
theorem after_lowerCode (code : List Instr) (d : Nat) :
    afterEnd d (lowerCode index code) = lowerCode index (afterEnd d code) ∧
      afterElse? d (lowerCode index code) = (afterElse? d code).map (lowerCode index) := by
  induction code generalizing d with
  | nil => exact ⟨rfl, rfl⟩
  | cons i rest ih =>
    rw [lowerCode_cons]
    by_cases hi : isFlat i = true
    · obtain ⟨hend, harm⟩ := after_append_flat (isFlat_lowerInstr hi) d (lowerCode index rest)
      rw [hend, harm, afterEnd_flat hi, afterElse?_flat hi]
      exact ih d
    · cases i with
      | block _ | loop _ | if_ _ => exact ih (d + 1)
      | else_ =>
        cases d with
        | zero => exact ⟨(ih 0).1, rfl⟩
        | succ d => exact ih (d + 1)
      | end_ =>
        cases d with
        | zero => exact ⟨rfl, rfl⟩
        | succ d => exact ih d
      | _ => exact absurd rfl hi

/-! ### The parts of a step -/

section Parts

variable (c : Config σ) (a : Activation)

theorem lowerOutcome_go : lowerOutcome index (c.go a) = (lowerConfig index c).go (lowerActivation index a) :=
  rfl

theorem lowerOutcome_ret (results : List Value) :
    lowerOutcome index (c.ret results) = (lowerConfig index c).ret results := by
  obtain ⟨active, waiting, store⟩ := c
  cases waiting <;> rfl

theorem lowerOutcome_branch (label : Int) :
    lowerOutcome index (c.branch a label) = (lowerConfig index c).branch (lowerActivation index a) label := by
  unfold Config.branch
  have hlen : (lowerActivation index a).labels.length = a.labels.length := length_map _
  rw [hlen]
  cases position? a.labels.length label with
  | none => rfl
  | some depth =>
    have hget : (lowerActivation index a).labels[depth]? = (a.labels[depth]?).map (lowerLabel index) :=
      getElem?_map
    simp only [hget]
    cases a.labels[depth]? with
    | none => rfl
    | some l =>
      simp only [Option.map_some]
      have hloop : (lowerLabel index l).isLoop = l.isLoop := rfl
      rw [hloop]
      by_cases hl : l.isLoop = true
      · rw [if_pos hl, if_pos hl, lowerOutcome_go]
        congr 1
        unfold lowerActivation lowerLabel
        simp only [map_drop]
      · rw [if_neg hl, if_neg hl]
        by_cases hlast : depth + 1 = a.labels.length
        · rw [if_pos hlast, if_pos hlast, lowerOutcome_ret]
          rfl
        · rw [if_neg hlast, if_neg hlast, lowerOutcome_go]
          congr 1
          unfold lowerActivation lowerLabel
          simp only [map_drop]

theorem lowerOutcome_proceed (rest : List Instr) (inputs : Nat) (waiting : List Activation)
    (s : Wasm.Store σ) (r : Except Halt (List Value × List Value × Wasm.Store σ)) :
    lowerOutcome index (Env.proceed a rest inputs waiting s r) =
      Env.proceed (lowerActivation index a) (lowerCode index rest) inputs (waiting.map (lowerActivation index)) s r := by
  cases r with
  | ok p | error why => rfl

end Parts

end Mirror

/-! ### Instructions that stay -/

section Kept

variable {env low : Env σ} {c : Config σ}

variable {f : Nat} {fn : Function} {t : FuncType} {v : Validated} {final : List ValType}
  {index : Routine → Nat} {o : Outcome σ (Config σ)}

/-- What an instruction without control flow does is not affected. -/
theorem plain_kept (h : Interprets env.module env low) {i : Instr} (hi : replaced? i = none)
    (hcall : ∀ f, i ≠ .call f) : low.plain i = env.plain i := by
  funext args locals s
  cases i with
  | num op =>
    show (low.num op args >>= fun v => pure ([v], locals, s)) = (env.num op args >>= fun v => pure ([v], locals, s))
    rw [h.num op hi]
  | memoryGrow =>
    have hgrown : low.grown? = env.grown? := by
      funext mem count
      unfold Env.grown?
      rw [h.pageLimit]
    rcases args with _ | ⟨x, _ | ⟨y, rest⟩⟩
    · rfl
    · simp only [Env.plain, hgrown]
    · rfl
  | call f => exact absurd rfl (hcall f)
  | _ =>
    -- The other instructions look at how many operands there are, up to three, but not at the environment.
    rcases args with _ | ⟨x, _ | ⟨y, _ | ⟨z, _ | ⟨w, rest⟩⟩⟩⟩ <;> rfl

section

variable (h : Interprets env.module env low) (hnat : env.module.hasNaturalTypes = true)
include h hnat

/-- A function that is entered is the same with its code lowered. -/
theorem activation?_lowered
    (hf : env.module.defined? f = some fn) (ht : env.module.funcType? f = some t) (args : List Value) :
    low.activation? f args = (env.activation? f args).map (lowerActivation (routineIndex env.module)) := by
  have htype : (lowered env.module).funcType f = env.module.funcType f :=
    funcType_lowered hnat (by rw [ht]; rfl)
  have hcode : (lowerFunction (routineIndex env.module) fn).body.map Placed.instr =
      lowerCode (routineIndex env.module) (fn.body.map Placed.instr) := map_instr_lowerBody _ _
  unfold Env.activation?
  rw [h.target, defined?_lowered hf, hf, htype]
  simp only [Option.map_some, lowerActivation, hcode]
  rfl

theorem lowerOutcome_call (a : Activation) (hf : f < env.module.funcCount) (ht : env.module.funcType? f = some t)
    (args : List Value) : lowerOutcome (routineIndex env.module) (env.call c a f args) =
      low.call (lowerConfig (routineIndex env.module) c) (lowerActivation (routineIndex env.module) a) f args := by
  unfold Env.call
  rw [h.target, isImport_lowered]
  cases himp : env.module.isImport f with
  | true =>
    have hhost : low.host f args (lowerConfig (routineIndex env.module) c).store = env.host f args c.store :=
      congrFun (congrFun (h.host f himp) args) c.store
    simp only [if_true, hhost]
    cases env.host f args c.store with
    | ok r | error why => rfl
  | false =>
    obtain ⟨fn, hfn⟩ := defined?_isSome hf himp
    rw [activation?_lowered h hnat hfn ht]
    cases env.activation? f args with
    | none | some callee => rfl

theorem target_lowered (hv : validate env.module = .ok v) {type table : Int} (hpos : 0 ≤ type)
    (ht : env.module.typeAt? type = some t) (n : Nat) : low.target type table n = env.target type table n := by
  unfold Env.target
  rw [h.tables, h.target]
  cases hentry : ((elementAt? env.tables table).getD [])[n]? with
  | none => rfl
  | some entry =>
    cases entry with
    | none => rfl
    | some f =>
      obtain ⟨u, hu⟩ := funcType?_of_validate hv hnat (entry_lt hentry)
      simp only [typeAt?_lowered hpos ht, ht, funcType?_lowered hnat hu, hu]

end

section Step

variable {bodies : List (List Checked)} {k : Wasm.Source env.module bodies c.active.func}
  {i : Instr} {rest : List Instr} {s s' : Stacks} {offset : Nat} {note : Note}

/-- **An instruction that stays does the same on both sides.** -/
theorem stepInstr_kept (h : Interprets env.module env low) (hnat : env.module.hasNaturalTypes = true)
    (hv : validate env.module = .ok v) (hm : Meets final c k i rest s offset note s')
    (hi : replaced? i = none) (hinat : i.hasNaturalType = true) :
    (low.stepInstr (lowerConfig (routineIndex env.module) c) i (lowerCode (routineIndex env.module) rest)).2 =
      lowerOutcome (routineIndex env.module) (env.stepInstr c i rest).2 := by
  have hmodule := h.target
  have hstack : (lowerConfig (routineIndex env.module) c).active.stack = c.active.stack := rfl
  have hlabels : (lowerConfig (routineIndex env.module) c).active.labels =
      c.active.labels.map (lowerLabel (routineIndex env.module)) := rfl
  have hplain : (∀ f, i ≠ .call f) → low.plain i = env.plain i := plain_kept h hi
  cases i with
  | nop | unreachable kind => rfl
  | block bt | loop bt =>
    obtain ⟨t, -, -, ht, -⟩ := hm.opens rfl
    have ht := ht bt (by simp)
    unfold Env.stepInstr
    simp only [hmodule, blockType?_lowered ht, ht, after_lowerCode]
    rfl
  | if_ bt =>
    obtain ⟨t, -, -, ht, -⟩ := hm.opens rfl
    have ht := ht bt (by simp)
    unfold Env.stepInstr
    simp only [hmodule, blockType?_lowered ht, ht, after_lowerCode, hstack]
    cases c.active.stack with
    | nil => rfl
    | cons cond stack =>
      by_cases hcond : cond.bits = 0
      · simp only [if_pos hcond]
        cases afterElse? 0 rest with
        | none | some code => rfl
      · simp only [if_neg hcond]
        rfl
  | else_ =>
    unfold Env.stepInstr
    simp only [after_lowerCode, hlabels, ← map_tail]
    rfl
  | end_ =>
    unfold Env.stepInstr
    simp only [hlabels, hstack]
    cases c.active.labels with
    | nil => rfl
    | cons l ls =>
      cases ls with
      | nil => exact (lowerOutcome_ret c _).symm
      | cons l' ls => rfl
  | br l => exact (lowerOutcome_branch c _ l).symm
  | ret => exact (lowerOutcome_branch c _ (-1)).symm
  | brIf l =>
    unfold Env.stepInstr
    simp only [hstack]
    cases c.active.stack with
    | nil => rfl
    | cons cond stack =>
      by_cases hcond : cond.bits = 0
      · simp only [if_pos hcond]
        rfl
      · simp only [if_neg hcond]
        exact (lowerOutcome_branch c { c.active with code := rest, stack := stack } l).symm
  | brTable ls d =>
    unfold Env.stepInstr
    simp only [hstack]
    cases c.active.stack with
    | nil => rfl
    | cons n stack => exact (lowerOutcome_branch c { c.active with code := rest, stack := stack } _).symm
  | call f =>
    obtain ⟨ts, -, ht⟩ := hm.typing rfl
    cases ht with
    | plain hp => cases hp
    | @call _ t _ _ _ hnonneg hlt htype =>
      have htype : env.module.funcType? f = some t := htype
      have hinputs : Instr.inputs low.module (.call f) = Instr.inputs env.module (.call f) := by
        show (low.module.funcType f).params.length = (env.module.funcType f).params.length
        rw [hmodule, funcType_lowered hnat (by rw [htype]; rfl)]
      obtain ⟨f, rfl⟩ : ∃ n : Nat, f = n := ⟨f.toNat, by omega⟩
      unfold Env.stepInstr
      simp only [hinputs]
      exact (lowerOutcome_call h hnat { c.active with code := rest, stack := c.active.stack.drop _ }
        (Int.ofNat_lt.mp hlt) htype _).symm
  | callIndirect type table =>
    obtain ⟨ts, -, ht⟩ := hm.typing rfl
    cases ht with
    | plain hp => cases hp
    | @callIndirect _ _ t _ _ _ _ htype =>
      have htype : env.module.typeAt? type = some t := htype
      have hpos : 0 ≤ type := of_decide_eq_true hinat
      unfold Env.stepInstr
      simp only [hstack, hmodule, typeAt?_lowered hpos htype, htype, target_lowered h hnat hv hpos htype]
      cases c.active.stack with
      | nil => rfl
      | cons n stack =>
        cases htarget : env.target type table n.bits with
        | error why =>
          simp only [htarget]
          rfl
        | ok f =>
          obtain ⟨hf, hft⟩ := target_ok htarget
          simp only [htarget]
          exact (lowerOutcome_call h hnat { c.active with code := rest, stack := stack.drop _ } hf
            (hft.trans htype) _).symm
  | drop | select _ | localGet _ | localSet _ | localTee _ | globalGet _ | globalSet _ | load _ _
  | store _ _ | memorySize | memoryGrow | const _ _ | num _ =>
    rw [low.stepInstr_isPlain rfl, env.stepInstr_isPlain rfl, hplain (by nofun), lowerOutcome_proceed]
    rfl

/-- **What replaces an operator computes what the operator does.** -/
theorem runFor_replaced (h : Interprets env.module env low) {op : NumOp} {ops : List Op}
    (hm : Meets final c k (.num op) rest s offset note s') (hops : replacement? op = some ops)
    (hop : op ∈ softOpsOf env.module) : ∃ n, 0 < n ∧ (runFor low.step n (lowerConfig (routineIndex env.module) c)).2 =
      lowerOutcome (routineIndex env.module) (env.stepInstr c (.num op) rest).2 := by
  obtain ⟨ts, hts, ht⟩ := hm.typing rfl
  cases ht with
  | plain hp =>
    cases hp
    let args := (c.active.stack.take op.type.params.length).reverse
    let a := lowerActivation (routineIndex env.module) c.active
    have hargs : args.map Value.type = op.type.params := by
      rw [map_reverse, map_take, hts, ← length_reverse, take_left, reverse_reverse]
    have hcode : a.code = ops.map (Op.instr (routineIndex env.module)) ++ lowerCode (routineIndex env.module) rest := by
      show lowerCode _ c.active.code = _
      rw [hm.code, lowerCode_cons]
      unfold lowerInstr
      rw [show replaced? (.num op) = some ops from hops]
    have hne : lowerCode (routineIndex env.module) rest ≠ a.code := by
      intro heq
      have hlen := congrArg List.length (heq.trans hcode)
      have hpos := length_pos_iff.mpr (replacement_ne_nil hops)
      rw [length_append, length_map] at hlen
      omega
    have hgives := h.soft op hop ops args hops hargs a (lowerCode (routineIndex env.module) rest)
      (a.stack.drop op.type.params.length) hcode (by rw [reverse_reverse]; exact (take_append_drop _ _).symm)
    have hplain : env.plain (.num op) args c.active.locals c.store =
        (env.num op args).map (fun v => ([v], c.active.locals, c.store)) := by
      cases hnum : env.num op args <;> simp only [Env.plain, hnum] <;> rfl
    obtain ⟨n, hpos, hn⟩ := hgives.run hne (c.waiting.map (lowerActivation (routineIndex env.module))) c.store
    refine ⟨n, hpos, hn.trans ?_⟩
    rw [env.stepInstr_isPlain rfl, lowerOutcome_proceed]
    exact congrArg _ hplain.symm

end Step

/-! ### Runs -/

theorem mem_of_defined? (h : m.defined? f = some fn) : fn ∈ m.functions := by
  unfold Module.defined? at h
  split at h
  · cases h
  · exact mem_of_getElem? h

/-- **A step of the original is matched by one or more of the lowered module.** -/
theorem runFor_step (h : Interprets env.module env low) (hnat : env.module.hasNaturalTypes = true)
    (hv : validate env.module = .ok v) (hc : Settles env.module v.bodies final (.next c)) :
    ∃ n, 0 < n ∧ (runFor low.step n (lowerConfig (routineIndex env.module) c)).2 =
      lowerOutcome (routineIndex env.module) (env.step c).2 := by
  obtain ⟨k, s, hactive⟩ := hc
  obtain ⟨i, rest, offset, note, s', n, hm, hcode, -, -⟩ := hactive.meets
  have hfn := mem_of_defined? k.defined
  obtain ⟨p, hp, hpi⟩ : ∃ p ∈ k.fn.body, p.instr = i := by
    have hi : i ∈ (k.fn.body.drop n).map Placed.instr := by
      rw [← hcode, hm.code]
      exact (.head _)
    obtain ⟨p, hp, hpi⟩ := mem_map.mp hi
    exact ⟨p, mem_of_mem_drop hp, hpi⟩
  have hinat : i.hasNaturalType = true := hpi ▸ Module.hasNaturalType_of_mem hnat hfn hp
  have hstep : env.step c = env.stepInstr c i rest := by
    unfold Env.step
    rw [hm.code]
  rw [hstep]
  cases hi : replaced? i with
  | none =>
    refine ⟨1, Nat.one_pos, ?_⟩
    rw [runFor_one, ← stepInstr_kept h hnat hv hm hi hinat]
    unfold Env.step
    have hlow : (lowerConfig (routineIndex env.module) c).active.code =
        i :: lowerCode (routineIndex env.module) rest := by
      show lowerCode _ c.active.code = _
      rw [hm.code, lowerCode_cons, lowerInstr_of_none hi]
      rfl
    rw [hlow]
  | some ops =>
    cases i with
    | num op =>
      exact runFor_replaced h hm hi (mem_softOpsOf hfn hp hpi (by rw [show replacement? op = _ from hi]; rfl))
    | _ => cases hi

theorem lowerOutcome_ended (ho : o.Ended) : lowerOutcome index o = o := by
  cases o with
  | next c => cases ho
  | done results s | halt why s => rfl

theorem ended_of_lowerOutcome {o' : Outcome σ (Config σ)} (ho : o'.Ended) (h : lowerOutcome index o = o') : o = o' := by
  cases o with
  | next c =>
    rw [← h] at ho
    cases ho
  | done results s | halt why s => exact h

section

variable (h : Interprets env.module env low) (hnat : env.module.hasNaturalTypes = true)
  (hv : validate env.module = .ok v)
include h hnat hv

/-- **A run of the original is matched by one of the lowered module that is as long or longer.** -/
theorem runFor_lowered (n : Nat) (hc : Settles env.module v.bodies final (.next c)) :
    ∃ n', n ≤ n' ∧ (runFor low.step n' (lowerConfig (routineIndex env.module) c)).2 = lowerOutcome (routineIndex
      env.module) (runFor env.step n c).2 := by
  induction n generalizing c with
  | zero =>
    exact ⟨0, Nat.le_refl 0, rfl⟩
  | succ n ih =>
    obtain ⟨j, hpos, hj⟩ := runFor_step h hnat hv hc
    have hsettles := settles_step (covered_of_validate hv) hc
    have hended : (env.step c).2.Ended → ∃ n', n + 1 ≤ n' ∧
        (runFor low.step n' (lowerConfig (routineIndex env.module) c)).2 =
          lowerOutcome (routineIndex env.module) (runFor env.step (n + 1) c).2 := by
      intro ho
      refine ⟨j + (n + 1), by omega, ?_⟩
      rw [runFor_succ_ended rfl ho, lowerOutcome_ended ho]
      rw [lowerOutcome_ended ho] at hj
      rw [runFor_ended ho (Prod.ext rfl hj)]
    cases hstep : env.step c with
    | mk es o =>
      rw [hstep] at hj hsettles hended
      cases o with
      | next c' =>
        obtain ⟨n', hle, hn'⟩ := ih hsettles
        refine ⟨j + n', by omega, ?_⟩
        rw [Env.runFor_add_snd hj, hn', runFor_succ_next hstep]
      | done results s | halt why s => exact hended trivial

/-- **The two runs end together.** -/
theorem ends_iff (hc : Settles env.module v.bodies final (.next c)) (ho : o.Ended) :
    (∃ n, (runFor env.step n c).2 = o) ↔ ∃ n, (runFor low.step n (lowerConfig (routineIndex env.module) c)).2 = o := by
  constructor
  · rintro ⟨n, hn⟩
    obtain ⟨n', -, hn'⟩ := runFor_lowered h hnat hv n hc
    rw [hn, lowerOutcome_ended ho] at hn'
    exact ⟨n', hn'⟩
  · rintro ⟨n, hn⟩
    -- The lowered run is over after `n` steps, so the one that matches `n` steps of the original is too.
    obtain ⟨n', hle, hn'⟩ := runFor_lowered h hnat hv n hc
    obtain ⟨k, rfl⟩ := Nat.exists_eq_add_of_le hle
    rw [runFor_ended ho (Prod.ext rfl hn)] at hn'
    exact ⟨n, ended_of_lowerOutcome ho hn'.symm⟩

end

end Kept

/-! ### Faithful lowering -/

/-- Calling a function with arguments of its types ends with the same results or for the same reason, and
with the same store, in two environments, or in neither of them. -/
def SameRuns (m : Module) (env low : Env σ) : Prop :=
  ∀ (f : Nat) (args : List Value) (s : Wasm.Store σ) (c : Config σ), env.start? f args s = some c →
    args.map Value.type = (m.funcType f).params → s.Typed m →
    ∃ c', low.start? f args s = some c' ∧ ∀ o : Outcome σ (Config σ), o.Ended →
      ((∃ n, (runFor env.step n c).2 = o) ↔ ∃ n, (runFor low.step n c').2 = o)

theorem sameRuns {v : Validated} (hv : validate m = .ok v) (hnat : m.hasNaturalTypes = true)
    {env low : Env σ} (h : Interprets m env low) : SameRuns m env low := by
  obtain rfl := h.source
  intro f args s c hstart hargs hs
  obtain ⟨a, ha, rfl⟩ := Option.map_eq_some_iff.mp hstart
  obtain ⟨fn, hf, -⟩ := Option.map_eq_some_iff.mp ha
  obtain ⟨t, cs, ht, -⟩ := function_checked hv hf
  have htype : env.module.funcType f = t := by
    unfold Module.funcType
    rw [ht]
    rfl
  rw [htype] at hargs
  obtain ⟨a', ha', hentry⟩ := settles_entry (covered_of_validate hv) hf ht hargs hs .last
  cases ha.symm.trans ha'
  refine ⟨lowerConfig (routineIndex env.module) ⟨a, [], s⟩, ?_, fun o ho => ends_iff h hnat hv hentry ho⟩
  unfold Env.start?
  rw [activation?_lowered h hnat hf ht, ha]
  rfl

/-- A routine stands at its index, with its code, its type and its name. -/
structure StandsAt (m' : Module) (index : Routine → Nat) (r : Routine) : Prop where
  function : ∃ type : Nat, m'.defined? (index r) = some (r.function index type)
  type : m'.funcType? (index r) = some r.type
  name : m'.names.get? (index r) = some ("softfloat." ++ r.name)

theorem standsAt_routine {r : Routine} (h : r ∈ routinesFor m) : StandsAt (lowered m) (routineIndex m) r := by
  obtain ⟨n, hdefined, -⟩ := defined?_routine h
  exact ⟨⟨n, hdefined⟩, funcType?_routine h, names_routine h⟩

/-- How a lowered module is built from the original one. -/
structure LoweredFrom (m m' : Module) : Prop where
  outside : SameOutside m m'
  functions : ∀ (j : Nat) fn, m.functions[j]? = some fn → m'.functions[j]? = some (lowerFunction (routineIndex m) fn)
  types : ∀ (f : Nat) t, m.funcType? f = some t → m'.funcType? f = some t
  names : ∀ f < m.funcCount, m'.names.get? f = m.names.get? f
  plain : ∀ fn ∈ m'.functions, softOps fn = []
  appended : ∀ (j : Nat) fn, m.functions.length ≤ j → m'.functions[j]? = some fn →
    ∃ r, m.importCount + j = routineIndex m r ∧ StandsAt m' (routineIndex m) r ∧
      ∀ c, .call c ∈ r.code.ops → m.funcCount ≤ routineIndex m c ∧ StandsAt m' (routineIndex m) c
  replaced : ∀ op ∈ softOpsOf m, ∀ ops, replacement? op = some ops → ∀ r, .call r ∈ ops →
    m.funcCount ≤ routineIndex m r ∧ StandsAt m' (routineIndex m) r

theorem loweredFrom_lowered (hnat : m.hasNaturalTypes = true) : LoweredFrom m (lowered m) where
  outside := sameOutside_lowered m
  functions _ _ h := functions_lowered h
  types _ _ h := funcType?_lowered hnat h
  names _ h := names_lowered h
  plain _ h := softOps_lowered h
  appended := by
    intro j fn hj hfn
    obtain ⟨k, rfl⟩ := Nat.exists_eq_add_of_le hj
    have hlt := (List.getElem?_eq_some_iff.mp hfn).1
    rw [length_functions_lowered] at hlt
    have hk : k < (routinesFor m).length := by omega
    have hr := getElem_mem hk
    refine ⟨(routinesFor m)[k], ?_, standsAt_routine hr, fun c hc =>
      ⟨Nat.le_add_right _ _, standsAt_routine (routinesFor_closed hr hc)⟩⟩
    have hnodup : (routinesFor m).Nodup := nodup_required _
    unfold routineIndex Module.funcCount
    rw [hnodup.idxOf_getElem k hk, Nat.add_assoc]
  replaced op hop ops hops r hr :=
    ⟨Nat.le_add_right _ _, standsAt_routine (mem_routinesFor hop hops hr)⟩

/-- **Lowering is faithful.**  It succeeds on every checked module and leaves nothing to be lowered; the
lowered module is the original one with routines behind its functions, and it runs like the original with
each operator read as the function that its replacement computes. -/
theorem lowering_is_faithful {m : Module} {v : Validated} (hv : validate m = .ok v)
    (hnat : m.hasNaturalTypes = true) :
    ∃ v', lower v = .ok v' ∧ validate v'.module = .ok v' ∧ lower v' = .ok v' ∧ LoweredFrom m v'.module ∧
      (∀ {σ : Type} (low : Env σ), low.module = v'.module → CountsDown low →
        (∀ entries ∈ low.tables, ∀ f, some f ∈ entries → f < m.funcCount) → ∃ env, Interprets m env low) ∧
      ∀ {σ : Type} (env low : Env σ), Interprets m env low → low.module = v'.module ∧ SameRuns m env low := by
  obtain ⟨v', hv'⟩ := validate_lowered hv hnat
  obtain ⟨-, hmodule, -⟩ := validate_module hv'
  refine ⟨v', (lower_eq hv).trans hv', by rw [hmodule]; exact hv', ?_, ?_, ?_, ?_⟩
  · rw [lower_eq hv', lowered_eq_self (softOpsOf_lowered m)]
    exact hv'
  · rw [hmodule]
    exact loweredFrom_lowered hnat
  · intro σ low hlow hc htables
    exact exists_interprets hv hnat (hlow.trans hmodule) hc htables
  · intro σ env low h
    exact ⟨h.target.trans hmodule.symm, sameRuns hv hnat h⟩

/-- The two operators that the loops of routines count with. -/
def countingNum : NumOp → List Value → Except Halt Value
  | .intBin .x64 .sub, [.i64 x, .i64 y] => .ok (.i64 (x - y))
  | .intRel .x64 .gtS, [.i64 x, .i64 y] => .ok (.i32 (if y.slt x then 1 else 0))
  | _, _ => .error (.trap .divideByZero)

/-- A module on its own, with the two operators that the loops of routines count with. -/
def countingEnv (m : Module) : Env Unit :=
  { Env.bare m with
    num := countingNum
    num_type := by
      intro op args v h
      unfold countingNum at h
      split at h <;> cases h <;> rfl
    num_stop := by
      intro op args e _ h
      unfold countingNum at h
      split at h <;> cases h
      intro hstuck
      cases hstuck }

/-- A function that adds two numbers and takes the root of their sum. -/
def rootOfSum : Module :=
  { Module.empty with
    types := [⟨[.f32, .f32], [.f32]⟩]
    functions := [⟨0, [], [.localGet 0, .localGet 1, .num (.floatBin .x32 .add),
      .num (.floatUn .x32 .sqrt), .end_].map Placed.new, 0⟩] }

theorem lowering_is_faithful_rootOfSum :
    ∃ v v', validate rootOfSum = .ok v ∧ lower v = .ok v' ∧
      ∃ env, Interprets rootOfSum env (countingEnv v'.module) ∧
        SameRuns rootOfSum env (countingEnv v'.module) := by
  have hok : (validate rootOfSum).isOk = true := by decide
  obtain ⟨v, hv⟩ := Except.exists_ok hok
  obtain ⟨v', hlower, -, -, -, hread, hsame⟩ := lowering_is_faithful hv (by decide)
  have hcounts : CountsDown (countingEnv v'.module) := ⟨fun _ _ => rfl, fun _ _ => rfl⟩
  obtain ⟨env, henv⟩ := hread _ rfl hcounts (by rintro _ ⟨⟩)
  exact ⟨v, v', hv, hlower, env, henv, (hsame env _ henv).2⟩

/-- A function whose type is counted from the last one. -/
def lastTyped : Module :=
  { Module.empty with
    types := [⟨[], []⟩]
    functions := [⟨-1, [], [.const .f32 0, .const .f32 0, .num (.floatBin .x32 .add), .drop,
      .end_].map Placed.new, 0⟩] }

/-- The types of routines come behind the types that are there, and a negative index finds one of them: a
checked module may not be checked any more after it is lowered. -/
theorem lastTyped_not_lowered :
    (validate lastTyped).isOk = true ∧ (validate lastTyped >>= lower).isOk = false := by
  decide

end SoftFloat

end ScoreWasm
