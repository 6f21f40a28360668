import ScoreWasm.Proofs.Wasm.Operands
import ScoreWasm.Proofs.Wasm.Running

/-!
# Running checked code

Whatever a checked function is called with, it runs as type checking has foreseen it: whenever it comes
to an instruction, the operand stack has the height and the types that were tracked for it, the operands
that the instruction takes are there, and every index that it uses is in range.

One step keeps this up, and an induction gives it for runs of any length.
-/

namespace ScoreWasm.Wasm

open Validate List

variable {σ : Type} {t : FuncType} {f : Nat}

/-! ### Tracked activations -/

/-- What checking has tracked for an instruction is what an activation finds there. -/
structure Agrees (ctx : Context) (s : Stacks) (chk : Checked) (a : Activation) : Prop where
  height : a.stack.length = chk.height
  types : s.vals = (a.stack.map Value.type).map some
  labels : a.labels.length = s.frames.length
  locals : a.locals.map Value.type = ctx.locals
  operands : Found ctx s.frames chk.instr (a.stack.map Value.type)
  call : ∀ f, chk.instr = .call f → chk.stack = some ((a.stack.map Value.type).map some).reverse
  callIndirect : ∀ type table, chk.instr = .callIndirect type table →
    chk.stack = some ((a.stack.map Value.type).map some).reverse
  drop : ∀ v rest, chk.instr = .drop → a.stack = v :: rest → v.type.name ≠ "" → chk.valueType = some v.type
  select : ∀ types c v rest, chk.instr = .select types → a.stack = c :: v :: rest →
    v.type.name ≠ "" → chk.valueType = some v.type

/-- An activation has come to an instruction of the body of its function, as checking has tracked it. -/
def Activation.Tracked (v : Validated) (a : Activation) : Prop :=
  ∃ fn t cs n chk s, v.module.defined? a.func = some fn ∧ v.module.funcType? a.func = some t ∧
    v.bodies[a.func - v.module.importCount]? = some cs ∧ cs[n]? = some chk ∧
    a.code = (fn.body.drop n).map Placed.instr ∧ a.code.head? = some chk.instr ∧
    stacksAfter (context v.module t fn) (fn.body.take n) (firstStacks t) = some s ∧
    Agrees (context v.module t fn) s chk a

/-! ### Steps -/

section Steps

variable {bodies : List (List Checked)} {s s' : Stacks} {final : List ValType} {c : Config σ} {env : Env σ} {k : Source env.module bodies c.active.func} {i : Instr} {rest : List Instr}
  {offset : Nat} {note : Note}

variable {m : Module} {v : Validated}

namespace Meets

variable {bt : BlockType}

theorem settles_block (h : Meets final c k (.block bt) rest s offset note s') :
    Settles env.module bodies final (env.stepInstr c (.block bt) rest).2 := by
  obtain ⟨t, below, ho, hbt, htypes, hframes, hvals⟩ := h.opens rfl
  unfold Env.stepInstr
  simp only [hbt bt (by simp)]
  exact h.enters .block ho h.after hframes hvals (fun j => rfl) (label_forward nofun htypes rfl) htypes

theorem settles_loop (h : Meets final c k (.loop bt) rest s offset note s') :
    Settles env.module bodies final (env.stepInstr c (.loop bt) rest).2 := by
  obtain ⟨t, below, ho, hbt, htypes, hframes, hvals⟩ := h.opens rfl
  unfold Env.stepInstr
  simp only [hbt bt (by simp)]
  refine h.enters .loop ho h.after hframes hvals (fun j => rfl) ?_ htypes
  refine ⟨⟨fun _ => rfl, fun _ => rfl⟩, rfl, height_of_types htypes, fun hk => absurd rfl hk, fun _ => ?_⟩
  refine ⟨s', h.after, rfl, ?_, fun j => by rw [Nat.zero_add]; rfl⟩
  rw [hvals, map_append, low_append _ (by simp), low_eq_self (by simp), map_reverse]

theorem settles_if (h : Meets final c k (.if_ bt) rest s offset note s') :
    Settles env.module bodies final (env.stepInstr c (.if_ bt) rest).2 := by
  obtain ⟨t, below, ho, hbt, htypes, hframes, hvals⟩ := h.opens rfl
  obtain ⟨cond, stack, hstack, -, htypes⟩ := map_eq_cons_iff.mp htypes
  have hother := h.settles_otherwise ho hframes hvals htypes
  unfold Env.stepInstr
  simp only [hbt bt (by simp), hstack]
  split
  · cases harm : afterElse? 0 rest with
    | some code | none =>
      rw [harm] at hother
      exact hother
  · exact h.enters .if_ ho h.after hframes hvals (fun j => rfl) (label_forward nofun htypes rfl) htypes

theorem settles_else (h : Meets final c k .else_ rest s offset note s') :
    Settles env.module bodies final (env.stepInstr c .else_ rest).2 := by
  obtain ⟨f, fs, hf, hk, -, hfound⟩ := step_else h.heights h.check
  obtain ⟨below, htypes, hlen⟩ := hfound _ h.active.knows
  have hget : s.frames[0]? = some f := by
    rw [hf]
    rfl
  have hlt := h.place.shaped.inner hget (by rw [hk]; nofun)
  obtain ⟨s1, hplace, hframes, hvals⟩ := h.place.behind hget hlt
  have hfs : fs ≠ [] := by
    rw [hf] at hlt
    rintro rfl
    cases hlt with
    | step h => cases h
  refine h.leaves hf hfs htypes hlen hplace (by rw [hframes, hf]; rfl) hvals ?_
  intro j
  exact (afterEnd_add (.else_ :: rest) 0 j).symm

theorem settles_end (h : Meets final c k .end_ rest s offset note s') :
    Settles env.module bodies final (env.stepInstr c .end_ rest).2 := by
  obtain ⟨f, fs, hf, -, hs', hfound⟩ := step_end h.heights h.check
  obtain ⟨below, htypes, hlen⟩ := hfound _ h.active.knows
  have hget : s.frames[0]? = some f := by
    rw [hf]
    rfl
  obtain ⟨houter, hresults⟩ := shaped_get h.place.shaped hget
  have hlabels := h.labels.length
  unfold Env.stepInstr
  cases hl : c.active.labels with
  | nil =>
    rw [hl, hf] at hlabels
    cases hlabels
  | cons l ls =>
    cases ls with
    | nil =>
      simp only [hl]
      rw [hl] at hlabels
      have hfun : f.kind = .function := houter.mpr hlabels
      have harity : l.arity = f.type.results.length := by
        rw [(h.labels.each 0 f l hget (by rw [hl]; rfl)).arity, Frame.labelTypes_forward (by rw [hfun]; nofun)]
      refine settles_ret h.active.typed h.active.waits ?_
      rw [map_reverse, harity, types_taken htypes, reverse_reverse]
      exact hresults hfun
    | cons l' ls =>
      simp only [hl]
      have hfun : f.kind ≠ .function := by
        intro hk
        have := houter.mp hk
        rw [← hlabels, hl] at this
        simp at this
      have hfs : fs ≠ [] := by
        rw [hl, hf] at hlabels
        rintro rfl
        cases hlabels
      have hleaves := h.leaves hf hfs htypes hlen h.after (by rw [hs']) (by rw [hs', if_neg hfun]) (fun j => by
        rw [Nat.add_comm]
        rfl)
      rw [hl] at hleaves
      exact hleaves

theorem settles_plain (h : Meets final c k i rest s offset note s') {ins outs below : List ValType}
    (hp : PlainType { context env.module k.type k.fn with offset := offset } i ins outs)
    (htypes : c.active.stack.map Value.type = ins.reverse ++ below)
    (hknows : s'.Knows (outs.reverse ++ below)) :
    Settles env.module bodies final (env.stepInstr c i rest).2 := by
  have hi : isFlat i = true := by cases hp <;> rfl
  have hins := hp.length_inputs env.module
  have hargs : ((c.active.stack.take (i.inputs env.module)).reverse).map Value.type = ins := by
    rw [map_reverse, ← hins, types_taken htypes, reverse_reverse]
  have hbelow : (c.active.stack.drop (i.inputs env.module)).map Value.type = below := by
    rw [← hins, types_left htypes]
  have hrun := env.plain_wellTyped hp rfl hargs h.active.stands.locals h.active.typed
  cases he : env.plain i (c.active.stack.take (i.inputs env.module)).reverse c.active.locals c.store with
  | error why =>
    have hstep : (env.stepInstr c i rest).2 = c.halt why := by
      cases hp <;> (unfold Env.stepInstr; simp only [he])
    rw [he] at hrun
    rw [hstep]
    exact ⟨hrun, h.active.typed⟩
  | ok r =>
    obtain ⟨results, locals, store⟩ := r
    have hstep : (env.stepInstr c i rest).2 = .next { c with
        active := { c.active with
          code := rest
          stack := results.reverse ++ c.active.stack.drop (i.inputs env.module)
          locals := locals }
        store := store } := by
      cases hp <;> (unfold Env.stepInstr; simp only [he])
    rw [he] at hrun
    obtain ⟨hresults, hlocals, hstore⟩ := hrun
    rw [hstep]
    refine h.onward hi ?_ hlocals hstore
    rw [map_append, map_reverse, hresults, hbelow]
    exact hknows

/-- The rule that an instruction follows, with the types that it finds. -/
theorem typing (h : Meets final c k i rest s offset note s') (hi : isFlat i = true) :
    ∃ ts, c.active.stack.map Value.type = ts ∧
      Typing { context env.module k.type k.fn with offset := offset } s.frames i ts note s' :=
  ⟨_, rfl, (step_flat h.heights hi h.check).2 _ h.active.knows⟩

/-- A return is a branch to the outermost block, which is that of the function. -/
theorem reaches_outermost (h : Meets final c k i rest s offset note s') {below : List ValType}
    (hts : c.active.stack.map Value.type = k.type.results.reverse ++ below) (hfits : Fits s.frames below) :
    Reaches s.frames (c.active.stack.map Value.type) (-1) := by
  have hpos : 0 < s.frames.length := length_pos_iff.mpr h.inside
  obtain ⟨fr, hfr⟩ : ∃ fr, s.frames[s.frames.length - 1]? = some fr :=
    ⟨_, getElem?_eq_getElem (Nat.sub_lt hpos Nat.one_pos)⟩
  obtain ⟨houter, hresults⟩ := shaped_get h.place.shaped hfr
  have hfun : fr.kind = .function := houter.mpr (by omega)
  have hreach := Reaches.outermost hfr hfits
  rw [Frame.labelTypes_forward (by rw [hfun]; nofun), hresults hfun] at hreach
  exact hts ▸ hreach

end Meets

/-! ### Calls -/

/-- Every function of the module has been checked from its first instruction on. -/
def Covered (m : Module) (bodies : List (List Checked)) : Prop :=
  ∀ f fn, m.defined? f = some fn → ∃ k : Source m bodies f, k.fn = fn ∧
    k.At (fn.body.map Placed.instr) (firstStacks k.type)

theorem covered_of_validate (hv : validate m = .ok v) : Covered m v.bodies := by
  intro f fn hf
  obtain ⟨t, cs, ht, hcs, hchecked⟩ := function_checked hv hf
  refine ⟨⟨fn, t, cs, hf, ht, hcs⟩, rfl, ⟨0, rfl, rfl, hchecked⟩, ⟨Nat.le_refl 0, trivial⟩, ?_⟩
  exact ⟨⟨fun _ => rfl, fun _ => rfl⟩, fun _ => rfl, trivial⟩

/-- **A function that is entered stands at its first instruction.** -/
theorem settles_entry (hcov : Covered env.module bodies) {fn : Function}
    (hf : env.module.defined? f = some fn) (ht : env.module.funcType? f = some t) {args : List Value}
    (hargs : args.map Value.type = t.params) {waiting : List Activation} {store : Store σ}
    (hstore : store.Typed env.module) (hw : Waits env.module bodies final t.results waiting) :
    ∃ a, env.activation? f args = some a ∧ Settles env.module bodies final (.next ⟨a, waiting, store⟩) := by
  obtain ⟨k, rfl, hplace⟩ := hcov f fn hf
  obtain rfl : k.type = t := Option.some.inj (k.funcType.symm.trans ht)
  refine ⟨_, Env.activation?_eq hf ht args, k, firstStacks k.type,
    ⟨hplace, nofun, ⟨rfl, ?_⟩, types_firstLocals k.fn hargs⟩, ⟨rfl, ?_⟩, hstore, hw⟩
  · intro n fr l hfr hl
    cases n with
    | zero =>
      cases hfr
      cases hl
      exact ⟨⟨nofun, nofun⟩, rfl, rfl, fun _ hk => absurd rfl hk, nofun⟩
    | succ n => cases hl
  · intro fr hfr
    cases mem_singleton.mp hfr
    rfl

namespace Meets

section

variable (hcov : Covered env.module bodies)
include hcov

/-- A call goes on in the function that is called, or behind the call if that is a host. -/
theorem settles_enter (h : Meets final c k i rest s offset note s') (hi : isFlat i = true)
    (hf : f < env.module.funcCount) (ht : env.module.funcType? f = some t) {args stack : List Value}
    (hargs : args.map Value.type = t.params) (hknows : s'.Knows (t.results.reverse ++ stack.map Value.type)) :
    Settles env.module bodies final (env.call c { c.active with code := rest, stack := stack } f args) := by
  unfold Env.call
  cases himp : env.module.isImport f with
  | true =>
    have hhost := env.host_wellTyped f args h.active.typed
    cases he : env.host f args c.store with
    | error why =>
      rw [he] at hhost
      exact ⟨hhost, h.active.typed⟩
    | ok r =>
      rw [he, funcType_eq ht] at hhost
      refine h.onward hi ?_ h.active.stands.locals hhost.2
      rw [map_append, map_reverse, hhost.1]
      exact hknows
  | false =>
    obtain ⟨fn, hfn⟩ := defined?_isSome hf himp
    obtain ⟨hframes, hlabels⟩ := h.labels_flat hi hknows
    have hw : Waits env.module bodies final t.results ({ c.active with code := rest, stack := stack } :: c.waiting) :=
      .call k ⟨h.after, by rw [hframes]; exact h.inside, hlabels, h.active.stands.locals⟩ hknows h.active.waits
    obtain ⟨callee, hcallee, hentry⟩ := settles_entry hcov hfn ht hargs h.active.typed hw
    simp only [Bool.false_eq_true, if_false, hcallee]
    exact hentry

theorem settles_call {f : Int} (h : Meets final c k (.call f) rest s offset note s') {below : List ValType}
    (hts : c.active.stack.map Value.type = t.params.reverse ++ below) (hnonneg : 0 ≤ f) (hlt : f < env.module.funcCount)
    (htype : env.module.funcType? f = some t) (hknows : s'.Knows (t.results.reverse ++ below)) :
    Settles env.module bodies final (env.stepInstr c (.call f) rest).2 := by
  obtain ⟨f, rfl⟩ : ∃ n : Nat, f = n := ⟨f.toNat, by omega⟩
  obtain ⟨top, stack, hstack, htop, rfl⟩ := map_eq_append_iff.mp hts
  have hinputs : Instr.inputs env.module (.call f) = top.length := by
    show (env.module.funcType f).params.length = _
    rw [show env.module.funcType f = t from funcType_eq htype]
    simpa using (congrArg List.length htop).symm
  unfold Env.stepInstr
  simp only [hinputs, hstack, take_left, drop_left, Int.toNat_natCast]
  refine h.settles_enter hcov rfl (Int.ofNat_lt.mp hlt) htype ?_ hknows
  rw [map_reverse, htop, reverse_reverse]

theorem settles_callIndirect {type table : Int} (h : Meets final c k (.callIndirect type table) rest s offset note s')
    {below : List ValType} (hts : c.active.stack.map Value.type = .i32 :: (t.params.reverse ++ below))
    (htype : env.module.typeAt? type = some t) (hknows : s'.Knows (t.results.reverse ++ below)) :
    Settles env.module bodies final (env.stepInstr c (.callIndirect type table) rest).2 := by
  obtain ⟨index, operands, hstack, -, hts⟩ := map_eq_cons_iff.mp hts
  obtain ⟨top, stack, rfl, htop, rfl⟩ := map_eq_append_iff.mp hts
  have hlen : t.params.length = top.length := by simpa using (congrArg List.length htop).symm
  unfold Env.stepInstr
  simp only [htype, Option.getD_some, hstack, hlen, take_left, drop_left]
  cases htarget : env.target type table index.bits with
  | error why => exact ⟨target_error htarget, h.active.typed⟩
  | ok f =>
    obtain ⟨hf, hft⟩ := target_ok htarget
    refine h.settles_enter hcov rfl hf (hft.trans htype) ?_ hknows
    rw [map_reverse, htop, reverse_reverse]

/-- An instruction that neither opens nor ends a construct follows its rule. -/
theorem settles_flat (h : Meets final c k i rest s offset note s') (hi : isFlat i = true) :
    Settles env.module bodies final (env.stepInstr c i rest).2 := by
  obtain ⟨ts, hts, ht⟩ := h.typing hi
  cases ht with
  | nop hknows => exact h.onward rfl (hts ▸ hknows) h.active.stands.locals h.active.typed
  | plain hp _ hknows => exact h.settles_plain hp hts hknows
  | unreachable kind => exact ⟨nofun, h.active.typed⟩
  | br hreach => exact h.settles_branch [] rfl (hts ▸ hreach)
  | brIf hreach hknows =>
    obtain ⟨cond, stack, hstack, -, rfl⟩ := map_eq_cons_iff.mp hts
    unfold Env.stepInstr
    simp only [hstack]
    split
    · exact h.onward rfl hknows h.active.stands.locals h.active.typed
    · exact h.settles_branch [cond] hstack hreach
  | @brTable ls d _ _ _ hreach =>
    obtain ⟨index, stack, hstack, -, rfl⟩ := map_eq_cons_iff.mp hts
    unfold Env.stepInstr
    simp only [hstack]
    refine h.settles_branch [index] hstack (hreach _ ?_)
    cases hl : ls[index.bits]? with
    | none => simp
    | some l => simp [mem_of_getElem? hl]
  | ret hfits => exact h.settles_branch [] rfl (h.reaches_outermost hts hfits)
  | call hnonneg hlt htype _ _ hknows => exact h.settles_call hcov hts hnonneg hlt htype hknows
  | callIndirect _ htype _ _ hknows => exact h.settles_callIndirect hcov hts htype hknows

/-- **Every instruction that was checked keeps to what checking has foreseen.** -/
theorem settles (h : Meets final c k i rest s offset note s') :
    Settles env.module bodies final (env.stepInstr c i rest).2 := by
  cases i with
  | block bt => exact h.settles_block
  | loop bt => exact h.settles_loop
  | if_ bt => exact h.settles_if
  | else_ => exact h.settles_else
  | end_ => exact h.settles_end
  | _ => exact h.settles_flat hcov rfl

end

end Meets

/-! ### Runs -/

/-- The activation meets an instruction, and what was noted about that one in the body. -/
theorem Active.meets {k : Source m bodies c.active.func} (h : Active final c k s) :
    ∃ i rest offset note s' n, Meets final c k i rest s offset note s' ∧
      c.active.code = (k.fn.body.drop n).map Placed.instr ∧
      stacksAfter (context m k.type k.fn) (k.fn.body.take n) (firstStacks k.type) = some s ∧
      k.body[n]? = some (checked i offset s note) := by
  have hplace := h.stands.place
  cases hcode : c.active.code with
  | nil =>
    rw [hcode] at hplace
    exact absurd hplace.frames_nil h.stands.inside
  | cons i rest =>
    rw [hcode] at hplace
    obtain ⟨n, p, note, s', hp, rfl, rfl, hafter, hc, -, hstep, hnext⟩ := hplace.next
    refine ⟨p.instr, _, p.offset, note, s', n, ⟨h, hcode, hstep, hnext⟩, ?_, hafter, hc⟩
    obtain ⟨hlt, rfl⟩ := List.getElem?_eq_some_iff.mp hp
    rw [List.drop_eq_getElem_cons hlt]
    rfl

theorem Active.tracked {k : Source v.module v.bodies c.active.func} (h : Active final c k s) : c.active.Tracked v := by
  obtain ⟨i, rest, offset, note, s', n, hm, hcode, hafter, hc⟩ := h.meets
  refine ⟨k.fn, k.type, k.body, n, checked i offset s note, s, k.defined, k.funcType, k.checked, hc,
    hcode, by rw [hm.code]; rfl, hafter, ?_⟩
  have hknows := h.knows
  obtain ⟨hcall, hindirect, hdrop, hselect⟩ := step_noted hm.heights hknows hm.check
  have hheight : c.active.stack.length = s.vals.length := by
    rw [hknows.vals, length_map, length_map]
  refine ⟨hheight, hknows.vals, h.stands.labels.length, h.stands.locals, ?_, hcall, hindirect, ?_, ?_⟩
  · exact (step_found hm.heights hknows hm.check).of_offset
  · intro v rest hi hstack hn
    exact hdrop v.type (rest.map Value.type) hi (by rw [hstack]; rfl) hn
  · intro types cond v rest hi hstack hn
    exact hselect types cond.type v.type (rest.map Value.type) hi (by rw [hstack]; rfl) hn

theorem settles_step (hcov : Covered env.module bodies) (h : Settles env.module bodies final (.next c)) :
    Settles env.module bodies final (env.step c).2 := by
  obtain ⟨k, s, h⟩ := h
  obtain ⟨i, rest, offset, note, s', n, hm, -⟩ := h.meets
  unfold Env.step
  rw [hm.code]
  exact hm.settles hcov

theorem settles_run (hcov : Covered env.module bodies) (n : Nat) {c : Config σ}
    (h : Settles env.module bodies final (.next c)) : Settles env.module bodies final (runFor env.step n c).2 := by
  induction n generalizing c with
  | zero =>
    exact h
  | succ n ih =>
    have hstep := settles_step hcov h
    cases he : env.step c with
    | mk es o =>
      rw [he] at hstep
      cases o with
      | next c' =>
        rw [runFor_succ_next he]
        exact ih hstep
      | done results store | halt why store =>
        rw [runFor_succ_ended he trivial]
        exact hstep

end Steps

/-- A run has come to an instruction as checking has tracked it, or it has ended with results of the given
types or for a reason of its own. -/
def Outcome.AsTracked (v : Validated) (results : List ValType) : Outcome σ (Config σ) → Prop
  | .next c => c.active.Tracked v
  | .done values _ => values.map Value.type = results
  | .halt why _ => why ≠ .stuck

/-- **Checked code runs as it was checked.**  A function that is called with arguments of its types comes
to every instruction as checking has tracked it, and returns just its results. -/
theorem checked_code_runs_as_tracked {env : Env σ} {v : Validated} (hv : validate env.module = .ok v)
    {f : Nat} {args : List Value} {store : Store σ} {c : Config σ}
    (hstart : env.start? f args store = some c)
    (hargs : args.map Value.type = (env.module.funcType f).params) (hstore : store.Typed env.module)
    (n : Nat) : (runFor env.step n c).2.AsTracked v (env.module.funcType f).results := by
  obtain ⟨-, hm, -⟩ := validate_module hv
  obtain ⟨a, ha, rfl⟩ := Option.map_eq_some_iff.mp hstart
  obtain ⟨fn, hf, -⟩ := Option.map_eq_some_iff.mp ha
  obtain ⟨t, cs, ht, -⟩ := function_checked hv hf
  have htype : env.module.funcType f = t := by
    unfold Module.funcType
    rw [ht]
    rfl
  rw [htype] at hargs ⊢
  have hcov := covered_of_validate hv
  obtain ⟨a', ha', hentry⟩ := settles_entry hcov hf ht hargs hstore .last
  cases ha.symm.trans ha'
  have hrun := settles_run hcov n hentry
  cases ho : (runFor env.step n ⟨a, [], store⟩).2 with
  | next c =>
    rw [ho] at hrun
    obtain ⟨k, s, hactive⟩ := hrun
    obtain ⟨m, bodies⟩ := v
    subst hm
    exact hactive.tracked
  | done results s | halt why s =>
    rw [ho] at hrun
    exact hrun.1

/-- A module on its own: it has no hosts, its tables are empty, and no operator has a result. -/
def Env.bare (m : Module) : Env Unit where
  module := m
  num _ _ := .error (.trap .divideByZero)
  host _ _ _ := .error (.trap .undefinedElement)
  pageLimit := 0
  tables := []
  num_type := by
    intro op args v h
    cases h
  num_stop := by
    intro op args e _ h
    cases h
    intro hstuck
    cases hstuck
  host_type := by
    intro f args s r s' h
    cases h
  host_stop := by
    intro f args s e h
    cases h
    intro hstuck
    cases hstuck
  table_lt := by
    intro t ht
    cases ht

/-- The store of a module without globals and memory. -/
def Store.bare : Store Unit := ⟨[], ⟨0, fun _ => 0⟩, ()⟩

/-- A function that calls another one in a loop with a parameter, and that is left from a branch table
with unreachable code behind it. -/
def loopWithCall : Module :=
  { Module.empty with
    types := [⟨[.i32], [.i32]⟩]
    functions := [⟨0, [], [.localGet 0, .loop (.index 0), .call 1, .localGet 0, .brTable [0] 1,
        .select none, .end_, .end_].map Placed.new, 0⟩,
      ⟨0, [], [.localGet 0, .end_].map Placed.new, 0⟩] }

theorem checked_code_runs_as_tracked_loopWithCall :
    ∃ v c, validate loopWithCall = .ok v ∧ (Env.bare loopWithCall).start? 0 [.i32 5] Store.bare = some c ∧
      ∀ n, (runFor (Env.bare loopWithCall).step n c).2.AsTracked v [.i32] := by
  cases hv : validate loopWithCall with
  | error e =>
    have : (validate loopWithCall).isOk = true := by decide
    rw [hv] at this
    cases this
  | ok v =>
    have hmodule : validate (Env.bare loopWithCall).module = .ok v := hv
    have hargs : [Value.i32 5].map Value.type =
        ((Env.bare loopWithCall).module.funcType (0 : Nat)).params := rfl
    have hstore : Store.bare.Typed (Env.bare loopWithCall).module := rfl
    refine ⟨v, _, rfl, rfl, ?_⟩
    intro n
    exact checked_code_runs_as_tracked hmodule rfl hargs hstore n

/-- A function that calls through a table in a module without tables. -/
def noTables : Module :=
  { Module.empty with
    types := [⟨[], []⟩]
    functions := [⟨0, [], [.const .i32 0, .callIndirect 0 (-1), .end_].map Placed.new, 0⟩] }

/-- A negative index of a table is not looked up: a call through a table that is not there is accepted,
and it is reached. -/
theorem noTables_reaches_missing_table :
    (validate noTables).isOk = true ∧ elementAt? noTables.tableLimits (-1) = none ∧
      ∃ c c', (Env.bare noTables).start? 0 [] Store.bare = some c ∧
        (runFor (Env.bare noTables).step 1 c).2 = .next c' ∧
        c'.active.code.head? = some (.callIndirect 0 (-1)) := by
  refine ⟨by decide, by decide, _, _, rfl, rfl, rfl⟩

end ScoreWasm.Wasm
