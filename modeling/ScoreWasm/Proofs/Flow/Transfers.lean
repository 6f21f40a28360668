import ScoreWasm.Proofs.Flow.Preservation

/-!
# Branches and calls are followed

The instructions that pass control to elsewhere: branches to labels, returns, and calls.  A conditional
branch enters a block that amounts to the branch; a call saves the operands below its arguments.
-/

namespace ScoreWasm.Flow

open Wasm List Build
open Wasm.Validate (Stacks Frame FrameKind Note isFlat opened? checked firstStacks)

variable {σ : Type} {env : Env σ} {bodies : List (List Checked)} {graphs : List Graph} {f : Nat}
  {t : FuncType} {args : List Value}

/-- An index that chooses among all elements but the last one, which stands for all others. -/
theorem getElem?_min_length {α : Type} (xs : List α) (x z : α) (n : Nat) : (xs ++ [x])[min n xs.length]? =
      some (((xs ++ [x]).dropLast[n]?).getD ((xs ++ [x]).getLastD z)) := by
  rw [dropLast_concat]
  by_cases hn : n < xs.length
  · rw [Nat.min_eq_left (Nat.le_of_lt hn), getElem?_append_left hn, getElem?_eq_getElem hn]
    rfl
  · have hnone : xs[n]? = none := getElem?_eq_none (by omega)
    rw [hnone, Nat.min_eq_right (by omega), getElem?_concat_length]
    simp

theorem length_operandsBelow {n : Nat} {stack : List Operand} (h : n ≤ stack.length) :
    (operandsBelow n stack).length = n := by
  unfold operandsBelow slice bound
  rw [length_map, length_drop, length_take, if_pos (by omega), if_pos (by omega)]
  omega

/-! ### Functions -/

/-- The graphs are those of the functions, each of which has been read from its first place on. -/
def Covers (env : Env σ) (bodies : List (List Checked)) (graphs : List Graph) : Prop :=
  ∀ f fn, env.module.defined? f = some fn → ∃ k : Compiled env bodies graphs f, k.fn = fn ∧
    k.At (fn.body.map Wasm.Placed.instr) (firstStacks k.type) (firstDraft k.type)

theorem covers_ofModule {v : Validated} (hv : validate env.module = .ok v)
    (hg : Graph.ofModule v = .ok graphs) : Covers env v.bodies graphs := by
  intro f fn hf
  obtain ⟨k, graph, final, rfl, hgraph, htype, hshows, hat⟩ := function_read hv hg hf
  refine ⟨⟨k, graph, final, ?_, htype, hshows⟩, rfl, hat⟩
  unfold Module.defined? at hf
  unfold graphOf?
  split at hf
  · cases hf
  · rename_i hnot
    rw [if_neg hnot]
    exact hgraph

/-- **Entering a function**: its code is at the first instruction, its graph at the entry. -/
theorem sim_entry (hcov : Covers env bodies graphs) {fn : Function} (hf : env.module.defined? f = some fn)
    (ht : env.module.funcType? f = some t) (args : List Value) {waiting : List Activation} {g : State σ}
    (hw : Waiting env bodies graphs t.results waiting g.frames) :
    ∃ a, env.activation? f args = some a ∧ Sim env bodies graphs ⟨a, waiting, g.store⟩
      { g with func := f, block := 0, index := 0, locals := fn.firstLocals args } := by
  obtain ⟨k, rfl, hat⟩ := hcov f fn hf
  obtain rfl : k.type = t := Option.some.inj (k.funcType.symm.trans ht)
  refine ⟨_, Env.activation?_eq hf ht args,
    .mk k ⟨hat, ?_⟩ rfl (firstDraft_open k.type) ⟨rfl, .nil, rfl, rfl, hw⟩⟩
  intro n l hl hloop
  rw [eq_of_mem_singleton (mem_of_getElem? hl)] at hloop
  cases hloop

namespace Meets

variable {c : Config σ} {g : State σ} {final : List ValType} {k : Compiled env bodies graphs c.active.func} {i : Instr}
  {rest : List Instr} {s s' : Stacks} {d d' : Draft} {offset : Nat} {note : Note}

variable {stack top : List Value} {v : Value} {l : Int} {ts below : List ValType}

/-! ### Branches -/

section

variable (h : Meets final c g k i rest s d offset note s' d')

include h

/-- The operands left after the topmost one has been taken. -/
theorem carries_tail (hstack : c.active.stack = v :: stack) (b n : Nat) :
    Carries c k stack { g with block := b, index := n } := by
  have hslots := h.carries.slots
  rw [hstack] at hslots
  exact h.carries.with_slots (Slots.HoldsStack.cons.mp hslots).1 b n

theorem slot_top (hstack : c.active.stack = v :: stack) :
    ((checked i offset s note).height : Int) - 1 = stack.length ∧ g.slots stack.length = v := by
  have hslots := h.carries.slots
  rw [hstack] at hslots
  refine ⟨?_, (Slots.HoldsStack.cons.mp hslots).2⟩
  show ((s.vals.length : Nat) : Int) - 1 = _
  rw [h.height, hstack, length_cons]
  omega

/-- A block that amounts to a branch has been entered. -/
theorem follows_edge (hi : isFlat i = true) (hstack : c.active.stack = v :: stack) {label : Int}
    {b : Nat} (hreach : Validate.Reaches s.frames (stack.map Value.type) label)
    (hedge : Build.Edge ⟨env.module, c.active.func, k.type⟩ d' label stack.length b)
    (hstep : Flow.step env graphs g = ([], g.goto b)) :
    ∃ n, Follows env bodies graphs (n + 1) [] (c.branch { c.active with code := rest, stack := stack } label) g := by
  have hcarries := h.carries_tail hstack b 0
  obtain ⟨r, hr, rfl | hruns⟩ := hedge
  · exact ⟨0, .last hstep (h.direct hi hreach hr rfl hcarries)⟩
  · obtain ⟨n, hn⟩ := h.runs hi hreach hr (hruns.mono h.grows) hcarries
    exact ⟨n + 1, .cons hstep hn⟩

end

theorem followed_br (h : Meets final c g k (.br l) rest s d offset note s' d')
    (hreach : Validate.Reaches s.frames (c.active.stack.map Value.type) l) :
    Followed env bodies graphs c (env.stepInstr c (.br l) rest) g := by
  obtain ⟨hasElse, -, hbuild⟩ := h.build
  obtain ⟨-, r, hr, hruns⟩ := step_br h.wf h.opened hbuild rfl
  replace hr : Build.Branches _ _ _ s.vals.length r := hr
  rw [h.height] at hr
  refine .of_follows (h.runs rfl hreach hr ?_ h.carries)
  rw [h.block]
  exact hruns.mono h.grows

theorem followed_brIf (h : Meets final c g k (.brIf l) rest s d offset note s' d')
    (hts : c.active.stack.map Value.type = .i32 :: ts) (hreach : Validate.Reaches s.frames ts l) :
    Followed env bodies graphs c (env.stepInstr c (.brIf l) rest) g := by
  obtain ⟨hasElse, -, hbuild⟩ := h.build
  obtain ⟨-, hopen, taken, hedge, hterm⟩ := step_brIf h.wf h.opened hbuild rfl
  obtain ⟨cond, stack, hstack, -, rfl⟩ := map_eq_cons_iff.mp hts
  obtain ⟨hheight, hcond⟩ := h.slot_top hstack
  have hstep : Flow.step env graphs g = ([], g.goto (if (g.slots _).bits = 0 then d'.current else taken)) :=
    h.step_term hterm
  rw [hheight] at hstep hedge
  rw [hcond] at hstep
  unfold Env.stepInstr
  simp only [hstack]
  by_cases hzero : cond.bits = 0
  · rw [if_pos hzero] at hstep
    rw [if_pos hzero]
    exact .of_follows ⟨0, .last hstep ((h.carries_tail hstack _ _).sim h.next (h.heads_flat rfl) rfl hopen)⟩
  · rw [if_neg hzero] at hstep
    rw [if_neg hzero]
    exact .of_follows (h.follows_edge rfl hstack hreach hedge hstep)

theorem followed_brTable {ls : List Int} (h : Meets final c g k (.brTable ls l) rest s d offset note s' d')
    (hts : c.active.stack.map Value.type = .i32 :: ts) (hreach : ∀ l' ∈ ls ++ [l], Validate.Reaches s.frames ts l') :
    Followed env bodies graphs c (env.stepInstr c (.brTable ls l) rest) g := by
  obtain ⟨hasElse, -, hbuild⟩ := h.build
  obtain ⟨-, bs, hlen, hedges, hterm⟩ := step_brTable h.wf h.opened hbuild rfl
  obtain ⟨index, stack, hstack, -, rfl⟩ := map_eq_cons_iff.mp hts
  obtain ⟨hheight, hindex⟩ := h.slot_top hstack
  have hstep : Flow.step env graphs g = ([], g.goto ((bs.dropLast[(g.slots _).bits]?).getD (bs.getLastD 0))) :=
    h.step_term hterm
  rw [hheight] at hstep hedges
  rw [hindex] at hstep
  unfold Env.stepInstr
  simp only [hstack]
  -- The labels and the blocks are chosen at the same place.
  have hlabel := getElem?_min_length ls l 0 index.bits
  rw [dropLast_concat, getLastD_concat] at hlabel
  obtain ⟨init, last, rfl⟩ : ∃ init last, bs = init ++ [last] := by
    refine ⟨bs.dropLast, bs.getLast ?_, (dropLast_concat_getLast ?_).symm⟩ <;>
      · rintro rfl
        simp at hlen
  have hinit : init.length = ls.length := by simpa using hlen
  have hblock := getElem?_min_length init last 0 index.bits
  rw [hinit] at hblock
  exact .of_follows (h.follows_edge rfl hstack (hreach _ (mem_of_getElem? hlabel)) (hedges _ _ _ hlabel hblock) hstep)

/-- A return is a branch to the function's own label. -/
theorem followed_ret (h : Meets final c g k .ret rest s d offset note s' d')
    (hreach : Validate.Reaches s.frames (c.active.stack.map Value.type) (-1)) :
    Followed env bodies graphs c (env.stepInstr c .ret rest) g := by
  obtain ⟨hasElse, -, hbuild⟩ := h.build
  obtain ⟨-, hterm⟩ := step_ret h.wf h.opened hbuild rfl
  replace hterm : d'.termAt _ _ = some (.ret ((s.vals.length : Nat) - k.type.results.length)) := hterm
  rw [h.height] at hterm
  refine .of_follows (h.runs rfl hreach (r := (none, .ret (c.active.stack.length - k.type.results.length))) ?_ ?_ h.carries)
  · intro depth scope hdepth hscope
    obtain ⟨depth', fr, l, scope', ht⟩ := h.target rfl hreach
    cases ht.position'.symm.trans hdepth
    cases ht.construct.symm.trans hscope
    have hlt := List.getElem?_eq_some_iff.mp ht.construct |>.1
    have hlen : d'.scopes.length = s.frames.length := by
      rw [(h.within rfl).fills.length, h.place.fits.length]
    rw [position?_neg_one (Nat.zero_lt_of_lt hlt)] at hdepth
    have hfun : fr.kind = .function := (Validate.shaped_get h.place.place.shaped ht.frame).1.mpr (by
      have := Option.some.inj hdepth
      omega)
    unfold Build.JumpsTo
    rw [ht.kind, hfun]
    rfl
  · show k.final.termAt _ _ = _
    rw [h.block]
    exact h.grows.termAt hterm

theorem followed_unreachable {kind : Option Trap} (h : Meets final c g k (.unreachable kind) rest s d offset note s' d') :
    Followed env bodies graphs c (env.stepInstr c (.unreachable kind) rest) g := by
  obtain ⟨hasElse, -, hbuild⟩ := h.build
  obtain ⟨-, hterm⟩ := step_unreachable h.wf h.opened hbuild rfl
  exact .of_follows ⟨0, .last ((h.step_term hterm).trans rfl) ⟨rfl, h.carries.store.symm⟩⟩

/-! ### Calls -/

/-- A call of a host leaves its results in place of the arguments. -/
theorem followed_call_import (h : Meets final c g k (.call f) rest s d offset note s' d')
    (hts : c.active.stack.map Value.type = t.params.reverse ++ below) (htype : env.module.funcType? f = some t)
    (himp : env.module.isImport f = true) : Followed env bodies graphs c (env.stepInstr c (.call f) rest) g := by
  obtain ⟨hasElse, -, hbuild⟩ := h.build
  have hp := step_call_import h.wf h.opened hbuild rfl himp
  have hle : Instr.inputs env.module (.call f) ≤ c.active.stack.length := by
    show (env.module.funcType f).params.length ≤ _
    have hlen := congrArg List.length hts
    rw [funcType_eq htype]
    simp only [length_map, length_append, length_reverse] at hlen
    omega
  have hfollowed := h.placed rfl hle hp
  unfold Env.plain at hfollowed
  unfold Env.stepInstr Env.call
  simp only [Int.toNat_natCast, himp, if_true]
  cases hv : env.host f (c.active.stack.take (Instr.inputs env.module (.call f))).reverse c.store with
  | error e | ok r =>
    simp only [hv] at hfollowed
    exact hfollowed

/-- What a call finds: its arguments, and below them the operands that it saves until it is back. -/
theorem waiting_call (h : Meets final c g k i rest s d offset note s' d') (hi : isFlat i = true) (taken : List Value)
    (hstack : c.active.stack = taken ++ (top ++ stack)) (htop : top.map Value.type = t.params.reverse)
    {ops : List Operand} (hops : stack.length ≤ ops.length) {term : Nat → Terminator}
    (hcalled : Build.Called (operandsBelow stack.length ops) t.results stack.length term g.index d d') :
    Waiting env bodies graphs t.results ({ c.active with code := rest, stack := stack } :: c.waiting)
        (⟨g.func, d'.current, c.active.locals, g.slots.read 0 (operandsBelow stack.length ops).length⟩ :: g.frames) ∧
      g.slots.read stack.length t.params.length = top.reverse := by
  have hslots := h.carries.slots
  rw [hstack] at hslots
  obtain ⟨hbelow, hread⟩ := Slots.HoldsStack.append.mp (Slots.HoldsStack.append.mp hslots).1
  have hlen : top.length = t.params.length := by simpa using congrArg List.length htop
  have hlive := length_operandsBelow hops
  rw [hlen] at hread
  refine ⟨?_, hread⟩
  rw [hlive, show g.slots.read 0 stack.length = stack.reverse from hbelow, h.carries.func]
  exact .some (a := { c.active with code := rest, stack := stack }) k ⟨h.next, h.heads_flat hi⟩ hcalled.here
    hcalled.resume hlive h.carries.waiting

section

variable (hcov : Covers env bodies graphs)
include hcov

theorem follows_enter (h : Meets final c g k i rest s d offset note s' d')
    (hf : f < env.module.funcCount) (himp : env.module.isImport f = false)
    (ht : env.module.funcType? f = some t) {a : Activation} {saved : Saved}
    (hw : Waiting env bodies graphs t.results (a :: c.waiting) (saved :: g.frames)) {es : List Event}
    (hstep : Flow.step env graphs g = (es, enter env { g with frames := saved :: g.frames } f args)) :
    ∃ n, Follows env bodies graphs (n + 1) es (env.call c a f args) g := by
  obtain ⟨fn, hfn⟩ := defined?_isSome hf himp
  obtain ⟨callee, hcallee, hsim⟩ := sim_entry (g := { g with frames := saved :: g.frames }) hcov hfn ht args hw
  unfold enter at hstep
  rw [hfn] at hstep
  unfold Env.call
  rw [himp, hcallee]
  rw [h.carries.store] at hsim hstep
  exact ⟨0, .last hstep hsim⟩

theorem followed_call_defined (h : Meets final c g k (.call f) rest s d offset note s' d')
    (hts : c.active.stack.map Value.type = t.params.reverse ++ below) (hlt : f < env.module.funcCount)
    (htype : env.module.funcType? f = some t) (hnote : note.stack = some ((t.params.reverse ++ below).map some).reverse)
    (himp : env.module.isImport f = false) : Followed env bodies graphs c (env.stepInstr c (.call f) rest) g := by
  obtain ⟨hasElse, -, hbuild⟩ := h.build
  have hcalled := step_call h.wf h.opened hbuild rfl himp
  have hcallee : env.module.funcType f = t := funcType_eq htype
  obtain ⟨top, stack, hstack, htop, rfl⟩ := map_eq_append_iff.mp hts
  have hlen : top.length = t.params.length := by simpa using congrArg List.length htop
  have hbase : ((s.vals.length : Nat) : Int) - t.params.length = (stack.length : Nat) := by
    rw [h.height, hstack, length_append, hlen]
    omega
  simp only [hcallee, checked, hbase, hnote, Option.getD_some] at hcalled
  obtain ⟨hw, hread⟩ := h.waiting_call rfl [] hstack htop (by simp) hcalled
  have hstep := h.step_term hcalled.term
  unfold stepTerm at hstep
  simp only [hread, h.carries.locals, Int.toNat_natCast] at hstep
  unfold Env.stepInstr
  simp only [show Instr.inputs env.module (.call f) = top.length by
    rw [hlen, ← hcallee]; rfl, hstack, take_left, drop_left, Int.toNat_natCast]
  exact .of_follows (h.follows_enter hcov hlt himp htype hw hstep)

theorem followed_callIndirect {type table : Int}
    (h : Meets final c g k (.callIndirect type table) rest s d offset note s' d')
    (hts : c.active.stack.map Value.type = .i32 :: (t.params.reverse ++ below))
    (htype : env.module.typeAt? type = some t)
    (hnote : note.stack = some ((.i32 :: (t.params.reverse ++ below)).map some).reverse) :
    Followed env bodies graphs c (env.stepInstr c (.callIndirect type table) rest) g := by
  obtain ⟨hasElse, -, hbuild⟩ := h.build
  have hcalled := step_callIndirect h.wf h.opened hbuild rfl
  obtain ⟨index, operands, hstack, -, hts⟩ := map_eq_cons_iff.mp hts
  obtain ⟨top, stack, rfl, htop, rfl⟩ := map_eq_append_iff.mp hts
  have hlen : top.length = t.params.length := by simpa using congrArg List.length htop
  have hbase : ((s.vals.length : Nat) : Int) - 1 - t.params.length = (stack.length : Nat) := by
    rw [h.height, hstack, length_cons, length_append, hlen]
    omega
  simp only [htype, checked, hbase, hnote, Option.getD_some] at hcalled
  obtain ⟨hw, hread⟩ := h.waiting_call rfl [index] hstack htop (by simp) hcalled
  have hindex : g.slots ((stack.length : Int) + t.params.length) = index := by
    rw [← (h.slot_top hstack).2, length_append, hlen]
    congr 1
    omega
  have hstep := h.step_term hcalled.term
  unfold stepTerm at hstep
  simp only [hread, hindex, h.carries.store, h.carries.locals] at hstep
  unfold Env.stepInstr
  simp only [htype, Option.getD_some, hstack, ← hlen, take_left, drop_left]
  cases htarget : env.target type table index.bits with
  | error why =>
    simp only [htarget] at hstep
    exact .of_follows ⟨0, .last hstep ⟨rfl, rfl⟩⟩
  | ok f =>
    simp only [htarget] at hstep
    obtain ⟨hf, hft⟩ := target_ok htarget
    rw [htype] at hft
    cases himp : env.module.isImport f with
    | false =>
      simp only [himp, Bool.false_eq_true, if_false] at hstep
      refine .of_follows (h.follows_enter hcov hf himp hft hw ?_)
      rw [hstep]
      unfold enter State.stuck
      rw [h.carries.store]
    | true =>
      simp only [himp, if_true] at hstep
      have hhost := env.host_wellTyped f top.reverse h.tracked.active.typed
      unfold Env.call
      simp only [himp, if_true]
      cases hv : env.host f top.reverse c.store with
      | error why =>
        simp only [hv] at hstep
        exact .of_follows ⟨0, .last hstep ⟨rfl, rfl⟩⟩
      | ok r =>
        obtain ⟨vs, store⟩ := r
        rw [hv] at hhost
        simp only [hv] at hstep
        -- The host's results come back through the frame that was saved for it.
        refine .of_follows (follows_ret (c := { c with
          waiting := { c.active with code := rest, stack := stack } :: c.waiting, store := store }) hstep hw ?_ rfl)
        rw [← funcType_eq hft, ← hhost.1, length_map]

/-- An instruction that neither opens nor ends a construct follows its rule. -/
theorem followed_flat (h : Meets final c g k i rest s d offset note s' d') (hi : isFlat i = true) :
    Followed env bodies graphs c (env.stepInstr c i rest) g := by
  obtain ⟨ts, hts, ht⟩ := h.tracked.typing hi
  cases ht with
  | nop => exact h.followed_nop
  | plain hplain => exact h.followed_plain hplain hts
  | unreachable kind => exact h.followed_unreachable
  | br hreach => exact h.followed_br (hts ▸ hreach)
  | brIf hreach => exact h.followed_brIf hts hreach
  | brTable hreach => exact h.followed_brTable hts hreach
  | ret hfits => exact h.followed_ret (h.tracked.reaches_outermost hts hfits)
  | @call f _ _ _ _ hnonneg hlt htype _ hnote =>
    obtain ⟨n, rfl⟩ : ∃ n : Nat, f = n := ⟨f.toNat, by omega⟩
    cases himp : env.module.isImport n with
    | true => exact h.followed_call_import hts htype himp
    | false => exact h.followed_call_defined hcov hts (Int.ofNat_lt.mp hlt) htype hnote himp
  | callIndirect _ htype _ hnote => exact h.followed_callIndirect hcov hts htype hnote

end

end Meets

end ScoreWasm.Flow
