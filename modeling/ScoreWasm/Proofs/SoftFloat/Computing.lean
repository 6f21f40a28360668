import ScoreWasm.Proofs.SoftFloat.Finish
import ScoreWasm.Proofs.SoftFloat.Recheck
import ScoreWasm.Proofs.Wasm.Tracking

/-!
# What replaces an operator computes a function

The code that replaces an operator takes its operands from the stack and leaves one value there, or ends
the run; it changes nothing else, and what it does depends only on the operands.  So an operator that is
replaced can be read as the function that its replacement computes.
-/

namespace ScoreWasm

open Wasm Validate List

variable {σ : Type} {res : Except Halt Value} {callee : Activation} {t : FuncType} {ops : List Op}
  {v : Value} {why : Halt}

namespace SoftFloat

variable {env low : Env σ} {a : Activation} {rest : List Instr} {stack args : List Value}
  {r : Except Halt Value} {op : NumOp} {m : Module}

/-! ### Functions of operands -/

/-- Running an activation leads to a value on top of a stack and to the code after it, or to an early
end. -/
def Gives (env : Env σ) (a : Activation) (rest : List Instr) (stack : List Value) : Except Halt Value → Prop
  | .ok v => env.Leads a { a with code := rest, stack := v :: stack }
  | .error why => env.Yields a (.error why)

/-- Code computes an outcome from its operands, wherever it stands. -/
def Computes (env : Env σ) (index : Routine → Nat) (ops : List Op) (args : List Value) (r : Except Halt Value) : Prop :=
  ∀ (a : Activation) (rest : List Instr) (stack : List Value),
    a.code = ops.map (Op.instr index) ++ rest → a.stack = args.reverse ++ stack → Gives env a rest stack r

/-- An outcome has a type, or is an early end for a reason. -/
def IsOf (results : List ValType) : Except Halt Value → Prop
  | .ok v => [v.type] = results
  | .error why => why ≠ .stuck

theorem Gives.of_leads {a' : Activation} (h : env.Leads a a') (hfunc : a'.func = a.func)
    (hlabels : a'.labels = a.labels) (hlocals : a'.locals = a.locals) (k : Gives env a' rest stack r) :
    Gives env a rest stack r := by
  cases r with
  | ok v =>
    refine h.trans ?_
    have : { a' with code := rest, stack := v :: stack } = { a with code := rest, stack := v :: stack } := by
      rw [hfunc, hlabels, hlocals]
    exact this ▸ k
  | error why => exact h.yields k

/-- What is given is given after some steps, like the result of an operator. -/
theorem Gives.run {inputs : Nat} (h : Gives env a rest (a.stack.drop inputs) r) (hne : rest ≠ a.code)
    (waiting : List Activation) (s : Wasm.Store σ) : ∃ n, 0 < n ∧ (runFor env.step n ⟨a, waiting, s⟩).2 =
      Env.proceed a rest inputs waiting s (r.map (fun v => ([v], a.locals, s))) := by
  cases r with
  | ok v =>
    obtain ⟨n, hn⟩ := h waiting s
    refine ⟨n, Nat.pos_of_ne_zero ?_, hn⟩
    rintro rfl
    exact hne (congrArg (fun c => c.active.code) (Outcome.next.inj hn)).symm
  | error why =>
    obtain ⟨n, hn⟩ := h waiting s
    refine ⟨n, Nat.pos_of_ne_zero ?_, hn⟩
    rintro rfl
    cases hn

/-- Without a state for the hosts there is no run. -/
theorem gives_of_empty (h : ¬Nonempty σ) (r : Except Halt Value) : Gives env a rest stack r := by
  cases r with
  | ok v | error why => exact fun _ s => absurd ⟨s.host⟩ h

section Steps

variable {index : Routine → Nat}

theorem computes_num (op : NumOp) (hargs : args.map Value.type = op.type.params) :
    Computes env index [.plain (.num op)] args (env.num op args) := by
  intro a rest stack hcode hstack
  have hlen : op.type.params.length = args.reverse.length := by
    rw [← hargs, length_map, length_reverse]
  have hinputs : (Instr.num op).inputs env.module = args.reverse.length := hlen
  have hargs' : (a.stack.take ((Instr.num op).inputs env.module)).reverse = args := by
    rw [hinputs, hstack, take_left, reverse_reverse]
  have hdrop : a.stack.drop ((Instr.num op).inputs env.module) = stack := by
    rw [hinputs, hstack, drop_left]
  cases hnum : env.num op args with
  | error why =>
    refine Env.yields_of_step fun waiting s => ?_
    rw [Env.step_isLocal (i := .num op) rfl hcode, hargs']
    simp only [Env.plain, hnum]
    rfl
  | ok v =>
    refine Env.leads_of_step fun waiting s => ?_
    rw [Env.step_isLocal (i := .num op) rfl hcode, hargs', hdrop.symm]
    simp only [Env.plain, hnum]
    rfl

theorem isOf_num (op : NumOp) (hargs : args.map Value.type = op.type.params) :
    IsOf op.type.results (env.num op args) := by
  cases h : env.num op args with
  | ok v => exact env.num_type op args v h
  | error why => exact env.num_stop op args why hargs h

end Steps

/-! ### Calls of routines -/

/-- Results have their types, or there is an early end for a reason. -/
def ResultsOf (results : List ValType) : Except Halt (List Value) → Prop
  | .ok vs => vs.map Value.type = results
  | .error why => why ≠ .stuck

/-- A store whose globals have the types that a module declares. -/
def zeroStore (m : Module) (host : σ) : Wasm.Store σ :=
  ⟨m.globalTypes.map (fun g => .zero g.type), ⟨0, fun _ => 0⟩, host⟩

theorem typed_zeroStore (m : Module) (host : σ) : (zeroStore m host).Typed m := by
  unfold Store.Typed zeroStore
  rw [map_map]
  exact map_congr_left fun g _ => Value.type_zero g.type

/-- How a checked function ends, once it is known that it does. -/
theorem resultsOf_yields {bodies : List (List Checked)} (hcov : Covered env.module bodies) (host : σ) {f : Nat}
    {fn : Function} (hf : env.module.defined? f = some fn) (ht : env.module.funcType? f = some t)
    (hargs : args.map Value.type = t.params) (hcallee : env.activation? f args = some callee)
    {r : Except Halt (List Value)} (h : env.Yields callee r) : ResultsOf t.results r := by
  obtain ⟨a, ha, hentry⟩ := settles_entry hcov hf ht hargs (typed_zeroStore env.module host) .last
  cases hcallee.symm.trans ha
  obtain ⟨n, hn⟩ := h [] (zeroStore env.module host)
  have hrun := settles_run hcov n hentry
  rw [hn] at hrun
  cases r with
  | ok vs | error why => exact hrun.1

theorem Routine.results_type (r : Routine) : ∃ t, r.type.results = [t] := by
  cases r <;> exact ⟨_, rfl⟩

section Lowered

variable {bodies : List (List Checked)}

variable {index : Routine → Nat}

theorem funcType_routine (henv : env.module = lowered m) {r : Routine} (hr : r ∈ routinesFor m) :
    env.module.funcType (routineIndex m r) = r.type := by
  unfold Module.funcType
  rw [henv, funcType?_routine hr]
  rfl

/-- A call computes how the activation that it starts comes to an end. -/
theorem computes_of_yields {r : Routine}
    (htype : env.module.funcType (index r) = r.type) (himp : env.module.isImport (index r) = false)
    (hlength : args.length = r.type.params.length) (hcallee : env.activation? (index r) args = some callee)
    (h : env.Yields callee (res.map ([·]))) : Computes env index [.call r] args res := by
  intro a rest stack hcode hstack
  have hargs : env.callArgs (index r) a.stack = args := by
    unfold Env.callArgs
    rw [htype, hstack, ← hlength, ← length_reverse, take_left, reverse_reverse]
  rw [← hargs] at hcallee
  cases res with
  | error why => exact Env.yields_call hcode himp hcallee h
  | ok v =>
    have hleads := Env.leads_call hcode himp hcallee h
    rw [htype, hstack, ← hlength, ← length_reverse, drop_left] at hleads
    exact hleads

section

variable (henv : env.module = lowered m) (hc : CountsDown env) (hcov : Covered env.module bodies) (host : σ)
include henv hc hcov host

/-- **A call of a routine computes a function of its operands.** -/
theorem computes_call {r : Routine} (hr : r ∈ routinesFor m) (hargs : args.map Value.type = r.type.params) :
    ∃ res, Computes env (routineIndex m) [.call r] args res ∧ IsOf r.type.results res := by
  obtain ⟨himp, hall⟩ := finishes_routine henv hc _ (Nat.lt_succ_self _) hr
  obtain ⟨callee, res, hcallee, hres⟩ := hall args
  obtain ⟨n, hdefined, -⟩ := defined?_routine hr
  have htype := funcType?_routine hr
  rw [← henv] at hdefined htype
  have hof := resultsOf_yields hcov host hdefined htype hargs hcallee hres
  have hlength : args.length = r.type.params.length := by rw [← hargs, length_map]
  have hcomputes : ∀ res : Except Halt Value, env.Yields callee (res.map ([·])) → Computes env _ [.call r] args res :=
    fun _ => computes_of_yields (funcType_routine henv hr) himp hlength hcallee
  cases res with
  | error why => exact ⟨.error why, hcomputes (.error why) hres, hof⟩
  | ok vs =>
    obtain ⟨t, ht⟩ := r.results_type
    obtain ⟨v, rfl, hv⟩ := map_eq_singleton_iff.mp (hof.trans ht)
    exact ⟨.ok v, hcomputes (.ok v) hres, by rw [ht, ← hv]; rfl⟩

/-- One step of what replaces an operator. -/
theorem computes_op {o : Op} (ht : o.type? = some t) (hr : ∀ r, o = .call r → r ∈ routinesFor m)
    (hargs : args.map Value.type = t.params) :
    ∃ res, Computes env (routineIndex m) [o] args res ∧ IsOf t.results res := by
  cases o with
  | plain i =>
    cases i with
    | num op =>
      cases ht
      exact ⟨_, computes_num op hargs, isOf_num op hargs⟩
    | _ => cases ht
  | call r =>
    cases ht
    exact computes_call henv hc hcov host (hr r rfl) hargs

end

/-- Two steps of which the first one prepares the last operand of the second one. -/
theorem computes_both {o1 o2 : Op} {xs ys : List Value} {v : Value} {res : Except Halt Value}
    (h1 : Computes env index [o1] ys (.ok v)) (h2 : Computes env index [o2] (xs ++ [v]) res) :
    Computes env index [o1, o2] (xs ++ ys) res := by
  intro a rest stack hcode hstack
  have hleads := h1 a (o2.instr index :: rest) (xs.reverse ++ stack) hcode (by
    rw [hstack, reverse_append, append_assoc])
  refine Gives.of_leads hleads rfl rfl rfl (h2 _ rest stack rfl ?_)
  simp

theorem computes_first {o1 o2 : Op} {xs ys : List Value} (h1 : Computes env index [o1] ys (.error why)) :
    Computes env index [o1, o2] (xs ++ ys) (.error why) := by
  intro a rest stack hcode hstack
  exact h1 a (o2.instr index :: rest) (xs.reverse ++ stack) hcode (by
    rw [hstack, reverse_append, append_assoc])

/-- **What replaces an operator computes a function of its operands.** -/
theorem computes_replacement (henv : env.module = lowered m) (hc : CountsDown env)
    (hcov : Covered env.module bodies) (host : σ) {op : NumOp} (hops : replacement? op = some ops)
    (hr : ∀ r, .call r ∈ ops → r ∈ routinesFor m) (hargs : args.map Value.type = op.type.params) :
    ∃ res, Computes env (routineIndex m) ops args res ∧ IsOf op.type.results res := by
  rcases replacement_cases hops with ⟨o, rfl, ht⟩ | ⟨o1, o2, first, last, u, outs, rfl, ht1, ht2, htype⟩
  · exact computes_op henv hc hcov host ht (fun r ho => hr r (by simp [ho])) hargs
  · rw [htype] at hargs ⊢
    obtain ⟨xs, ys, rfl, hxs, hys⟩ := map_eq_append_iff.mp hargs
    obtain ⟨res, hres, hof⟩ := computes_op henv hc hcov host ht1 (fun r ho => hr r (by simp [ho])) hys
    cases res with
    | error why => exact ⟨.error why, computes_first hres, hof⟩
    | ok v =>
      have hv : v.type = u := (List.cons.inj hof).1
      have hboth : (xs ++ [v]).map Value.type = first ++ [u] := by
        rw [map_append, hxs, ← hv]
        rfl
      obtain ⟨res, hres2, hof2⟩ := computes_op henv hc hcov host ht2 (fun r ho => hr r (by simp [ho])) hboth
      exact ⟨res, computes_both hres hres2, hof2⟩

end Lowered

/-! ### Reading operators as functions -/

/-- Two environments for a module and its lowered form that agree on everything outside, while the first one
reads each operator that is replaced as the function that its replacement computes in the second one. -/
structure Interprets (m : Module) (env low : Env σ) : Prop where
  source : env.module = m
  target : low.module = lowered m
  pageLimit : low.pageLimit = env.pageLimit
  tables : low.tables = env.tables
  host : ∀ f : Nat, m.isImport f = true → low.host f = env.host f
  num : ∀ op, replacement? op = none → low.num op = env.num op
  soft : ∀ op ∈ softOpsOf m, ∀ ops args, replacement? op = some ops →
    args.map Value.type = op.type.params → Computes low (routineIndex m) ops args (env.num op args)

open Classical in
/-- An operator as the function that its replacement computes, if there is one. -/
noncomputable def readOp (m : Module) (low : Env σ) (op : NumOp) (args : List Value) : Except Halt Value :=
  match replacement? op with
  | none => low.num op args
  | some ops =>
    if h : ∃ res, Computes low (routineIndex m) ops args res ∧ IsOf op.type.results res then h.choose
    else .error (.trap .unreachable)

theorem isOf_readOp (m : Module) (low : Env σ) (hops : replacement? op = some ops)
    (args : List Value) : IsOf op.type.results (readOp m low op args) := by
  unfold readOp
  rw [hops]
  dsimp only
  split
  next hex => exact hex.choose_spec.2
  next =>
    intro hstuck
    cases hstuck

theorem readOp_of_none (m : Module) (low : Env σ) (hops : replacement? op = none) : readOp m low op = low.num op := by
  funext args
  unfold readOp
  rw [hops]

theorem readOp_type (h : readOp m low op args = .ok v) : [v.type] = op.type.results := by
  cases hops : replacement? op with
  | none =>
    rw [readOp_of_none m low hops] at h
    exact low.num_type op args v h
  | some ops =>
    have hof := isOf_readOp m low hops args
    rw [h] at hof
    exact hof

theorem readOp_stop (hargs : args.map Value.type = op.type.params)
    (h : readOp m low op args = .error why) : why ≠ .stuck := by
  cases hops : replacement? op with
  | none =>
    rw [readOp_of_none m low hops] at h
    exact low.num_stop op args why hargs h
  | some ops =>
    have hof := isOf_readOp m low hops args
    rw [h] at hof
    exact hof

theorem funcType_lowered (hnat : m.hasNaturalTypes = true) {f : Int}
    (h : (m.funcType? f).isSome = true) : (lowered m).funcType f = m.funcType f := by
  obtain ⟨t, ht⟩ := Option.isSome_iff_exists.mp h
  unfold Module.funcType
  rw [funcType?_lowered hnat ht, ht]

/-- The environment of a module that reads its operators in that of the lowered module. -/
noncomputable def readingEnv (m : Module) (low : Env σ) (hlow : low.module = lowered m)
    (hnat : m.hasNaturalTypes = true)
    (htables : ∀ entries ∈ low.tables, ∀ f, some f ∈ entries → f < m.funcCount) : Env σ where
  module := m
  num := readOp m low
  host f args s := if (m.funcType? f).isSome then low.host f args s else .error (.trap .unreachable)
  pageLimit := low.pageLimit
  tables := low.tables
  num_type _ _ _ h := readOp_type h
  num_stop _ _ _ hargs h := readOp_stop hargs h
  host_type := by
    intro f args s vs s' h
    split at h
    · rename_i hsome
      have := low.host_type f args s vs s' h
      rw [hlow, funcType_lowered hnat hsome] at this
      exact this
    · cases h
  host_stop := by
    intro f args s e h
    split at h
    · exact low.host_stop f args s e h
    · cases h
      intro hstuck
      cases hstuck
  table_lt := htables

/-- **Every environment of a lowered module gives the operators of the module a meaning.** -/
theorem exists_interprets {v : Validated} (hv : validate m = .ok v)
    (hnat : m.hasNaturalTypes = true) (hlow : low.module = lowered m) (hc : CountsDown low)
    (htables : ∀ entries ∈ low.tables, ∀ f, some f ∈ entries → f < m.funcCount) : ∃ env, Interprets m env low := by
  obtain ⟨v', hv'⟩ := validate_lowered hv hnat
  refine ⟨readingEnv m low hlow hnat htables, rfl, hlow, rfl, rfl, ?_, ?_, ?_⟩
  · intro f hf
    have hlt : f < m.funcCount := by
      simp only [Module.isImport, decide_eq_true_eq] at hf
      unfold Module.funcCount
      omega
    obtain ⟨t, ht⟩ := funcType?_of_validate hv hnat hlt
    funext args s
    show _ = if (m.funcType? f).isSome then low.host f args s else _
    rw [ht]
    rfl
  · intro op hop
    exact (readOp_of_none m low hop).symm
  · intro op hop ops args hops hargs
    show Computes low (routineIndex m) ops args (readOp m low op args)
    by_cases hhost : Nonempty σ
    · obtain ⟨host⟩ := hhost
      have hcov : Covered low.module v'.bodies := hlow ▸ covered_of_validate hv'
      have hex := computes_replacement hlow hc hcov host hops (fun r hr => mem_routinesFor hop hops hr) hargs
      unfold readOp
      rw [hops]
      simp only [dif_pos hex]
      exact hex.choose_spec.1
    · intro a rest stack _ _
      exact gives_of_empty hhost _

end SoftFloat

end ScoreWasm
