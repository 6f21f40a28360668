import ScoreWasm.Proofs.SoftFloat.Computing

/-!
# Running code of routines

Code without control flow is run by evaluation.  Around such pieces there is one rule for each way of putting
code together.  The rules say how a piece of code is left, wherever it stands, and they are all that is needed
to follow a routine from its arguments to its result.
-/

namespace ScoreWasm.SoftFloat

open Wasm List

variable {σ : Type} {args : List Value} {f : Routine} {op : NumOp}

/-- A routine, called with arguments, comes to an end with a result. -/
abbrev Returns (env : Env σ) (index : Routine → Nat) (r : Routine) (args : List Value) (v : Value) : Prop :=
  Computes env index [.call r] args (.ok v)

variable {env : Env σ} {index : Routine → Nat} {rules : Rules} {a : Activation} {rest : List Instr}
  {stack locals stack' locals' : List Value}

/-! ### How code is left -/

/-- How code is left: with operands and variables, or by the end of its activation. -/
inductive Exit where
  | on (stack locals : List Value)
  | out (r : Except Halt (List Value))

/-- From an activation, code before the rest is left in a way. -/
def Exit.From (env : Env σ) (a : Activation) (rest : List Instr) : Exit → Prop
  | .on stack locals => env.Leads a { a with code := rest, stack := stack, locals := locals }
  | .out r => env.Yields a r

/-- The last label is that of a body with one result. -/
def InFunction (a : Activation) : Prop := ∃ l, a.labels.getLast? = some l ∧ l.isLoop = false ∧ l.arity = 1

/-- Wherever code stands in a function with one result, it is left in a way.  If it is whole, then only
where it is the code of the function up to its end. -/
def Does (env : Env σ) (index : Routine → Nat) (whole : Bool) (c : Code) (stack locals : List Value)
    (e : Exit) : Prop :=
  ∀ (a : Activation) (rest : List Instr), a.code = c.ops.map (Op.instr index) ++ rest → a.stack = stack →
    a.locals = locals → InFunction a → (whole = true → rest = [.end_] ∧ a.labels.length = 1) → e.From env a rest

theorem Exit.From.of_leads {e : Exit} {a' : Activation} (h : env.Leads a a') (hfunc : a'.func = a.func)
    (hlabels : a'.labels = a.labels) (k : e.From env a' rest) : e.From env a rest := by
  cases e with
  | on stack locals =>
    unfold Exit.From at k ⊢
    rw [hfunc, hlabels] at k
    exact h.trans k
  | out r => exact h.yields k

theorem Code.append_assoc (a b c : Code) : a ++ b ++ c = a ++ (b ++ c) :=
  congrArg Code.mk (List.append_assoc ..)

theorem Code.instrs_append (index : Routine → Nat) (c d : Code) (rest : List Instr) :
    (c ++ d).ops.map (Op.instr index) ++ rest = c.ops.map (Op.instr index) ++ (d.ops.map (Op.instr index) ++ rest) := by
  rw [← List.append_assoc, ← List.map_append]
  rfl

variable {c d test body yes no : Code} {e : Exit} {whole : Bool} {r : Except Halt (List Value)} {v v' : Value}

namespace Does

theorem append (h : Does env index false c stack locals (.on stack' locals'))
    (k : Does env index whole d stack' locals' e) : Does env index whole (c ++ d) stack locals e := by
  rintro a rest hcode rfl rfl hin hwhole
  rw [c.instrs_append] at hcode
  exact .of_leads (h a _ hcode rfl rfl hin nofun) rfl rfl (k _ rest rfl rfl rfl hin hwhole)

theorem stop (h : Does env index false c stack locals (.out r)) :
    Does env index whole (c ++ d) stack locals (.out r) := by
  rintro a rest hcode rfl rfl hin -
  rw [c.instrs_append] at hcode
  exact h a (d.ops.map (Op.instr index) ++ rest) hcode rfl rfl hin nofun

section

variable (hrules : env.Obeys rules) (h : evaluate rules c.ops stack locals = some (stack', locals'))
include hrules h

theorem eval : Does env index false c stack locals (.on stack' locals') := by
  rintro a rest hcode rfl rfl - -
  exact leads_of_evaluate hrules rest _ _ h hcode

/-- Code without control flow, and what comes after it. -/
theorem step (k : Does env index whole d stack' locals' e) : Does env index whole (c ++ d) stack locals e :=
  (eval hrules h).append k

end

theorem call {codes : List Code}
    (h : Does env index false (codes.foldl (· ++ ·) Code.empty) stack locals (.on (args.reverse ++ stack') locals'))
    (hreturns : Returns env index f args v) :
    Does env index false (.call f codes) stack locals (.on (v :: stack') locals') := by
  refine h.append ?_
  rintro a rest hcode hstack rfl - -
  exact hreturns a rest stack' hcode hstack

theorem trap (kind : Trap) : Does env index whole (.trap kind) stack locals (.out (.error (.trap kind))) := by
  rintro a rest hcode - - - -
  refine Env.yields_of_step fun waiting s => ?_
  simp only [Env.step, show a.code = .unreachable (some kind) :: rest from hcode, Env.stepInstr]
  rfl

section

variable (h : Does env index false c stack locals (.on (v :: stack') locals')) (hv : v = v')
include h hv

theorem ret : Does env index whole c.ret stack locals (.out (.ok [v'])) := by
  subst hv
  refine h.append ?_
  rintro a rest hcode hstack - ⟨l, hl, hloop, harity⟩ -
  have hyields : env.Yields a _ := Env.yields_ret hcode hl hloop
  rwa [harity, hstack] at hyields

theorem finish : Does env index true c stack locals (.out (.ok [v'])) := by
  subst hv
  rintro a rest hcode hstack hlocals ⟨l, hl, hloop, harity⟩ hwhole
  obtain ⟨rfl, hlength⟩ := hwhole rfl
  have hleads := h a [.end_] hcode hstack hlocals ⟨l, hl, hloop, harity⟩ nofun
  obtain ⟨l', hlabels⟩ := length_eq_one_iff.mp hlength
  rw [hlabels] at hl
  obtain rfl : l' = l := Option.some.inj hl
  have hyields : env.Yields { a with code := [.end_], stack := v :: stack', locals := locals' } _ :=
    Env.yields_end rfl hlabels
  rw [harity] at hyields
  exact hleads.yields hyields

end

/-- Code inside of a construct, between what opens the construct and what closes it. -/
theorem inside {close : Instr} {behind : List Instr} {l : Label}
    (h : Does env index false c stack a.locals e) (hin : InFunction a) (hopen : env.Leads a { a with
      code := c.ops.map (Op.instr index) ++ close :: behind, labels := l :: a.labels, stack := stack })
    (hclose : ∀ stack locals, env.Leads
      { a with code := close :: behind, labels := l :: a.labels, stack := stack, locals := locals }
      { a with code := rest, stack := stack, locals := locals }) : e.From env a rest := by
  obtain ⟨f, hf, hfunction⟩ := hin
  have hlast : (l :: a.labels).getLast? = some f := by
    rw [getLast?_cons, hf]
    rfl
  have hbody := h { a with
    code := c.ops.map (Op.instr index) ++ close :: behind, labels := l :: a.labels, stack := stack }
    (close :: behind) rfl rfl rfl ⟨f, hlast, hfunction⟩ nofun
  cases e with
  | on stack' locals' => exact hopen.trans (Env.Leads.trans hbody (hclose stack' locals'))
  | out r => exact hopen.yields hbody

end Does

/-! ### Conditions -/

/-- Code that closes what it opens: looking for the end of a construct goes past it. -/
def Code.Skipped (index : Routine → Nat) (c : Code) : Prop :=
  (fun rest => let code := c.ops.map (Op.instr index) ++ rest
    (afterEnd 0 code, afterElse? 0 code)) = fun rest => (afterEnd 0 rest, afterElse? 0 rest)

variable {behind : List Instr}

theorem Code.Skipped.afterEnd (h : c.Skipped index) :
    Wasm.afterEnd 0 (c.ops.map (Op.instr index) ++ behind) = Wasm.afterEnd 0 behind :=
  congrArg Prod.fst (congrFun h behind)

theorem Code.Skipped.afterElse? (h : c.Skipped index) :
    Wasm.afterElse? 0 (c.ops.map (Op.instr index) ++ behind) = Wasm.afterElse? 0 behind :=
  congrArg Prod.snd (congrFun h behind)

namespace Does

variable {x : BitVec 32} {P : Prop}

theorem bits_i32_eq_zero : (Value.i32 x).bits = 0 ↔ x = 0 := by
  rw [← BitVec.toNat_inj]
  rfl

theorem if_ (hP : x ≠ 0 ↔ P) (hskip : body.Skipped index)
    (hyes : P → Does env index false body stack locals e) (hno : ¬P → e = .on stack locals) :
    Does env index false (.instr (.if_ .empty) ++ body.andThen .end_) (.i32 x :: stack) locals e := by
  rintro a rest hcode hstack rfl hin -
  replace hcode : a.code = .if_ .empty :: (body.ops.map (Op.instr index) ++ .end_ :: rest) := by
    rw [hcode, Code.instrs_append, Code.andThen, Code.instrs_append]
    rfl
  have hne : a.labels ≠ [] := by
    rintro hnil
    simp [InFunction, hnil] at hin
  by_cases hx : P
  · exact (hyes hx).inside hin (Env.leads_if hcode rfl hstack (mt bits_i32_eq_zero.mp (hP.mpr hx)))
      fun _ _ => Env.leads_end rfl rfl hne
  · cases hno hx
    have hbits := bits_i32_eq_zero.mpr (Decidable.not_not.mp (mt hP.mp hx))
    have hleads : env.Leads a _ := Env.leads_if_skip hcode rfl hstack hbits hskip.afterElse?
    rwa [hskip.afterEnd] at hleads

theorem ifElse {bt : BlockType} {t : FuncType} (ht : env.module.blockType? bt = some t) (hP : x ≠ 0 ↔ P)
    (hthen : yes.Skipped index) (helse : no.Skipped index) (hyes : P → Does env index false yes stack locals e)
    (hno : ¬P → Does env index false no stack locals e) : Does env index false
      (.instr (.if_ bt) ++ yes.andThen .else_ ++ no.andThen .end_) (.i32 x :: stack) locals e := by
  rintro a rest hcode hstack rfl hin -
  replace hcode : a.code = .if_ bt :: (yes.ops.map (Op.instr index) ++ .else_ ::
      (no.ops.map (Op.instr index) ++ .end_ :: rest)) := by
    simp only [hcode, Code.instrs_append, Code.andThen]
    rfl
  have hne : a.labels ≠ [] := by
    rintro hnil
    simp [InFunction, hnil] at hin
  by_cases hx : P
  · have hend : afterEnd 0 (no.ops.map (Op.instr index) ++ .end_ :: rest) = rest := helse.afterEnd
    generalize no.ops.map (Op.instr index) ++ .end_ :: rest = behind at hcode hend
    subst hend
    exact (hyes hx).inside hin (Env.leads_if hcode ht hstack (mt bits_i32_eq_zero.mp (hP.mpr hx)))
      fun _ _ => Env.leads_else rfl
  · have hbits := bits_i32_eq_zero.mpr (Decidable.not_not.mp (mt hP.mp hx))
    exact (hno hx).inside hin (Env.leads_if_else hcode ht hstack hbits hthen.afterElse?)
      fun _ _ => Env.leads_end rfl rfl hne

variable (P) (hrules : env.Obeys rules)

include hrules

variable (htest : evaluate rules test.ops stack locals = some (.i32 x :: stack', locals')) (hP : x ≠ 0 ↔ P)

include htest hP

section

variable (hskip : body.Skipped index)
include hskip

/-- Code that is run if a condition holds. -/
theorem under (hyes : P → Does env index false body stack' locals' e) (hno : ¬P → e = .on stack' locals') :
    Does env index false (.when_ test body) stack locals e := by
  rw [Code.when_, Code.andThen, Code.append_assoc]
  exact step hrules htest (if_ hP hskip hyes hno)

/-- A condition with which the activation ends. -/
theorem guard (hyes : P → Does env index false body stack' locals' (.out r))
    (hno : ¬P → Does env index whole c stack' locals' (.out r)) :
    Does env index whole (.when_ test body ++ c) stack locals (.out r) := by
  by_cases hx : P
  · exact (under P hrules htest hP hskip hyes fun hn => absurd hx hn).stop
  · exact (under P hrules htest hP hskip (fun hx' => absurd hx' hx) fun _ => rfl).append (hno hx)

/-- Code that is run if a condition holds, and what comes after it in both cases. -/
theorem fork {stack1 locals1 : List Value} (hyes : P → Does env index false body stack' locals' (.on stack1 locals1))
    (hafter : P → Does env index whole c stack1 locals1 e) (hno : ¬P → Does env index whole c stack' locals' e) :
    Does env index whole (.when_ test body ++ c) stack locals e := by
  by_cases hx : P
  · exact (under P hrules htest hP hskip hyes fun hn => absurd hx hn).append (hafter hx)
  · exact (under P hrules htest hP hskip (fun hx' => absurd hx' hx) fun _ => rfl).append (hno hx)

end

variable (hthen : yes.Skipped index) (helse : no.Skipped index) (hyes : P → Does env index false yes stack' locals' e)
  (hno : ¬P → Does env index false no stack' locals' e)
include hthen helse hyes hno

theorem branch : Does env index false (.branch test yes no) stack locals e := by
  rw [Code.branch, Code.andThen, Code.append_assoc, Code.append_assoc, ← Code.append_assoc (.instr _)]
  exact step hrules htest (ifElse rfl hP hthen helse hyes hno)

theorem choose : Does env index false (.choose test yes no) stack locals e := by
  rw [Code.choose, Code.andThen, Code.append_assoc, Code.append_assoc, ← Code.append_assoc (.instr _)]
  exact step hrules htest (ifElse rfl hP hthen helse hyes hno)

end Does

/-- **A routine of a lowered module computes what its code comes to.** -/
theorem Does.computes {m : Module} {r : Except Halt Value}
    (henv : env.module = lowered m) (hf : f ∈ routinesFor m) (hlength : args.length = f.type.params.length)
    (h : Does env (routineIndex m) true f.code [] (args ++ (List.replicate f.localCount .i64).map Value.zero)
      (.out (r.map ([·])))) : Computes env (routineIndex m) [.call f] args r := by
  obtain ⟨n, hdefined, -⟩ := defined?_routine hf
  have htype := funcType_routine henv hf
  rw [← henv] at hdefined
  obtain ⟨himp, a, ha, hcode, hstack, hlabels, hlocals⟩ := activation?_routine hdefined args
  have hone : f.type.results.length = 1 := by cases f <;> rfl
  rw [htype, hone] at hlabels
  exact computes_of_yields htype himp hlength ha (h a [.end_] hcode hstack hlocals
    ⟨_, by rw [hlabels]; rfl, rfl, rfl⟩ fun _ => ⟨rfl, by rw [hlabels]; rfl⟩)

theorem integerRules_ok (h : integerRules op args = some (.ok v)) : [v.type] = op.type.results := by
  unfold integerRules at h
  split at h
  case h_7 | h_8 =>
    obtain ⟨x, -, rfl⟩ := Except.map_eq_ok.mp (Option.some.inj h)
    rfl
  all_goals cases h <;> rfl

theorem integerRules_error {why : Halt} (h : integerRules op args = some (.error why)) : why ≠ .stuck := by
  have happly : ∀ {n : Nat} {x y : BitVec n} {f : BitVec n → Value} (i : IntBin),
      (i.apply x y).map f = .error why → why ≠ .stuck := by
    intro n x y f i h
    unfold IntBin.apply at h
    split at h <;> (try split at h) <;> (try split at h) <;> cases h <;> nofun
  unfold integerRules at h
  split at h
  case h_7 i x y | h_8 i x y => exact happly i (Option.some.inj h)
  all_goals cases h

/-- A module on its own, with the operators on integers. -/
def integerEnv (m : Module) : Env Unit :=
  { Env.bare m with
    num := fun op args => (integerRules op args).getD (.error (.trap .unreachable))
    num_type := by
      intro op args v h
      cases hr : integerRules op args with
      | none =>
        rw [hr] at h
        cases h
      | some r =>
        rw [hr] at h
        exact integerRules_ok (hr.trans (congrArg some h))
    num_stop := by
      intro op args e _ h
      cases hr : integerRules op args with
      | none =>
        rw [hr] at h
        cases h
        nofun
      | some r =>
        rw [hr] at h
        exact integerRules_error (hr.trans (congrArg some h)) }

theorem module_integerEnv (m : Module) : (integerEnv m).module = m := rfl

theorem obeys_integerEnv (m : Module) : (integerEnv m).Obeys integerRules := by
  intro op args r h
  show (integerRules op args).getD _ = r
  rw [h]
  rfl

/-- A function for each operator. -/
def operatorModule (ops : List NumOp) : Module :=
  { Module.empty with
    types := ops.map NumOp.type
    functions := ops.mapIdx fun i op =>
      ⟨i, [], (op.type.params.mapIdx (fun k _ => .localGet k) ++ [.num op, .end_]).map Placed.new, 0⟩ }

end ScoreWasm.SoftFloat
