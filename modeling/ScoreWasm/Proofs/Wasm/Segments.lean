import ScoreWasm.Proofs.Wasm.Bodies
import ScoreWasm.Proofs.Wasm.Soundness

/-!
# Code that comes to its end

Code without loops and branches is left behind after finitely many steps, or the run of its activation is
over.  This says nothing about types: operators and calls may fail, and then the run is over too.  What the
code does depends only on its activation.  Neither the store nor the activations that wait matter, so it
does the same wherever it is run.
-/

namespace ScoreWasm.Wasm

open List

variable {σ γ α : Type} {results locals : List Value} {code e arm : List Instr}

/-! ### Runs of one activation -/

/-- The outcome when the innermost activation ends, with results or early. -/
def Config.finish (c : Config σ) : Except Halt (List Value) → Outcome σ (Config σ)
  | .ok results => c.ret results
  | .error why => c.halt why

namespace Env

variable {env : Env σ} {a a' b : Activation} {r : Except Halt (List Value)}

/-- Wherever an activation is run, it comes to look like another one. -/
def Leads (env : Env σ) (a a' : Activation) : Prop :=
  ∀ (waiting : List Activation) (s : Store σ), ∃ n, (runFor env.step n ⟨a, waiting, s⟩).2 = .next ⟨a', waiting, s⟩

/-- Wherever an activation is run, it ends in a way. -/
def Yields (env : Env σ) (a : Activation) (r : Except Halt (List Value)) : Prop :=
  ∀ (waiting : List Activation) (s : Store σ),
    ∃ n, (runFor env.step n ⟨a, waiting, s⟩).2 = Config.finish ⟨a, waiting, s⟩ r

theorem Leads.refl (env : Env σ) (a : Activation) : env.Leads a a := fun _ _ => ⟨0, rfl⟩

theorem runFor_add_snd {step : γ → Advance σ γ} {c c' : γ} {m n : Nat}
    (h : (runFor step n c).2 = .next c') : (runFor step (n + m) c).2 = (runFor step m c').2 := by
  rw [runFor_add (Prod.ext rfl h)]

theorem Leads.trans (h : env.Leads a a') (k : env.Leads a' b) : env.Leads a b := by
  intro waiting s
  obtain ⟨n, hn⟩ := h waiting s
  obtain ⟨m, hm⟩ := k waiting s
  exact ⟨n + m, (runFor_add_snd hn).trans hm⟩

theorem Leads.yields (h : env.Leads a a') (k : env.Yields a' r) : env.Yields a r := by
  intro waiting s
  obtain ⟨n, hn⟩ := h waiting s
  obtain ⟨m, hm⟩ := k waiting s
  refine ⟨n + m, (runFor_add_snd hn).trans (hm.trans ?_)⟩
  cases r <;> rfl

theorem leads_of_step (h : ∀ (waiting : List Activation) (s : Store σ),
    (env.step ⟨a, waiting, s⟩).2 = .next ⟨a', waiting, s⟩) : env.Leads a a' := by
  intro waiting s
  refine ⟨1, ?_⟩
  rw [runFor_one]
  exact h waiting s

theorem yields_of_step (h : ∀ (waiting : List Activation) (s : Store σ),
    (env.step ⟨a, waiting, s⟩).2 = Config.finish ⟨a, waiting, s⟩ r) : env.Yields a r := by
  intro waiting s
  refine ⟨1, ?_⟩
  rw [runFor_one]
  exact h waiting s

/-- An activation ends, or comes to a state with a property. -/
def Comes (env : Env σ) (a : Activation) (P : Activation → Prop) : Prop :=
  (∃ r, env.Yields a r) ∨ ∃ a', env.Leads a a' ∧ P a'

theorem Comes.of_leads {P : Activation → Prop} (h : env.Leads a a') (k : env.Comes a' P) : env.Comes a P := by
  rcases k with ⟨r, hr⟩ | ⟨b, hb, hP⟩
  · exact .inl ⟨r, h.yields hr⟩
  · exact .inr ⟨b, h.trans hb, hP⟩

theorem Comes.bind {P Q : Activation → Prop} (h : env.Comes a P) (k : ∀ a', P a' → env.Comes a' Q) : env.Comes a Q := by
  rcases h with hr | ⟨a', ha, hP⟩
  · exact .inl hr
  · exact .of_leads ha (k a' hP)

theorem Comes.imp {P Q : Activation → Prop} (h : env.Comes a P) (k : ∀ a', P a' → Q a') : env.Comes a Q :=
  h.bind (fun a' hP => .inr ⟨a', .refl env a', k a' hP⟩)

/-! ### Calls -/

/-- A function comes to an end for all arguments. -/
def Finishes (env : Env σ) (f : Nat) : Prop :=
  env.module.isImport f = false ∧ ∀ args, ∃ callee r, env.activation? f args = some callee ∧ env.Yields callee r

/-- The arguments of a call. -/
def callArgs (env : Env σ) (f : Int) (stack : List Value) : List Value :=
  (stack.take (env.module.funcType f).params.length).reverse

/-- The activation that waits for the results of a call. -/
def awaiting (env : Env σ) (f : Int) (rest : List Instr) (a : Activation) : Activation :=
  { a with code := rest, stack := a.stack.drop (env.module.funcType f).params.length }

section Call

variable {f : Int} {rest : List Instr} {callee : Activation}

section

variable (hcode : a.code = .call f :: rest) (himp : env.module.isImport f.toNat = false)
  (hcallee : env.activation? f.toNat (env.callArgs f a.stack) = some callee)
include hcode himp hcallee

/-- A call comes to what its callee ends with. -/
theorem runFor_call (h : env.Yields callee r) (waiting : List Activation) (s : Store σ) :
    ∃ n, (runFor env.step n ⟨a, waiting, s⟩).2 = Config.finish ⟨callee, env.awaiting f rest a :: waiting, s⟩ r := by
  obtain ⟨n, hn⟩ := h (env.awaiting f rest a :: waiting) s
  refine ⟨1 + n, (runFor_add_snd ?_).trans hn⟩
  rw [runFor_one]
  unfold Env.step
  simp only [hcode]
  show env.call _ _ f.toNat (env.callArgs f a.stack) = _
  unfold Env.call
  rw [if_neg (by rw [himp]; exact Bool.false_ne_true), hcallee]
  rfl

theorem leads_call (h : env.Yields callee (.ok results)) : env.Leads a { a with
      code := rest
      stack := results.reverse ++ a.stack.drop (env.module.funcType f).params.length } :=
  runFor_call hcode himp hcallee h

theorem yields_call {why : Halt} (h : env.Yields callee (.error why)) : env.Yields a (.error why) :=
  runFor_call hcode himp hcallee h

end

end Call

end Env

/-! ### Instructions without control flow -/

/-- An instruction that only works on operands, locals and the store. -/
def Instr.isPlain : Instr → Bool
  | .drop | .select _ | .localGet _ | .localSet _ | .localTee _ | .globalGet _ | .globalSet _ => true
  | .load _ _ | .store _ _ | .memorySize | .memoryGrow | .const _ _ | .num _ => true
  | _ => false

/-- An instruction that only works on operands and locals. -/
def Instr.isLocal : Instr → Bool
  | .drop | .select _ | .localGet _ | .localSet _ | .localTee _ | .const _ _ | .num _ => true
  | _ => false

theorem Instr.isPlain_of_isLocal (i : Instr) (h : i.isLocal = true) : i.isPlain = true := by
  cases i with
  | drop | select _ | localGet _ | localSet _ | localTee _ | const _ _ | num _ => rfl
  | _ => cases h

/-- Whether an instruction may set a local. -/
def Instr.assigns (k : Nat) : Instr → Bool
  | .localSet i => i < 0 || i == k
  | .localTee i => i < 0 || i == k
  | _ => false

theorem getElem?_replaceAt {i : Int} {k : Nat} {l : List α} {a : α}
    (h : (i < 0 || i == k) = false) : (replaceAt l i a)[k]? = l[k]? := by
  simp only [Bool.or_eq_false_iff, decide_eq_false_iff_not, Int.not_lt, beq_eq_false_iff_ne] at h
  obtain ⟨j, rfl⟩ := Int.eq_ofNat_of_zero_le h.1
  have hne : j ≠ k := fun hj => h.2 (by rw [hj])
  unfold replaceAt
  rw [position?_ofNat]
  split
  · rename_i n hn
    split at hn
    · cases hn
      exact getElem?_set_ne hne
    · cases hn
  · rfl

/-- What an instruction comes to that does not look at the store. -/
def Env.PlainAs (env : Env σ) (i : Instr) (args locals : List Value) : Except Halt (List Value × List Value) → Prop
  | .ok (results, locals') => (∀ s, env.plain i args locals s = .ok (results, locals', s)) ∧
    ∀ k, i.assigns k = false → locals'[k]? = locals[k]?
  | .error why => ∀ s, env.plain i args locals s = .error why

theorem Env.plain_isLocal (env : Env σ) {i : Instr} (hi : i.isLocal = true)
    (args locals : List Value) : ∃ r, env.PlainAs i args locals r := by
  have hstuck : (∀ s, env.plain i args locals s = .error .stuck) → ∃ r, env.PlainAs i args locals r :=
    fun h => ⟨.error .stuck, h⟩
  cases i with
  | drop =>
    match args with
    | [x] => exact ⟨.ok ([], locals), fun _ => rfl, fun _ _ => rfl⟩
    | [] | _ :: _ :: _ => exact hstuck fun _ => rfl
  | select types =>
    match args with
    | [x, y, z] => exact ⟨.ok ([if z.bits = 0 then y else x], locals), fun _ => rfl, fun _ _ => rfl⟩
    | [] | [_] | [_, _] | _ :: _ :: _ :: _ :: _ => exact hstuck fun _ => rfl
  | localGet k =>
    match args, h : elementAt? locals k with
    | [], none => exact hstuck fun _ => by simp only [Env.plain, h]
    | [], some v => exact ⟨.ok ([v], locals), fun _ => by simp only [Env.plain, h], fun _ _ => rfl⟩
    | _ :: _, _ => exact hstuck fun _ => rfl
  | localSet k =>
    match args with
    | [x] => exact ⟨.ok ([], replaceAt locals k x), fun _ => rfl, fun _ h => getElem?_replaceAt h⟩
    | [] | _ :: _ :: _ => exact hstuck fun _ => rfl
  | localTee k =>
    match args with
    | [x] => exact ⟨.ok ([x], replaceAt locals k x), fun _ => rfl, fun _ h => getElem?_replaceAt h⟩
    | [] | _ :: _ :: _ => exact hstuck fun _ => rfl
  | const t v =>
    match args with
    | [] => exact ⟨.ok ([.ofInt t v], locals), fun _ => rfl, fun _ _ => rfl⟩
    | _ :: _ => exact hstuck fun _ => rfl
  | num op =>
    cases h : env.num op args with
    | error why =>
      refine ⟨.error why, fun s => ?_⟩
      simp only [Env.plain, h]
      rfl
    | ok v =>
      refine ⟨.ok ([v], locals), fun s => ?_, fun _ _ => rfl⟩
      simp only [Env.plain, h]
      rfl
  | _ => cases hi

namespace Env

variable {env : Env σ} {a : Activation} {i : Instr} {rest : List Instr}

/-- What comes after an instruction that only works on operands, locals and the store. -/
def proceed (a : Activation) (rest : List Instr) (inputs : Nat) (waiting : List Activation)
    (s : Store σ) : Except Halt (List Value × List Value × Store σ) → Outcome σ (Config σ)
  | .ok (results, locals, s) => .next ⟨{ a with
      code := rest, stack := results.reverse ++ a.stack.drop inputs, locals := locals }, waiting, s⟩
  | .error why => .halt why s

theorem stepInstr_isPlain (env : Env σ) (hi : i.isPlain = true) (c : Config σ) (rest : List Instr) :
    (env.stepInstr c i rest).2 = proceed c.active rest (i.inputs env.module) c.waiting c.store
      (env.plain i (c.active.stack.take (i.inputs env.module)).reverse c.active.locals c.store) := by
  cases i with
  | drop | select _ | localGet _ | localSet _ | localTee _ | globalGet _ | globalSet _ | load _ _
  | store _ _ | memorySize | memoryGrow | const _ _ | num _ =>
    rfl
  | _ => cases hi

theorem step_isLocal (hi : i.isLocal = true) (hcode : a.code = i :: rest) (waiting : List Activation)
    (s : Store σ) : (env.step ⟨a, waiting, s⟩).2 = proceed a rest (i.inputs env.module) waiting s
      (env.plain i (a.stack.take (i.inputs env.module)).reverse a.locals s) := by
  unfold Env.step
  simp only [hcode]
  exact env.stepInstr_isPlain (i.isPlain_of_isLocal hi) ⟨a, waiting, s⟩ rest

/-- A local instruction of which it is known what it does. -/
theorem leads_isLocal (hi : i.isLocal = true) (hcode : a.code = i :: rest)
    (h : ∀ s, env.plain i (a.stack.take (i.inputs env.module)).reverse a.locals s = .ok (results, locals, s)) :
    env.Leads a { a with
      code := rest
      stack := results.reverse ++ a.stack.drop (i.inputs env.module)
      locals := locals } := by
  refine leads_of_step fun waiting s => ?_
  rw [step_isLocal hi hcode, h s]
  rfl

/-- A local instruction does its work and goes on, or ends the run. -/
theorem comes_isLocal (hi : i.isLocal = true) (hcode : a.code = i :: rest) :
    env.Comes a (fun a' => a'.code = rest ∧ a'.labels = a.labels ∧
      ∀ k, i.assigns k = false → a'.locals[k]? = a.locals[k]?) := by
  obtain ⟨r, hr⟩ := env.plain_isLocal hi (a.stack.take (i.inputs env.module)).reverse a.locals
  cases r with
  | error why =>
    refine .inl ⟨.error why, yields_of_step fun waiting s => ?_⟩
    rw [step_isLocal hi hcode, hr s]
    rfl
  | ok p =>
    obtain ⟨hplain, hlocals⟩ := hr
    exact .inr ⟨_, leads_isLocal hi hcode hplain, rfl, rfl, hlocals⟩

end Env

/-! ### Code that closes what is open -/

/-- Whether code closes just the constructs that are open before it, given how many there are. -/
def closes : Nat → List Instr → Bool
  | depth, [] => depth == 0
  | depth, i :: rest =>
    match i with
    | .block _ => closes (depth + 1) rest
    | .loop _ => closes (depth + 1) rest
    | .if_ _ => closes (depth + 1) rest
    | .else_ =>
      match depth with
      | 0 => false
      | _ + 1 => closes depth rest
    | .end_ =>
      match depth with
      | 0 => false
      | outer + 1 => closes outer rest
    | _ => closes depth rest

/-- What stands behind a construct that is open closes less, and its second arm, if there is one, closes as
much as is open. -/
structure EndsIn (j d : Nat) (code : List Instr) : Prop where
  behind : ∃ e, e <:+ code ∧ closes d e = true ∧ ∀ T, afterEnd j (code ++ T) = e ++ T
  arm : (∀ T, afterElse? j (code ++ T) = none) ∨
    ∃ e, e <:+ code ∧ closes (d + 1) e = true ∧ ∀ T, afterElse? j (code ++ T) = some (e ++ T)

theorem EndsIn.cons {j j' d : Nat} {i : Instr} (h : EndsIn j' d code)
    (hend : ∀ T, afterEnd j (i :: code ++ T) = afterEnd j' (code ++ T))
    (harm : ∀ T, afterElse? j (i :: code ++ T) = afterElse? j' (code ++ T)) : EndsIn j d (i :: code) := by
  obtain ⟨⟨e, hsuffix, hcloses, hafter⟩, h⟩ := h
  refine ⟨⟨e, hsuffix.trans (suffix_cons _ _), hcloses, fun T => (hend T).trans (hafter T)⟩, ?_⟩
  rcases h with hnone | ⟨e, hsuffix, hcloses, hafter⟩
  · exact .inl fun T => (harm T).trans (hnone T)
  · exact .inr ⟨e, hsuffix.trans (suffix_cons _ _), hcloses, fun T => (harm T).trans (hafter T)⟩

theorem endsIn_of_closes {j d : Nat} (h : closes (d + 1 + j) code = true) : EndsIn j d code := by
  induction code generalizing j d with
  | nil =>
    simp [closes] at h
  | cons i rest ih =>
    cases i with
    | block _ | loop _ | if_ _ => exact (ih h).cons (fun _ => rfl) (fun _ => rfl)
    | else_ =>
      have h : closes (d + 1 + j) rest = true := by
        rw [show d + 1 + j = d + j + 1 by omega] at h ⊢
        exact h
      cases j with
      | zero =>
        obtain ⟨e, hsuffix, hbehind⟩ := (ih h).behind
        exact ⟨⟨e, hsuffix.trans (suffix_cons _ _), hbehind⟩, .inr ⟨rest, suffix_cons _ _, h, fun _ => rfl⟩⟩
      | succ j => exact (ih h).cons (fun _ => rfl) (fun _ => rfl)
    | end_ =>
      cases j with
      | zero => exact ⟨⟨rest, suffix_cons _ _, h, fun _ => rfl⟩, .inl fun _ => rfl⟩
      | succ j => exact (ih h).cons (fun _ => rfl) (fun _ => rfl)
    | _ => exact (ih h).cons (fun _ => rfl) (fun _ => rfl)

/-! ### Code without loops and branches -/

/-- Code that runs through, or out of its function: no loops and no branches but returns, and calls only of
functions that come to an end. -/
def Env.Straight (env : Env σ) : Instr → Prop
  | .call f => env.Finishes f.toNat
  | .if_ _ | .else_ | .end_ | .ret | .unreachable _ => True
  | i => i.isLocal = true

/-- An activation before code that closes all constructs inside of some labels, the outermost of which is
that of the function. -/
structure Env.Before (env : Env σ) (outer : List Label) (seg tail : List Instr) (a : Activation) : Prop where
  code : a.code = seg ++ tail
  labels : ∃ inner, a.labels = inner ++ outer ∧ closes inner.length seg = true
  straight : ∀ i ∈ seg, env.Straight i
  function : ∃ l, outer.getLast? = some l ∧ l.isLoop = false

/-- The activation behind the code. -/
structure Behind (outer : List Label) (seg tail : List Instr) (a a' : Activation) : Prop where
  code : a'.code = tail
  labels : a'.labels = outer
  locals : ∀ k, (∀ i ∈ seg, i.assigns k = false) → a'.locals[k]? = a.locals[k]?

namespace Env

variable {env : Env σ} {a a' : Activation} {outer : List Label} {i : Instr} {rest tail : List Instr}

variable {bt : BlockType} {t : FuncType} {cond : Value} {stack : List Value} {l : Label} {labels : List Label}

theorem leads_block (hcode : a.code = .block bt :: rest) (ht : env.module.blockType? bt = some t) : env.Leads a { a with
      code := rest
      labels := ⟨false, t.results.length, a.stack.length - t.params.length, afterEnd 0 rest⟩ :: a.labels } := by
  refine leads_of_step fun waiting s => ?_
  simp only [Env.step, hcode, Env.stepInstr, ht]
  rfl

theorem leads_loop (hcode : a.code = .loop bt :: rest) (ht : env.module.blockType? bt = some t) : env.Leads a { a with
      code := rest
      labels := ⟨true, t.params.length, a.stack.length - t.params.length, rest⟩ :: a.labels } := by
  refine leads_of_step fun waiting s => ?_
  simp only [Env.step, hcode, Env.stepInstr, ht]
  rfl

theorem leads_brIf_not {l : Int} (hcode : a.code = .brIf l :: rest) (hstack : a.stack = cond :: stack)
    (hcond : cond.bits = 0) : env.Leads a { a with code := rest, stack := stack } := by
  refine leads_of_step fun waiting s => ?_
  simp only [Env.step, hcode, Env.stepInstr, hstack, if_pos hcond]
  rfl

/-- A condition that sends control back to the innermost loop. -/
theorem leads_brIf_loop (hcode : a.code = .brIf 0 :: rest) (hstack : a.stack = cond :: stack)
    (hcond : cond.bits ≠ 0) (hlabels : a.labels = l :: labels) (hl : l.isLoop = true) : env.Leads a { a with
      code := l.cont
      stack := stack.take l.arity ++ stack.drop (stack.length - l.height) } := by
  have hpos : position? a.labels.length 0 = some 0 := by
    rw [hlabels]
    exact (position?_ofNat _ 0).trans (if_pos (Nat.succ_pos _))
  have hget : a.labels[0]? = some l := by
    rw [hlabels]
    rfl
  refine leads_of_step fun waiting s => ?_
  simp only [Env.step, hcode, Env.stepInstr, hstack, if_neg hcond, Config.branch, hpos, hget, hl, if_true]
  rfl

/-- The end of the function's body ends the activation. -/
theorem yields_end (hcode : a.code = .end_ :: rest) (hlabels : a.labels = [l]) :
    env.Yields a (.ok (a.stack.take l.arity).reverse) := by
  refine yields_of_step fun waiting s => ?_
  simp only [Env.step, hcode, Env.stepInstr, hlabels]
  rfl

/-- Going on with what is left of the code. -/
theorem Before.step (h : env.Before outer (i :: rest) tail a) (he : e <:+ rest)
    (hlocals : ∀ k, i.assigns k = false → a'.locals[k]? = a.locals[k]?) (hcode : a'.code = e ++ tail)
    (hlabels : ∃ inner, a'.labels = inner ++ outer ∧ closes inner.length e = true)
    (ih : ∀ a, env.Before outer e tail a → env.Comes a (Behind outer e tail a)) :
    env.Comes a' (Behind outer (i :: rest) tail a) := by
  have hmem : ∀ j ∈ e, j ∈ i :: rest := fun j hj => .tail _ (he.subset hj)
  have hbefore : env.Before outer e tail a' :=
    ⟨hcode, hlabels, fun j hj => h.straight j (hmem j hj), h.function⟩
  refine (ih a' hbefore).imp fun b hb => ⟨hb.code, hb.labels, fun k hk => ?_⟩
  rw [hb.locals k (fun j hj => hk j (hmem j hj)), hlocals k (hk i (.head _))]

theorem yields_ret (hcode : a.code = .ret :: rest) (hl : a.labels.getLast? = some l)
    (hloop : l.isLoop = false) : env.Yields a (.ok (a.stack.take l.arity).reverse) := by
  have hpos : 0 < a.labels.length := by
    cases h : a.labels with
    | nil =>
      rw [h] at hl
      cases hl
    | cons x xs => exact Nat.succ_pos _
  refine yields_of_step fun waiting s => ?_
  unfold Env.step
  simp only [hcode]
  show Config.branch _ { a with code := rest } (-1) = _
  unfold Config.branch
  rw [getLast?_eq_getElem?] at hl
  simp only [position?_neg_one hpos, hl, hloop, Nat.sub_add_cancel hpos, Bool.false_eq_true, if_false, if_true]
  rfl

section If

/-- The label of a construct that is entered with operands. -/
def ifLabel (t : FuncType) (stack : List Value) (rest : List Instr) : Label :=
  ⟨false, t.results.length, stack.length - t.params.length, afterEnd 0 rest⟩

section

variable (hcode : a.code = .if_ bt :: rest) (ht : env.module.blockType? bt = some t) (hstack : a.stack = cond :: stack)
include hcode ht hstack

theorem leads_if (hcond : cond.bits ≠ 0) :
    env.Leads a { a with code := rest, labels := ifLabel t stack rest :: a.labels, stack := stack } := by
  refine leads_of_step fun waiting s => ?_
  simp only [Env.step, hcode, Env.stepInstr, ht, hstack, if_neg hcond]
  rfl

theorem leads_if_else (hcond : cond.bits = 0) (harm : afterElse? 0 rest = some arm) :
    env.Leads a { a with code := arm, labels := ifLabel t stack rest :: a.labels, stack := stack } := by
  refine leads_of_step fun waiting s => ?_
  simp only [Env.step, hcode, Env.stepInstr, ht, hstack, if_pos hcond, harm]
  rfl

theorem leads_if_skip (hcond : cond.bits = 0) (harm : afterElse? 0 rest = none) :
    env.Leads a { a with code := afterEnd 0 rest, stack := stack } := by
  refine leads_of_step fun waiting s => ?_
  simp only [Env.step, hcode, Env.stepInstr, ht, hstack, if_pos hcond, harm]
  rfl

end

/-- An `if` goes on in one of its arms or behind them, or ends the run. -/
theorem comes_if (hcode : a.code = .if_ bt :: rest) : env.Comes a (fun a' => a'.locals = a.locals ∧
      ((∃ l, a'.labels = l :: a.labels ∧ (a'.code = rest ∨ afterElse? 0 rest = some a'.code)) ∨
        a'.labels = a.labels ∧ a'.code = afterEnd 0 rest)) := by
  have hstuck : (∀ waiting s, (env.step ⟨a, waiting, s⟩).2 = Config.stuck ⟨a, waiting, s⟩) →
      ∃ r, env.Yields a r := fun h => ⟨.error .stuck, yields_of_step h⟩
  cases ht : env.module.blockType? bt with
  | none =>
    refine .inl (hstuck fun waiting s => ?_)
    simp only [Env.step, hcode, Env.stepInstr, ht]
  | some t =>
    cases hstack : a.stack with
    | nil =>
      refine .inl (hstuck fun waiting s => ?_)
      simp only [Env.step, hcode, Env.stepInstr, ht, hstack]
    | cons cond stack =>
      by_cases hcond : cond.bits = 0
      · cases harm : afterElse? 0 rest with
        | none => exact .inr ⟨_, leads_if_skip hcode ht hstack hcond harm, rfl, .inr ⟨rfl, rfl⟩⟩
        | some arm => exact .inr ⟨_, leads_if_else hcode ht hstack hcond harm, rfl, .inl ⟨_, rfl, .inr rfl⟩⟩
      · exact .inr ⟨_, leads_if hcode ht hstack hcond, rfl, .inl ⟨_, rfl, .inl rfl⟩⟩

end If

theorem leads_else (hcode : a.code = .else_ :: rest) :
    env.Leads a { a with code := afterEnd 0 rest, labels := a.labels.tail } := by
  refine leads_of_step fun waiting s => ?_
  simp only [Env.step, hcode, Env.stepInstr]
  rfl

theorem leads_end (hcode : a.code = .end_ :: rest) (hlabels : a.labels = l :: labels)
    (hne : labels ≠ []) : env.Leads a { a with code := rest, labels := labels } := by
  refine leads_of_step fun waiting s => ?_
  cases labels with
  | nil => exact absurd rfl hne
  | cons l' labels =>
    simp only [Env.step, hcode, Env.stepInstr, hlabels]
    rfl

theorem Before.of_nil (h : env.Before outer [] tail a) : env.Comes a (Behind outer [] tail a) := by
  obtain ⟨inner, hlabels, hcloses⟩ := h.labels
  have hnil : inner = [] := length_eq_zero_iff.mp (by simpa [closes] using hcloses)
  rw [hnil] at hlabels
  exact .inr ⟨a, .refl env a, h.code, hlabels, fun _ _ => rfl⟩

/-- **Code without loops and branches is left behind, or the run is over.** -/
theorem comes_behind (n : Nat) {seg : List Instr} (hlen : seg.length ≤ n)
    (h : env.Before outer seg tail a) : env.Comes a (Behind outer seg tail a) := by
  induction n generalizing seg a with
  | zero =>
    cases length_eq_zero_iff.mp (Nat.le_zero.mp hlen)
    exact h.of_nil
  | succ n ih =>
    cases seg with
    | nil => exact h.of_nil
    | cons i rest =>
      have hrest : ∀ {e}, e <:+ rest → ∀ a, env.Before outer e tail a → env.Comes a (Behind outer e tail a) := by
        intro e he a
        exact ih (Nat.le_trans he.length_le (Nat.le_of_succ_le_succ hlen))
      have hcode : a.code = i :: (rest ++ tail) := h.code
      obtain ⟨inner, hlabels, hcloses⟩ := h.labels
      have hstraight := h.straight i (.head _)
      -- An instruction that only works on operands and locals.
      have hlocal : i.isLocal = true → closes inner.length rest = true →
          env.Comes a (Behind outer (i :: rest) tail a) := by
        intro hi hcloses
        refine (comes_isLocal hi hcode).bind fun a' ha' => ?_
        exact h.step suffix_rfl ha'.2.2 ha'.1 ⟨inner, ha'.2.1.trans hlabels, hcloses⟩ (hrest suffix_rfl)
      cases i with
      | if_ bt =>
        refine (comes_if hcode).bind fun a' ⟨hlocals, hgoes⟩ => ?_
        have hsame : ∀ k, (Instr.if_ bt).assigns k = false → a'.locals[k]? = a.locals[k]? := by
          intro k _
          rw [hlocals]
        rcases hgoes with ⟨l, hl, harm⟩ | ⟨hl, hend⟩
        · have hinner : ∀ e, closes (inner.length + 1) e = true →
              ∃ inner, a'.labels = inner ++ outer ∧ closes inner.length e = true := by
            intro e he
            exact ⟨l :: inner, by rw [hl, hlabels]; rfl, he⟩
          rcases harm with hfirst | hsecond
          · exact h.step suffix_rfl hsame hfirst (hinner _ hcloses) (hrest suffix_rfl)
          · rcases (endsIn_of_closes (j := 0) hcloses).arm with hnone | ⟨e, he, hcloses, harm⟩
            · rw [hnone] at hsecond
              cases hsecond
            · rw [harm] at hsecond
              exact h.step he hsame (Option.some.inj hsecond).symm (hinner _ hcloses) (hrest he)
        · obtain ⟨e, he, hcloses, hafter⟩ := (endsIn_of_closes (j := 0) hcloses).behind
          exact h.step he hsame (hend.trans (hafter tail)) ⟨inner, hl.trans hlabels, hcloses⟩ (hrest he)
      | else_ =>
        cases inner with
        | nil => cases hcloses
        | cons l inner =>
          have hcloses : closes (inner.length + 1) rest = true := hcloses
          obtain ⟨e, he, hcloses, hafter⟩ := (endsIn_of_closes (j := 0) hcloses).behind
          refine .of_leads (leads_else hcode) ?_
          exact h.step he (fun _ _ => rfl) (hafter tail) ⟨inner, by rw [hlabels]; rfl, hcloses⟩ (hrest he)
      | end_ =>
        cases inner with
        | nil => cases hcloses
        | cons l inner =>
          have hne : inner ++ outer ≠ [] := by
            obtain ⟨l, hl, -⟩ := h.function
            rintro hnil
            rw [(append_eq_nil_iff.mp hnil).2] at hl
            cases hl
          refine .of_leads (leads_end hcode hlabels hne) ?_
          exact h.step suffix_rfl (fun _ _ => rfl) rfl ⟨inner, rfl, hcloses⟩ (hrest suffix_rfl)
      | ret =>
        obtain ⟨l, hl, hloop⟩ := h.function
        have hlast : a.labels.getLast? = some l := by
          rw [hlabels, getLast?_append, hl]
          rfl
        exact .inl ⟨_, yields_ret hcode hlast hloop⟩
      | unreachable kind =>
        refine .inl ⟨.error (.trap (kind.getD .unreachable)), yields_of_step fun waiting s => ?_⟩
        unfold Env.step
        simp only [hcode]
        rfl
      | call f =>
        obtain ⟨himp, hall⟩ := hstraight
        obtain ⟨callee, r, hcallee, hr⟩ := hall (env.callArgs f a.stack)
        cases r with
        | error why => exact .inl ⟨_, yields_call hcode himp hcallee hr⟩
        | ok results =>
          refine .of_leads (leads_call hcode himp hcallee hr) ?_
          exact h.step suffix_rfl (fun _ _ => rfl) rfl ⟨inner, hlabels, hcloses⟩ (hrest suffix_rfl)
      | drop | select _ | localGet _ | localSet _ | localTee _ | const _ _ | num _ => exact hlocal rfl hcloses
      | _ => cases hstraight

end Env

end ScoreWasm.Wasm
