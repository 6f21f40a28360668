import ScoreWasm.Proofs.SoftFloat.Evaluation

/-!
# Routines come to an end

A routine calls only routines that stand before it, so it is enough that its own code comes to an end if
its calls do.  All code but that of the square root is free of loops.  The square root has one loop, which
counts a variable down that nothing else in the loop sets.
-/

namespace ScoreWasm.SoftFloat

open Wasm List

variable {σ : Type}

variable {c : Code} {env : Env σ} {index : Routine → Nat} {a : Activation} {l : Label} {r : Routine}

/-! ### Code without loops -/

/-- Whether an instruction neither loops nor branches, and a call is left to the callee. -/
def Op.isStraight : Op → Bool
  | .plain (.if_ _) | .plain .else_ | .plain .end_ | .plain .ret | .plain (.unreachable _) => true
  | .plain i => i.isLocal
  | .call _ => true

/-- Code without loops that closes what it opens. -/
def Code.isStraight (c : Code) : Bool :=
  c.ops.all Op.isStraight && closes 0 (c.ops.map (Op.instr (fun _ => 0)))

theorem closes_index (index index' : Routine → Nat) (ops : List Op) (d : Nat) :
    closes d (ops.map (Op.instr index)) = closes d (ops.map (Op.instr index')) := by
  induction ops generalizing d with
  | nil =>
    rfl
  | cons o ops ih =>
    cases o with
    | call r => exact ih d
    | plain i =>
      cases i with
      | block _ | loop _ | if_ _ => exact ih (d + 1)
      | else_ =>
        cases d with
        | zero => rfl
        | succ d => exact ih (d + 1)
      | end_ =>
        cases d with
        | zero => rfl
        | succ d => exact ih d
      | _ => exact ih d

theorem Code.closes_instrs (h : c.isStraight = true) (index : Routine → Nat) :
    closes 0 (c.ops.map (Op.instr index)) = true := by
  rw [closes_index index (fun _ => 0)]
  exact (Bool.and_eq_true_iff.mp h).2

section

variable (h : c.isStraight = true) (hcalls : ∀ r, .call r ∈ c.ops → env.Finishes (index r))
include h hcalls

/-- Code without loops is straight where the routines that it calls come to an end. -/
theorem Code.straight :
    ∀ i ∈ c.ops.map (Op.instr index), env.Straight i := by
  intro i hi
  obtain ⟨o, ho, rfl⟩ := mem_map.mp hi
  have hall := all_eq_true.mp (Bool.and_eq_true_iff.mp h).1 o ho
  cases o with
  | call r => exact hcalls r ho
  | plain i =>
    cases i with
    | if_ _ | else_ | end_ | ret | unreachable _ => trivial
    | drop | select _ | localGet _ | localSet _ | localTee _ | const _ _ | num _ => rfl
    | _ => cases hall

/-- Code without loops, run with the labels around it, is left behind or the run is over. -/
theorem Code.comes_behind
    {tail : List Instr} (hcode : a.code = c.ops.map (Op.instr index) ++ tail) (hl : a.labels.getLast? = some l)
    (hloop : l.isLoop = false) : env.Comes a (Behind a.labels (c.ops.map (Op.instr index)) tail a) :=
  Env.comes_behind _ (Nat.le_refl _)
    ⟨hcode, ⟨[], rfl, c.closes_instrs h index⟩, c.straight h hcalls, l, hl, hloop⟩

end

theorem Routine.isStraight_code (h : r ≠ .sqrt .x64) : r.code.isStraight = true := by
  have hall : ∀ r ∈ Routine.all, r ≠ .sqrt .x64 → r.code.isStraight = true := by decide +kernel
  exact hall r r.mem_all h

/-! ### Counting down -/

/-- Operators on 64-bit integers compute what a loop needs that counts down. -/
structure CountsDown (env : Env σ) : Prop where
  sub : ∀ x y : BitVec 64, env.num (.intBin .x64 .sub) [.i64 x, .i64 y] = .ok (.i64 (x - y))
  gtS : ∀ x y : BitVec 64,
    env.num (.intRel .x64 .gtS) [.i64 x, .i64 y] = .ok (.i32 (if y.slt x then 1 else 0))

/-- The operators the countdown uses. -/
def countdownRules : Rules
  | .intBin .x64 .sub, [.i64 x, .i64 y] => some (.ok (.i64 (x - y)))
  | .intRel .x64 .gtS, [.i64 x, .i64 y] => some (.ok (.i32 (if y.slt x then 1 else 0)))
  | _, _ => none

theorem CountsDown.obeys (hc : CountsDown env) : env.Obeys countdownRules := by
  intro op args r h
  unfold countdownRules at h
  split at h
  · cases h
    exact hc.sub _ _
  · cases h
    exact hc.gtS _ _
  · cases h

/-- A loop that counts a variable down from 52 by twos as long as it is above -60. -/
def countdown (place : Nat) (body : Code) : Code :=
  Code.assign place 52
    ++ Code.repeatWhile body (Code.rel .gtS (Code.keep place (Code.var place - 2)) (Code.lit (-60)))

/-- The end of the loop: counts down and goes back. -/
def countdownTest (place : Nat) : List Instr :=
  [.localGet place, .const .i64 2, .num (.intBin .x64 .sub), .localTee place, .const .i64 (-60),
    .num (.intRel .x64 .gtS), .brIf 0]

theorem countdown_ops (place : Nat) (body : Code) : (countdown place body).ops =
    [.plain (.const .i64 52), .plain (.localSet place)] ++
      ([.plain (.block .empty)] ++ [.plain (.loop .empty)] ++ body.ops ++
        (countdownTest place).map Op.plain ++ [.plain .end_] ++ [.plain .end_]) := rfl

theorem countdown_instrs (place : Nat) (body : Code) (index : Routine → Nat) :
    (countdown place body).ops.map (Op.instr index) =
      [.const .i64 52, .localSet place, .block .empty, .loop .empty] ++
        (body.ops.map (Op.instr index) ++ (countdownTest place ++ [.end_, .end_])) := by
  rw [countdown_ops]
  simp only [map_append, append_assoc]
  rfl

section Countdown

variable {k : Nat} {p : BitVec 64} {rest : List Instr}

theorem yields_countdownTest (hcode : a.code = countdownTest k ++ rest) (hk : a.locals[k]? = none) :
    env.Yields a (.error .stuck) := by
  refine Env.yields_of_step fun waiting s => ?_
  rw [Env.step_isLocal rfl hcode]
  show Env.proceed _ _ _ _ _ (env.plain (.localGet k) [] a.locals s) = _
  simp only [Env.plain, elementAt?_ofNat, hk]
  rfl

/-- One test of the loop up to its branch. -/
theorem leads_countdownTest (hc : CountsDown env) (hcode : a.code = countdownTest k ++ rest)
    (hk : a.locals[k]? = some (.i64 p)) : env.Leads a { a with
      code := .brIf 0 :: rest
      stack := .i32 (if (BitVec.ofInt 64 (-60)).slt (p - 2) then 1 else 0) :: a.stack
      locals := a.locals.set k (.i64 (p - 2)) } := by
  let ops := ((countdownTest k).take 6).map Op.plain
  have heval : evaluate countdownRules ops a.stack a.locals =
      some (.i32 (if (BitVec.ofInt 64 (-60)).slt (p - 2) then 1 else 0) :: a.stack, a.locals.set k (.i64 (p - 2))) :=
    (evaluate_var hk).trans rfl
  have hcode : a.code = ops.map (Op.instr fun _ => 0) ++ .brIf 0 :: rest := hcode
  exact leads_of_evaluate hc.obeys _ ops a heval hcode

theorem toInt_sub_two (hlow : -60 < p.toInt) (hhigh : p.toInt ≤ 52) :
    (p - 2).toInt = p.toInt - 2 := by
  have htwo : (2 : BitVec 64).toInt = 2 := by decide
  rw [BitVec.toInt_sub, htwo]
  exact Int.bmod_eq_of_le (by omega) (by omega)

/-- The activation is at the head of the loop. -/
structure AtLoop (body : Code) (index : Routine → Nat) (k : Nat) (rest : List Instr)
    (outer : List Label) (a : Activation) : Prop where
  code : a.code = body.ops.map (Op.instr index) ++ (countdownTest k ++ rest)
  labels : ∃ l, a.labels = l :: outer ∧ l.isLoop = true ∧
    l.cont = body.ops.map (Op.instr index) ++ (countdownTest k ++ rest)

variable {body : Code} {outer : List Label}

theorem AtLoop.comes_test (h : AtLoop body index k rest outer a) (hbody : body.isStraight = true)
    (hcalls : ∀ r, .call r ∈ body.ops → env.Finishes (index r))
    (hassign : ∀ i ∈ body.ops.map (Op.instr index), i.assigns k = false)
    (hl : outer.getLast? = some l) (hloop : l.isLoop = false) :
    env.Comes a (fun a' => a'.code = countdownTest k ++ rest ∧ a'.labels = a.labels ∧
      a'.locals[k]? = a.locals[k]?) := by
  obtain ⟨lp, hlabels, -, -⟩ := h.labels
  have hlast : a.labels.getLast? = some l := by
    rw [hlabels, getLast?_cons, hl]
    rfl
  exact (body.comes_behind hbody hcalls h.code hlast hloop).imp
    fun a' ha' => ⟨ha'.code, ha'.labels, ha'.locals k hassign⟩

section

variable (hc : CountsDown env) (hbody : body.isStraight = true)
  (hcalls : ∀ r, .call r ∈ body.ops → env.Finishes (index r))
  (hassign : ∀ i ∈ body.ops.map (Op.instr index), i.assigns k = false)
include hc hbody hcalls hassign

/-- **A loop that counts down is left, or the run is over**, by induction on how far there is to count. -/
theorem AtLoop.comes_end
    (hl : outer.getLast? = some l)
    (hloop : l.isLoop = false) (n : Nat) (h : AtLoop body index k rest outer a)
    (hk : a.locals[k]? = some (.i64 p)) (hlow : -60 < p.toInt) (hhigh : p.toInt ≤ 52)
    (hn : (p.toInt + 60).toNat ≤ n) : env.Comes a (fun a' => a'.code = rest ∧ ∃ lp, a'.labels = lp :: outer) := by
  induction n generalizing p a with
  | zero =>
    omega
  | succ n ih =>
    obtain ⟨lp, hlabels, hlp, hcont⟩ := h.labels
    refine (h.comes_test hbody hcalls hassign hl hloop).bind fun a1 ⟨hcode1, hlabels1, hlocals1⟩ => ?_
    rw [hlabels] at hlabels1
    rw [hk] at hlocals1
    refine .of_leads (leads_countdownTest hc hcode1 hlocals1) ?_
    have hp := toInt_sub_two hlow hhigh
    by_cases hmore : (BitVec.ofInt 64 (-60)).slt (p - 2) = true
    · rw [if_pos hmore]
      refine .of_leads (Env.leads_brIf_loop rfl rfl (by decide) hlabels1 hlp) (ih ⟨hcont, lp, hlabels1, hlp, hcont⟩
        (List.getElem?_set_self (List.getElem?_eq_some_iff.mp hlocals1).1) ?_ ?_ ?_)
      all_goals
        rw [BitVec.slt_iff_toInt_lt, hp] at hmore
        have hsixty : (BitVec.ofInt 64 (-60)).toInt = -60 := by decide
        omega
    · rw [if_neg hmore]
      exact .inr ⟨_, Env.leads_brIf_not rfl rfl rfl, rfl, lp, hlabels1⟩

/-- From the start of a loop that counts down from 52 to behind the block around it. -/
theorem AtLoop.comes_behind {block : Label} {labels : List Label}
    (hl : labels.getLast? = some l) (hloop : l.isLoop = false)
    (h : AtLoop body index k (.end_ :: .end_ :: rest) (block :: labels) a)
    (hk : a.locals[k]? = none ∨ a.locals[k]? = some (.i64 52)) :
    env.Comes a (fun a' => a'.code = rest ∧ a'.labels = labels) := by
  have hlast : (block :: labels).getLast? = some l := by
    rw [getLast?_cons, hl]
    rfl
  have hne : labels ≠ [] := by
    rintro rfl
    cases hl
  rcases hk with hk | hk
  · refine (h.comes_test hbody hcalls hassign hlast hloop).bind fun a1 ⟨hcode, _, hlocals⟩ => ?_
    exact .inl ⟨_, yields_countdownTest hcode (hlocals.trans hk)⟩
  · refine (h.comes_end hc hbody hcalls hassign hlast hloop _ hk (by decide) (by decide) (Nat.le_refl _)).bind
      fun a1 ⟨hcode, lp, hlabels⟩ => ?_
    have hend : env.Leads a1 { a1 with code := .end_ :: rest, labels := block :: labels } :=
      Env.leads_end hcode hlabels nofun
    exact .inr ⟨{ a1 with code := rest, labels := labels }, hend.trans (Env.leads_end rfl rfl hne), rfl, rfl⟩

/-- The whole loop, with the count set before it. -/
theorem comes_countdown
    (hcode : a.code = (countdown k body).ops.map (Op.instr index) ++ rest)
    (hl : a.labels.getLast? = some l) (hloop : l.isLoop = false) :
    env.Comes a (fun a' => a'.code = rest ∧ a'.labels = a.labels) := by
  rw [countdown_instrs, append_assoc, append_assoc, append_assoc] at hcode
  let head := body.ops.map (Op.instr index) ++ (countdownTest k ++ (.end_ :: .end_ :: rest))
  let block : Label := ⟨false, 0, a.stack.length - 0, afterEnd 0 (.loop .empty :: head)⟩
  let loop : Label := ⟨true, 0, a.stack.length - 0, head⟩
  let a1 : Activation := { a with
    code := .localSet k :: .block .empty :: .loop .empty :: head, stack := .i64 52 :: a.stack }
  let a2 : Activation := { a with
    code := .block .empty :: .loop .empty :: head, locals := replaceAt a.locals k (.i64 52) }
  let a3 : Activation := { a2 with code := .loop .empty :: head, labels := block :: a.labels }
  let a4 : Activation := { a3 with code := head, labels := loop :: block :: a.labels }
  have h1 : env.Leads a a1 := Env.leads_isLocal rfl hcode fun _ => rfl
  have h2 : env.Leads a1 a2 := Env.leads_isLocal (a := a1) rfl rfl fun _ => rfl
  have h3 : env.Leads a2 a3 := Env.leads_block (a := a2) rfl rfl
  have h4 : env.Leads a3 a4 := Env.leads_loop (a := a3) rfl rfl
  refine .of_leads (((h1.trans h2).trans h3).trans h4)
    (AtLoop.comes_behind hc hbody hcalls hassign hl hloop ⟨rfl, loop, rfl, rfl, rfl⟩ ?_)
  show (replaceAt a.locals k (.i64 52))[k]? = none ∨ (replaceAt a.locals k (.i64 52))[k]? = some (.i64 52)
  unfold replaceAt
  rw [position?_ofNat]
  by_cases hlt : k < a.locals.length
  · rw [if_pos hlt]
    exact .inr (getElem?_set_self hlt)
  · rw [if_neg hlt]
    exact .inl (getElem?_eq_none (Nat.le_of_not_lt hlt))

end

end Countdown

/-- The square root is code without loops around one that counts down. -/
theorem sqrtCode_shape : ∃ before body after : Code,
    sqrtCode.ops = before.ops ++ ((countdown 9 body).ops ++ after.ops) ∧ before.isStraight = true ∧
      body.isStraight = true ∧ after.isStraight = true ∧
      (body.ops.map (Op.instr (fun _ => 0))).all (fun i => !i.assigns 9) = true :=
  ⟨⟨sqrtCode.ops.take 98⟩, ⟨(sqrtCode.ops.drop 102).take 40⟩, ⟨sqrtCode.ops.drop 151⟩, by decide +kernel,
    by decide +kernel, by decide +kernel, by decide +kernel, by decide +kernel⟩

theorem Op.assigns_instr (o : Op) (index index' : Routine → Nat) (k : Nat) :
    (o.instr index).assigns k = (o.instr index').assigns k := by
  cases o <;> rfl

/-! ### Every routine -/

/-- **The code of a routine is left behind, or the run is over**, if its calls come to an end. -/
theorem Routine.comes_behind (r : Routine) (hc : CountsDown env)
    (hcalls : ∀ c, .call c ∈ r.code.ops → env.Finishes (index c)) {rest : List Instr}
    (hcode : a.code = r.code.ops.map (Op.instr index) ++ rest) (hl : a.labels.getLast? = some l)
    (hloop : l.isLoop = false) : env.Comes a (fun a' => a'.code = rest ∧ a'.labels = a.labels) := by
  by_cases hr : r = .sqrt .x64
  · subst hr
    obtain ⟨before, body, after, hops, hbefore, hbody, hafter, hassign⟩ := sqrtCode_shape
    have hops : (Routine.sqrt .x64).code.ops = before.ops ++ ((countdown 9 body).ops ++ after.ops) := hops
    rw [hops] at hcalls
    rw [hops, map_append, map_append, append_assoc, append_assoc] at hcode
    refine (before.comes_behind hbefore (fun c hmem => hcalls c (mem_append_left _ hmem)) hcode hl
      hloop).bind fun a1 h1 => ?_
    have hl1 : a1.labels.getLast? = some l := by rw [h1.labels, hl]
    have hbodyCalls : ∀ c, .call c ∈ body.ops → env.Finishes (index c) := by
      intro c hmem
      refine hcalls c (mem_append_right _ (mem_append_left _ ?_))
      rw [countdown_ops]
      simp [hmem]
    have hbodyAssigns : ∀ i ∈ body.ops.map (Op.instr index), i.assigns 9 = false := by
      intro i hi
      obtain ⟨o, ho, rfl⟩ := mem_map.mp hi
      rw [o.assigns_instr index (fun _ => 0)]
      have := all_eq_true.mp hassign _ (mem_map_of_mem ho)
      simpa using this
    refine (comes_countdown hc hbody hbodyCalls hbodyAssigns h1.code hl1 hloop).bind
      fun a2 ⟨hcode2, hlabels2⟩ => ?_
    have hl2 : a2.labels.getLast? = some l := by rw [hlabels2, hl1]
    refine (after.comes_behind hafter ?_ hcode2 hl2 hloop).imp fun a3 h3 => ⟨h3.code, ?_⟩
    · intro c hmem
      exact hcalls c (mem_append_right _ (mem_append_right _ hmem))
    · rw [h3.labels, hlabels2, h1.labels]
  · exact (r.code.comes_behind (Routine.isStraight_code hr) hcalls hcode hl hloop).imp
      fun a' ha' => ⟨ha'.code, ha'.labels⟩

/-- The activation of a routine that is called: its whole code inside of the function's label. -/
theorem activation?_routine {f n : Nat}
    (hdefined : env.module.defined? f = some (r.function index n)) (args : List Value) :
    env.module.isImport f = false ∧ ∃ a : Activation, env.activation? f args = some a ∧
      a.code = r.code.ops.map (Op.instr index) ++ [.end_] ∧ a.stack = [] ∧
      a.labels = [⟨false, (env.module.funcType f).results.length, 0, []⟩] ∧
      a.locals = args ++ (List.replicate r.localCount .i64).map Value.zero := by
  constructor
  · unfold Module.defined? at hdefined
    split at hdefined
    · cases hdefined
    · rename_i hf
      simp only [Module.isImport, decide_eq_false_iff_not]
      omega
  · have hbody : (r.function index n).body.map Placed.instr = r.code.ops.map (Op.instr index) ++ [.end_] := by
      show ((r.code.instrs index).map Placed.new).map Placed.instr = _
      rw [map_map, Code.instrs_eq]
      exact map_id _
    unfold Env.activation?
    rw [hdefined]
    exact ⟨_, rfl, hbody, rfl, rfl, rfl⟩

theorem finishes_of_code {f n : Nat} (hc : CountsDown env)
    (hdefined : env.module.defined? f = some (r.function index n))
    (hcalls : ∀ c, .call c ∈ r.code.ops → env.Finishes (index c)) : env.Finishes f := by
  refine ⟨(activation?_routine hdefined []).1, fun args => ?_⟩
  obtain ⟨-, a, ha, hcode, -, hlabels, -⟩ := activation?_routine hdefined args
  rcases r.comes_behind hc hcalls hcode (by rw [hlabels]; rfl) rfl with ⟨res, hres⟩ | ⟨a', hleads, hcode', hlabels'⟩
  · exact ⟨a, res, ha, hres⟩
  · exact ⟨a, _, ha, hleads.yields (Env.yields_end hcode' (hlabels'.trans hlabels))⟩

/-- **Every routine of a lowered module comes to an end**, by induction on its rank. -/
theorem finishes_routine {m : Module} (henv : env.module = lowered m) (hc : CountsDown env) (n : Nat)
    {r : Routine} (hn : r.rank < n) (hr : r ∈ routinesFor m) : env.Finishes (routineIndex m r) := by
  induction n generalizing r with
  | zero => exact absurd hn (Nat.not_lt_zero _)
  | succ n ih =>
    obtain ⟨k, hdefined, -⟩ := defined?_routine hr
    rw [← henv] at hdefined
    refine finishes_of_code hc hdefined fun c hcall => ?_
    have hlt := Routine.rank_lt (Code.mem_callees.mpr hcall)
    exact ih (by omega) (routinesFor_closed hr hcall)

end ScoreWasm.SoftFloat
