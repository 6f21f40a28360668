import ScoreWasm.Proofs.Flow.Transfers

/-!
# Graphs mean what the code means

Running the graphs of a checked module runs its code: the same instructions in the same order, on the
same operands and with the same locals, to the same end.

Every step of the code is followed by the graph, and an induction over the steps gives every run.  The
other direction needs that the graph does not stay behind.  The code can only go on without it as long
as the instructions left become fewer, so that at some time the graph goes on as well; an induction over
the steps of the graph then gives, for every run of the graph, a run of the code that reaches at least
as far.
-/

namespace ScoreWasm.Flow

open Wasm

variable {σ : Type} {env : Env σ} {bodies : List (List Checked)} {graphs : List Graph}
  {final : List ValType} {n k m : Nat}

variable {c : Config σ} {g g' : State σ} {es : List Event}

/-! ### Steps -/

/-- **Every step of the code is followed.** -/
theorem Sim.step (hcov : Covers env bodies graphs) (h : Sim env bodies graphs c g)
    (hsettled : Settles env.module bodies final (.next c)) : Followed env bodies graphs c (env.step c) g := by
  obtain ⟨k, i, rest, s, d, offset, note, s', d', hm⟩ := h.meets hsettled
  unfold Env.step
  rw [hm.tracked.code]
  cases i with
  | block _ => exact hm.followed_block
  | loop _ => exact hm.followed_loop
  | if_ _ => exact hm.followed_if
  | else_ => exact hm.followed_else
  | end_ => exact hm.followed_end
  | _ => exact hm.followed_flat hcov rfl

/-! ### Runs -/

theorem Follows.next (h : Follows env bodies graphs n es (.next c) g) :
    ∃ g', runFor (Flow.step env graphs) n g = (es, .next g') ∧ Sim env bodies graphs c g' := by
  obtain ⟨o, hrun, hagree⟩ := h
  cases o with
  | next g' => exact ⟨g', hrun, hagree⟩
  | done r s | halt w s => cases hagree

/-- What follows a step and then what comes after it follows both. -/
theorem Follows.append {es' : List Event} {o : Outcome σ (Config σ)}
    (h : runFor (Flow.step env graphs) n g = (es, .next g')) (hrest : Follows env bodies graphs m es' o g') :
    Follows env bodies graphs (n + m) (es ++ es') o g := by
  obtain ⟨o', hrun, hagree⟩ := hrest
  refine ⟨o', ?_, hagree⟩
  rw [runFor_add h, hrun]

/-- A run of the code and one of the graph have the same events and agree in the end. -/
def Abreast (env : Env σ) (bodies : List (List Checked)) (graphs : List Graph) (c : Config σ) (g : State σ) (n k : Nat) : Prop :=
  Follows env bodies graphs k (runFor env.step n c).1 (runFor env.step n c).2 g

theorem Abreast.cons {c' : Config σ} {k' : Nat} (hstep : env.step c = (es, .next c'))
    (hrun : runFor (Flow.step env graphs) k g = (es, .next g')) (h : Abreast env bodies graphs c' g' n k') :
    Abreast env bodies graphs c g (n + 1) (k + k') := by
  unfold Abreast
  rw [runFor_succ_next hstep]
  exact h.append hrun

/-- A run of the graph that has ended may be given more steps. -/
theorem Abreast.mono (h : Abreast env bodies graphs c g n k) (ho : (runFor env.step n c).2.Ended)
    (m : Nat) : Abreast env bodies graphs c g n (k + m) := by
  obtain ⟨o, hrun, hagree⟩ := h
  refine ⟨o, runFor_ended ?_ hrun, hagree⟩
  cases o with
  | next g' =>
    cases hc : (runFor env.step n c).2 with
    | next c' =>
      rw [hc] at ho
      cases ho
    | done r s | halt w s =>
      rw [hc] at hagree
      cases hagree
  | done r s | halt w s => trivial

section

theorem Covers.covered (hcov : Covers env bodies graphs) : Covered env.module bodies := by
  intro f fn hf
  obtain ⟨k, hk, hat⟩ := hcov f fn hf
  exact ⟨k.toSource, hk, hat.place⟩

variable (hcov : Covers env bodies graphs) (h : Sim env bodies graphs c g)
  (hsettled : Settles env.module bodies final (.next c))
include hcov h hsettled

/-- A step either ends both runs, the graph's after at least one step, or both go on. -/
theorem Sim.advance : (∃ k, ∀ n m, Abreast env bodies graphs c g (n + 1) (k + 1 + m)) ∨
      ∃ es c' g' k, env.step c = (es, .next c') ∧
        runFor (Flow.step env graphs) k g = (es, .next g') ∧ Sim env bodies graphs c' g' ∧
        Settles env.module bodies final (.next c') ∧ (k = 0 → c'.active.code.length < c.active.code.length) := by
  obtain ⟨k, hk, hzero⟩ := h.step hcov hsettled
  have hnext := settles_step hcov.covered hsettled
  cases hstep : env.step c with
  | mk es o =>
    rw [hstep] at hk hzero hnext
    by_cases ho : o.Ended
    · left
      cases k with
      | zero =>
        obtain ⟨c', hc', -⟩ := hzero rfl
        rw [show o = .next c' from hc'] at ho
        cases ho
      | succ k =>
        refine ⟨k, fun n m => Abreast.mono ?_ ?_ m⟩
        · unfold Abreast
          rw [runFor_succ_ended hstep ho]
          exact hk
        · rw [runFor_succ_ended hstep ho]
          exact ho
    · right
      cases o with
      | next c' =>
        obtain ⟨g', hrun, hsim⟩ := hk.next
        refine ⟨es, c', g', k, rfl, hrun, hsim, hnext, fun hk => ?_⟩
        obtain ⟨c'', hc'', hlt⟩ := hzero hk
        cases hc''
        exact hlt
      | done r s | halt w s => exact absurd trivial ho

/-- **Every run of the code is followed.** -/
theorem Sim.run (n : Nat) : ∃ k, Abreast env bodies graphs c g n k := by
  induction n generalizing c g with
  | zero =>
    exact ⟨0, .stay h⟩
  | succ n ih =>
    rcases h.advance hcov hsettled with ⟨k, hk⟩ | ⟨es, c', g', k, hstep, hrun, hsim, hnext, -⟩
    · exact ⟨k + 1, hk n 0⟩
    · obtain ⟨k', hk'⟩ := ih hsim hnext
      exact ⟨k + k', hk'.cons hstep hrun⟩

/-- The graph goes on as soon as the code cannot become shorter.  The induction is on its length. -/
theorem Sim.progress (j : Nat)
    (ih : ∀ {c : Config σ} {g : State σ}, Sim env bodies graphs c g → Settles env.module bodies final (.next c) →
      ∃ n k, j ≤ k ∧ Abreast env bodies graphs c g n k)
    (len : Nat) (hlen : c.active.code.length ≤ len) : ∃ n k, j + 1 ≤ k ∧ Abreast env bodies graphs c g n k := by
  induction len generalizing c g with
  | zero =>
    obtain ⟨k, i, rest, s, d, offset, note, s', d', hm⟩ := h.meets hsettled
    rw [hm.tracked.code] at hlen
    cases hlen
  | succ len ihlen =>
    rcases h.advance hcov hsettled with ⟨k, hk⟩ | ⟨es, c', g', k, hstep, hrun, hsim, hnext, hshort⟩
    · exact ⟨1, k + 1 + j, by omega, hk 0 j⟩
    · cases k with
      | zero =>
        obtain ⟨n, k', hle, hab⟩ := ihlen hsim hnext (by have := hshort rfl; omega)
        exact ⟨n + 1, 0 + k', by omega, hab.cons hstep hrun⟩
      | succ k =>
        obtain ⟨n, k', hle, hab⟩ := ih hsim hnext
        exact ⟨n + 1, k + 1 + k', by omega, hab.cons hstep hrun⟩

/-- **Every run of the graph is reached by the code.** -/
theorem Sim.reach (j : Nat) : ∃ n k, j ≤ k ∧ Abreast env bodies graphs c g n k := by
  induction j generalizing c g with
  | zero =>
    exact ⟨0, 0, Nat.le_refl 0, .stay h⟩
  | succ j ih =>
    exact h.progress hcov hsettled j ih c.active.code.length (Nat.le_refl _)

end

/-! ### Whole functions -/

/-- Two machines are at the same point of a run: in the same function, with the same locals, operands and
store, or at the same end, which is never one that only unchecked code has. -/
def SamePoint : Outcome σ (Config σ) → Outcome σ (State σ) → Prop
  | .next c, .next g =>
    g.func = c.active.func ∧ g.locals = c.active.locals ∧ g.slots.HoldsStack c.active.stack ∧ g.store = c.store
  | .done r s, .done r' s' => r = r' ∧ s = s'
  | .halt w s, .halt w' s' => w = w' ∧ s = s' ∧ w ≠ .stuck
  | _, _ => False

/-- Two runs have the same events and come to the same point. -/
def SameRun (a : Advance σ (Config σ)) (b : Advance σ (State σ)) : Prop :=
  a.1 = b.1 ∧ SamePoint a.2 b.2

theorem Abreast.sameRun (h : Abreast env bodies graphs c g n k)
    (hsettled : Settles env.module bodies final (runFor env.step n c).2) :
    SameRun (runFor env.step n c) (runFor (Flow.step env graphs) k g) := by
  obtain ⟨o, hrun, hagree⟩ := h
  rw [hrun]
  refine ⟨rfl, ?_⟩
  cases hc : (runFor env.step n c).2 with
  | next c' =>
    rw [hc] at hagree
    cases o with
    | next g' =>
      cases hagree with
      | mk k _ _ _ hg => exact ⟨hg.func, hg.locals, hg.slots, hg.store⟩
    | done r s | halt w s => cases hagree
  | done r s =>
    rw [hc] at hagree
    cases o with
    | next g' => cases hagree
    | done r s => exact hagree
    | halt w s => cases hagree
  | halt w s =>
    rw [hc] at hagree hsettled
    cases o with
    | next g' | done r s => cases hagree
    | halt w s => exact ⟨hagree.1, hagree.2, hsettled.1⟩

/-- **Running the graphs of a checked module runs its code.**  From the entry of the graph of a function,
on slots that may hold anything, the run of the code is followed step for step with the same events, and
every run of the graph is reached by it. -/
theorem graphs_run_code {v : Validated} (hv : validate env.module = .ok v)
    (hg : Graph.ofModule v = .ok graphs) {f : Nat} {fn : Function}
    (hf : env.module.defined? f = some fn) {args : List Value}
    (hargs : args.map Value.type = (env.module.funcType f).params) {store : Wasm.Store σ}
    (hstore : store.Typed env.module) (slots : Slots) :
    ∃ c g, env.start? f args store = some c ∧ start? env slots f args store = some g ∧
      (∀ n, ∃ k, SameRun (runFor env.step n c) (runFor (Flow.step env graphs) k g)) ∧
      ∀ k, ∃ n k', k ≤ k' ∧ SameRun (runFor env.step n c) (runFor (Flow.step env graphs) k' g) := by
  have hcov := covers_ofModule hv hg
  obtain ⟨k, -, -⟩ := hcov f fn hf
  have htype : env.module.funcType f = k.type := by
    unfold Module.funcType
    rw [k.funcType]
    rfl
  rw [htype] at hargs
  obtain ⟨a, ha, hsim⟩ := sim_entry
    (g := ⟨f, 0, 0, slots, fn.firstLocals args, [], [], store⟩) hcov hf k.funcType args .none
  obtain ⟨a', ha', hentry⟩ := settles_entry hcov.covered hf k.funcType hargs hstore .last
  cases ha.symm.trans ha'
  refine ⟨⟨a, [], store⟩, ⟨f, 0, 0, slots, fn.firstLocals args, [], [], store⟩, ?_, ?_, ?_, ?_⟩
  · unfold Env.start?
    rw [ha]
    rfl
  · unfold start?
    rw [hf]
    rfl
  · intro n
    obtain ⟨k, hk⟩ := hsim.run hcov hentry n
    exact ⟨k, hk.sameRun (settles_run hcov.covered n hentry)⟩
  · intro j
    obtain ⟨n, k, hle, hk⟩ := hsim.reach hcov hentry j
    exact ⟨n, k, hle, hk.sameRun (settles_run hcov.covered n hentry)⟩

/-- A module with one function, which leaves a block with a value while another one lies below it. -/
def earlyExit : Module :=
  { Module.empty with
    types := [⟨[.i32], [.i32]⟩]
    functions := [⟨0, [.i64],
      [.block (.value .i32), .const .i64 3, .const .i32 7, .localGet 0, .brIf 0, .drop, .localSet 1,
        .localGet 0, .end_, .end_].map Placed.new, 0⟩] }

/-- The module on its own: it has no hosts, and it uses no numeric operators. -/
def earlyExitEnv : Env Unit where
  module := earlyExit
  num _ _ := .error (.trap .unreachable)
  host _ _ _ := .error (.trap .unreachable)
  pageLimit := 0
  tables := []
  num_type := nofun
  num_stop := by
    intro op args e _ h
    cases h
    nofun
  host_type := nofun
  host_stop := by
    intro f args s e h
    cases h
    nofun
  table_lt := nofun

theorem graphs_run_code_earlyExit :
    ∃ v graphs, validate earlyExit = .ok v ∧ Graph.ofModule v = .ok graphs ∧
      ∃ c g, earlyExitEnv.start? 0 [.i32 1] ⟨[], ⟨0, fun _ => 0⟩, ()⟩ = some c ∧
        start? earlyExitEnv (fun _ => .i32 0) 0 [.i32 1] ⟨[], ⟨0, fun _ => 0⟩, ()⟩ = some g ∧
        (∀ n, ∃ k, SameRun (runFor earlyExitEnv.step n c) (runFor (Flow.step earlyExitEnv graphs) k g)) ∧
        ∀ k, ∃ n k', k ≤ k' ∧
          SameRun (runFor earlyExitEnv.step n c) (runFor (Flow.step earlyExitEnv graphs) k' g) := by
  have hok : ((validate earlyExit).bind Graph.ofModule).isOk = true := by decide +kernel
  cases hboth : (validate earlyExit).bind Graph.ofModule with
  | error e =>
    rw [hboth] at hok
    cases hok
  | ok graphs =>
    obtain ⟨v, hv, hg⟩ := Except.bind_eq_ok.mp hboth
    have htyped : (⟨[], ⟨0, fun _ => 0⟩, ()⟩ : Wasm.Store Unit).Typed earlyExitEnv.module := rfl
    exact ⟨v, graphs, hv, hg, graphs_run_code hv hg rfl rfl htyped _⟩

end ScoreWasm.Flow
