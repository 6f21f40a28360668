import ScoreWasm.Proofs.Flow.Execution
import ScoreWasm.Proofs.Flow.Functions

/-!
# Graphs follow structured execution

One step of structured execution is followed by at most three steps of the graph, with the same events:
the operands that the one keeps on its stack, the other keeps in the slots from 0 on.  Callers that wait
for a function correspond to saved frames, whose blocks start by bringing back what was saved.

That checked code finds its operands where it expects them is known from running it; the graph only has
to be at the same place and to hold the same values.
-/

namespace ScoreWasm.Flow

open Wasm List
open Wasm.Validate (Stacks Frame FrameKind Note isFlat opened? checked)

variable {σ : Type} {env : Env σ} {bodies : List (List Checked)} {graphs : List Graph} {f : Nat}

/-- A function of a checked module with its graph and what the construction ended with. -/
structure Compiled (env : Env σ) (bodies : List (List Checked)) (graphs : List Graph)
    (f : Nat) extends Wasm.Source env.module bodies f where
  graph : Graph
  final : Draft
  graph_eq : graphOf? env graphs f = some graph
  graph_type : graph.type = type
  shows : Shows graph final

/-- The compiler was here, with these stacks and this draft. -/
def Compiled.At (k : Compiled env bodies graphs f) (code : List Instr) (s : Stacks) (d : Draft) : Prop :=
  Flow.At k.toSource k.final code s d

/-! ### Heads of loops -/

/-- For each open construct, the block that a branch back to it enters. -/
def heads (ss : List Scope) : List (Option Nat) :=
  ss.map (fun s => if s.kind = .loop then s.target else none)

theorem Fills.heads : ∀ {ss ss' : List Scope}, Fills ss ss' → heads ss' = heads ss
  | [], [], _ => rfl
  | s :: ss, s' :: ss', h => by
    show (if s'.kind = .loop then s'.target else none) :: Flow.heads ss' =
      (if s.kind = .loop then s.target else none) :: Flow.heads ss
    rw [Fills.heads h.2, h.1.kind]
    congr 1
    split
    · rename_i hk
      exact h.1.loop hk
    · rfl

theorem heads_drop (ss : List Scope) (n : Nat) : heads (ss.drop n) = (heads ss).drop n := by
  unfold heads
  rw [map_drop]

/-- The place after a `loop` is at the start of the block that a branch back to it enters. -/
def Headed (k : Compiled env bodies graphs f) (hs : List (Option Nat)) (cont : List Instr) : Prop :=
  ∃ s d, k.At cont s d ∧ d.Open d.current 0 ∧ heads d.scopes = hs ∧ hs.head? = some (some d.current)

/-- Each loop among the labels goes on at its head. -/
def Heads (k : Compiled env bodies graphs f) (hs : List (Option Nat)) (labels : List Label) : Prop :=
  ∀ n l, labels[n]? = some l → l.isLoop = true → Headed k (hs.drop n) l.cont

variable {k : Compiled env bodies graphs f} {hs : List (Option Nat)} {labels : List Label} {l : Label}

theorem Heads.drop (h : Heads k hs labels) (n : Nat) : Heads k (hs.drop n) (labels.drop n) := by
  intro j l hl hloop
  rw [getElem?_drop] at hl
  rw [drop_drop]
  exact h (n + j) l hl hloop

theorem Heads.cons (h : Heads k hs labels) {b : Option Nat}
    (hl : l.isLoop = true → Headed k (b :: hs) l.cont) : Heads k (b :: hs) (l :: labels)
  | 0, _, rfl, hloop => hl hloop
  | n + 1, l', hl', hloop => h n l' hl' hloop

/-! ### Correspondence -/

/-- An activation stands at a place of its body, with its loops where their heads are. -/
structure Stands (a : Activation) (k : Compiled env bodies graphs a.func) (s : Stacks) (d : Draft) : Prop where
  place : k.At a.code s d
  heads : Heads k (heads d.scopes) a.labels

variable {c : Config σ} {g g' : State σ} {es : List Event} {o : Outcome σ (Config σ)} {stack stack' : List Value}

section Relation

variable (env : Env σ) (bodies : List (List Checked)) (graphs : List Graph)

/-- The activations that wait for results, and what was saved for them. -/
inductive Waiting : List ValType → List Activation → List Saved → Prop where
  | none {results : List ValType} : Waiting results [] []
  | some {results : List ValType} {a : Activation} {as : List Activation} {frs : List Saved}
      (k : Compiled env bodies graphs a.func) {s : Stacks} {d : Draft} {live : List ValType} :
    Stands a k s d → d.Open d.current 1 → d.instrAt d.current 0 = some (.resume live results a.stack.length) →
    live.length = a.stack.length → Waiting k.type.results as frs →
    Waiting results (a :: as) (⟨a.func, d.current, a.locals, a.stack.reverse⟩ :: frs)

end Relation

/-- The state of the graphs that belongs to a configuration with a stack, except for where it is. -/
structure Carries (c : Config σ) (k : Compiled env bodies graphs c.active.func) (stack : List Value)
    (g : State σ) : Prop where
  func : g.func = c.active.func
  slots : g.slots.HoldsStack stack
  locals : g.locals = c.active.locals
  store : g.store = c.store
  waiting : Waiting env bodies graphs k.type.results c.waiting g.frames

section Relation

variable (env : Env σ) (bodies : List (List Checked)) (graphs : List Graph)

/-- A configuration and a state of the graphs are at the same point of a run. -/
inductive Sim (c : Config σ) (g : State σ) : Prop where
  | mk (k : Compiled env bodies graphs c.active.func) {s : Stacks} {d : Draft} :
    Stands c.active k s d → g.block = d.current → d.Open d.current g.index →
    Carries c k c.active.stack g → Sim c g

/-- Two steps have come to the same point, or to the same end. -/
def Agrees : Outcome σ (Config σ) → Outcome σ (State σ) → Prop
  | .next c, .next g => Sim env bodies graphs c g
  | .done r s, .done r' s' => r = r' ∧ s = s'
  | .halt w s, .halt w' s' => w = w' ∧ s = s'
  | _, _ => False

/-- After a number of steps with the given events, a state agrees with an outcome. -/
def Follows (n : Nat) (es : List Event) (o : Outcome σ (Config σ)) (g : State σ) : Prop :=
  ∃ o', runFor (step env graphs) n g = (es, o') ∧ Agrees env bodies graphs o o'

end Relation

theorem Follows.stay (h : Sim env bodies graphs c g) : Follows env bodies graphs 0 [] (.next c) g := ⟨_, rfl, h⟩

theorem Follows.last {o' : Outcome σ (State σ)} (hstep : step env graphs g = (es, o'))
    (h : Agrees env bodies graphs o o') : Follows env bodies graphs 1 es o g := by
  refine ⟨o', ?_, h⟩
  rw [runFor_one]
  exact hstep

theorem Follows.cons {n : Nat} {es' : List Event} (hstep : step env graphs g = (es, .next g'))
    (h : Follows env bodies graphs n es' o g') : Follows env bodies graphs (n + 1) (es ++ es') o g := by
  obtain ⟨o', hrun, hagree⟩ := h
  refine ⟨o', ?_, hagree⟩
  rw [runFor_succ_next hstep, hrun]

theorem Carries.with_slots {k : Compiled env bodies graphs c.active.func} {slots : Slots} (h : Carries c k stack g)
    (hslots : slots.HoldsStack stack') (b n : Nat) : Carries c k stack' { g with block := b, index := n, slots := slots } :=
  ⟨h.func, hslots, h.locals, h.store, h.waiting⟩

theorem Carries.at_block {k : Compiled env bodies graphs c.active.func} (h : Carries c k stack g)
    (b n : Nat) : Carries c k stack { g with block := b, index := n } :=
  h.with_slots h.slots b n

/-- Going on in the same function at another place. -/
theorem Carries.sim {k : Compiled env bodies graphs c.active.func} {code : List Instr} {s : Stacks} {d : Draft}
    (h : Carries c k stack g) (hplace : k.At code s d) (hheads : Heads k (heads d.scopes) labels)
    (hblock : g.block = d.current) (hopen : d.Open d.current g.index) :
    Sim env bodies graphs { c with active := { c.active with code := code, labels := labels, stack := stack } } g :=
  .mk k ⟨hplace, hheads⟩ hblock hopen ⟨h.func, h.slots, h.locals, h.store, h.waiting⟩

/-! ### Single steps of graphs -/

section Steps

variable (k : Compiled env bodies graphs f) (hf : g.func = f)
include hf

theorem step_instr {i : BlockInstr} (hi : k.final.instrAt g.block g.index = some i) :
    step env graphs g = stepBlockInstr env g i := by
  obtain ⟨block, hb, hn⟩ := k.shows.instr hi
  unfold step
  rw [hf, k.graph_eq]
  simp only [hb, hn]

theorem step_term {t : Terminator} (ht : k.final.termAt g.block g.index = some t) :
    step env graphs g = stepTerm env k.type.results.length g t := by
  obtain ⟨block, hb, hn, rfl⟩ := k.shows.term ht
  unfold step
  rw [hf, k.graph_eq]
  simp only [hb, hn, k.graph_type]

end Steps

/-! ### Returns -/

/-- **A function that ends passes its results to the caller that waits**, whose locals and operands are
those it had before the call. -/
theorem follows_ret {g0 : State σ} {vs : List Value} {results : List ValType}
    (hstep : step env graphs g0 = (es, g.leave vs)) (hw : Waiting env bodies graphs results c.waiting g.frames)
    (hlen : vs.length = results.length) (hstore : g.store = c.store) :
    ∃ n, Follows env bodies graphs (n + 1) es (c.ret vs) g0 := by
  unfold State.leave at hstep
  unfold Config.ret
  generalize c.waiting = waiting at hw
  generalize g.frames = frames at hw hstep
  cases hw with
  | none => exact ⟨0, .last hstep ⟨rfl, hstore.symm⟩⟩
  | @some _ a as frs k s d live hst hopen hresume hlive hw =>
    refine ⟨1, ?_⟩
    rw [← append_nil es]
    have hnext := step_instr k (g := { g with
      func := a.func, block := d.current, index := 0, results := vs
      frames := ⟨a.func, d.current, a.locals, a.stack.reverse⟩ :: frs }) rfl (hst.place.grows.instrAt hresume)
    refine .cons hstep (.last (hnext.trans rfl) ?_)
    refine Sim.mk k ⟨hst.place, hst.heads⟩ rfl hopen ⟨rfl, ?_, rfl, hstore, hw⟩
    rw [← hlen, take_length]
    refine Slots.HoldsStack.write ?_
    rw [hlive, ← length_reverse, take_length]
    unfold Slots.HoldsStack
    rw [← length_reverse]
    exact Slots.read_write 0 a.stack.reverse

/-! ### Meeting an instruction -/

variable {final : List ValType} {label : Int}

/-- Both machines are at an instruction, which the two readings have read. -/
structure Meets (final : List ValType) (c : Config σ) (g : State σ) (k : Compiled env bodies graphs c.active.func)
    (i : Instr) (rest : List Instr) (s : Stacks) (d : Draft) (offset : Nat) (note : Note) (s' : Stacks) (d' : Draft) :
    Prop where
  tracked : Wasm.Meets final c k.toSource i rest s offset note s'
  heads : Heads k (heads d.scopes) c.active.labels
  block : g.block = d.current
  opened : d.Open d.current g.index
  carries : Carries c k c.active.stack g
  build : ∃ hasElse, (∀ bt, i = .if_ bt → hasElse = (afterElse? 0 rest).isSome) ∧
    Build.step ⟨env.module, c.active.func, k.type⟩ hasElse (checked i offset s note) d = .ok ((), d')
  place : k.At (i :: rest) s d
  read : Read i d d'
  next : k.At rest s' d'

theorem Sim.meets (h : Sim env bodies graphs c g) (hsettled : Settles env.module bodies final (.next c)) :
    ∃ (k : Compiled env bodies graphs c.active.func) (i : Instr) (rest : List Instr) (s : Stacks) (d : Draft)
      (offset : Nat) (note : Note) (s' : Stacks) (d' : Draft), Meets final c g k i rest s d offset note s' d' := by
  obtain ⟨k0, s, hactive⟩ := hsettled
  cases h with
  | @mk k s0 d hst hblock hopen hcarries =>
    obtain rfl := k0.unique k.toSource
    obtain rfl := hactive.stands.place.unique hst.place.place
    have hplace := hst.place
    cases hcode : c.active.code with
    | nil =>
      rw [hcode] at hplace
      exact absurd hplace.place.frames_nil hactive.stands.inside
    | cons i rest =>
      rw [hcode] at hplace
      obtain ⟨offset, note, s', d', hasElse, hstep, helse, hb, hread, hnext⟩ := hplace.read
      exact ⟨k, i, rest, s, d, offset, note, s', d', ⟨hactive, hcode, hstep, hnext.place⟩,
        hst.heads, hblock, hopen, hcarries, ⟨hasElse, helse, hb⟩, hplace, hread, hnext⟩

/-! ### Branches -/

/-- The construct that a label stands for, as everyone sees it. -/
structure Target (c : Config σ) (stack : List Value) (s : Stacks) (d : Draft) (label : Int)
    (depth : Nat) (fr : Frame) (l : Label) (scope : Scope) : Prop where
  position : position? c.active.labels.length label = some depth
  position' : position? d.scopes.length label = some depth
  frame : s.frames[depth]? = some fr
  labelled : c.active.labels[depth]? = some l
  construct : d.scopes[depth]? = some scope
  kind : scope.kind = scopeKind fr.kind
  type : scope.type = fr.type
  base : scope.base = fr.height
  fits : fr.labelTypes.length + fr.height ≤ stack.length

section

variable {s : Stacks} {d : Draft} {depth : Nat} {fr : Frame} {scope : Scope}

theorem Target.labelTypes (h : Target c stack s d label depth fr l scope) : scope.labelTypes = fr.labelTypes := by
  unfold Scope.labelTypes Frame.labelTypes
  rw [h.kind, h.type]
  cases fr.kind <;> rfl

theorem Target.kind_ne (h : Target c stack s d label depth fr l scope) {kind : FrameKind}
    (hk : fr.kind ≠ kind) : scope.kind ≠ scopeKind kind := by
  rw [h.kind]
  exact fun he => hk (scopeKind_injective he)

/-- The values lie where the target of a branch expects them. -/
def moved (stack : List Value) (fr : Frame) : List Value :=
  stack.take fr.labelTypes.length ++ stack.drop (stack.length - fr.height)

/-- Whether a branch to a construct has to move its values. -/
def needsMove (stack : List Value) (fr : Frame) : Bool :=
  !fr.labelTypes.isEmpty && (stack.length : Int) - fr.labelTypes.length != fr.height

/-- How a branch that is not a return goes on: a move if one is needed, and a jump. -/
theorem Target.jumps {site : Site} {r : Option BlockInstr × Terminator} (ht : Target c stack s d label depth fr l scope)
    (hfun : fr.kind ≠ .function) (hr : Build.Branches site d.scopes label stack.length r) :
    ∃ b, scope.target = some b ∧ r = (if needsMove stack fr then
          some (.move (stack.length - fr.labelTypes.length : Nat) fr.height fr.labelTypes) else none,
        .jump b (scope.kind == .loop)) := by
  have hj := hr depth scope ht.position' ht.construct
  unfold Build.JumpsTo at hj
  rw [if_neg (show scope.kind ≠ .function from ht.kind_ne hfun), ht.labelTypes, ht.base] at hj
  obtain ⟨b, hb, hr⟩ := hj
  have hfits := ht.fits
  refine ⟨b, hb, ?_⟩
  rw [hr]
  unfold needsMove
  rw [show (stack.length : Int) - fr.labelTypes.length = ((stack.length - fr.labelTypes.length : Nat) : Int) by omega]

theorem Target.holds {slots : Slots} (ht : Target c stack s d label depth fr l scope)
    (h : slots.HoldsStack stack) : Slots.HoldsStack (if needsMove stack fr then
        slots.move (stack.length - fr.labelTypes.length : Nat) fr.height fr.labelTypes.length else slots)
      (moved stack fr) := by
  have hfits := ht.fits
  refine h.moved hfits (needsMove stack fr) ?_
  intro hno
  rcases Bool.and_eq_false_iff.mp hno with hno | hno
  · left
    simpa using hno
  · right
    have : (stack.length : Int) - fr.labelTypes.length = fr.height := by simpa using hno
    omega

end

namespace Meets

variable {k : Compiled env bodies graphs c.active.func} {i : Instr} {rest : List Instr} {s s' : Stacks} {d d' : Draft}
  {offset : Nat} {note : Note} {depth : Nat} {fr : Frame} {l : Label} {scope : Scope} {r : Option BlockInstr × Terminator}
  (h : Meets final c g k i rest s d offset note s' d')

include h

theorem wf : d.WF := h.place.draft

/-- What the reading of the instruction has put into the graph is in the finished graph. -/
theorem grows : d'.Grows k.final := h.next.grows

/-- The terminator that the instruction has given to the current block is run. -/
theorem step_term {t : Terminator} (ht : d'.termAt d.current g.index = some t) :
    Flow.step env graphs g = stepTerm env k.type.results.length g t := by
  refine Flow.step_term k h.carries.func ?_
  rw [h.block]
  exact h.grows.termAt ht

section

variable (hi : isFlat i = true)
include hi

/-- A flat instruction leaves the open constructs as they are. -/
theorem within : Build.Within d d' := by
  cases h.read with
  | flat _ hw => exact hw
  | opens hi' _ => cases i <;> simp_all [isFlat, opened?]
  | turn hi' | close hi' => rw [hi'] at hi; cases hi

theorem heads_flat : Heads k (Flow.heads d'.scopes) c.active.labels := by
  rw [(h.within hi).fills.heads]
  exact h.heads

theorem target (hreach : Validate.Reaches s.frames (stack.map Value.type) label) :
    ∃ depth fr l scope, Target c stack s d' label depth fr l scope := by
  obtain ⟨depth, fr, ts, hpos, hfr, htypes, hfits⟩ := hreach.target h.tracked.heights
  have hw := h.within hi
  have hlabels := h.tracked.labels.length
  obtain ⟨l, hl⟩ : ∃ l, c.active.labels[depth]? = some l :=
    ⟨_, getElem?_eq_getElem (by rw [hlabels]; exact (List.getElem?_eq_some_iff.mp hfr).1)⟩
  obtain ⟨scope0, hscope0, hkind, htype, hbase⟩ := h.place.fits.get hfr
  obtain ⟨scope, hscope, hle⟩ := hw.fills.get hscope0
  refine ⟨depth, fr, l, scope, by rw [hlabels]; exact hpos, ?_, hfr, hl, hscope,
    hle.kind.trans hkind, hle.type.trans htype, hle.base.trans (hbase ?_), ?_⟩
  · rw [hw.fills.length, h.place.fits.length]
    exact hpos
  · intro g hg
    exact h.tracked.active.knows.live g (mem_of_mem_drop hg)
  · have hlen := congrArg List.length htypes
    simp only [length_map, length_append, length_reverse] at hlen
    omega

/-- A branch that is not a return, once its values are in place: it arrives. -/
theorem arrive (ht : Target c stack s d' label depth fr l scope) (hfun : fr.kind ≠ .function)
    (htarget : scope.target = some g'.block) (hindex : g'.index = 0) (hg : Carries c k (moved stack fr) g') :
    Agrees env bodies graphs (c.branch { c.active with code := rest, stack := stack } label) (.next g') := by
  have hok := h.tracked.labels.each depth fr l ht.frame ht.labelled
  have hheads := h.heads_flat hi
  unfold Config.branch
  simp only [ht.position, ht.labelled]
  rw [hok.arity, hok.height]
  by_cases hloop : fr.kind = .loop
  · rw [if_pos (hok.isLoop.mpr hloop)]
    obtain ⟨s0, d0, hat, hopen, hheads0, hblock⟩ := hheads depth l ht.labelled (hok.isLoop.mpr hloop)
    -- The construct still has the block that it got when it was opened.
    have hcur : g'.block = d0.current := by
      unfold Flow.heads at hblock
      rw [head?_drop, getElem?_map, ht.construct, Option.map_some, if_pos (by rw [ht.kind, hloop]; rfl), htarget] at hblock
      simpa using hblock
    exact hg.sim hat (by rw [hheads0]; exact hheads.drop depth) hcur (by rw [hindex]; exact hopen)
  · have hlen := h.tracked.labels.length
    have hinner := h.place.place.shaped.inner ht.frame hfun
    rw [if_neg (fun hl => hloop (hok.isLoop.mp hl)), if_neg (show ¬depth + 1 = c.active.labels.length by omega)]
    obtain ⟨s1, d1, hplace, hb⟩ := h.next.behind (List.getElem?_eq_some_iff.mp ht.construct).1
    obtain ⟨hcur, hopen⟩ := hb.target scope g'.block ht.construct (ht.kind_ne hloop) (ht.kind_ne hfun) htarget
    rw [hok.forward hloop hfun, afterEnd_flat hi]
    refine hg.sim hplace ?_ hcur.symm (by rw [hcur, hindex]; exact hopen)
    rw [hb.scopes.heads, heads_drop]
    exact hheads.drop (depth + 1)

section

variable (hreach : Validate.Reaches s.frames (stack.map Value.type) label)
include hreach

/-- A conditional branch that enters its target at once. -/
theorem direct {site : Site} (hr : Build.Branches site d'.scopes label stack.length (none, .jump g'.block false))
    (hindex : g'.index = 0) (hg : Carries c k stack g') :
    Agrees env bodies graphs (c.branch { c.active with code := rest, stack := stack } label) (.next g') := by
  obtain ⟨depth, fr, l, scope, ht⟩ := h.target hi hreach
  have hfun : fr.kind ≠ .function := by
    intro hk
    have hj := hr depth scope ht.position' ht.construct
    unfold Build.JumpsTo at hj
    rw [ht.kind, hk] at hj
    cases hj
  obtain ⟨b, hb, hjump⟩ := ht.jumps hfun hr
  have hno : needsMove stack fr = false := by
    cases hm : needsMove stack fr with
    | false => rfl
    | true =>
      rw [hm] at hjump
      cases hjump
  have hheld := ht.holds hg.slots
  rw [hno] at hheld
  have hblock : g'.block = b := (Terminator.jump.inj (congrArg Prod.snd hjump)).1
  rw [← hblock] at hb
  exact h.arrive hi ht hfun hb hindex (hg.with_slots hheld _ _)

/-- **A branch of the graph follows a branch of the code**, wherever it leads. -/
theorem runs (hr : Build.Branches ⟨env.module, c.active.func, k.type⟩ d'.scopes label stack.length r)
    (hrun : Build.Runs k.final g'.block g'.index r) (hg : Carries c k stack g') :
    ∃ n, Follows env bodies graphs (n + 1) [] (c.branch { c.active with code := rest, stack := stack } label) g' := by
  obtain ⟨depth, fr, l, scope, ht⟩ := h.target hi hreach
  have hfits := ht.fits
  by_cases hfun : fr.kind = .function
  · -- The function's own label: the branch returns.
    have hok := h.tracked.labels.each depth fr l ht.frame ht.labelled
    obtain ⟨houter, hresults⟩ := Validate.shaped_get h.place.place.shaped ht.frame
    have hj := hr depth scope ht.position' ht.construct
    unfold Build.JumpsTo at hj
    rw [ht.kind, hfun, if_pos (show scopeKind .function = .function from rfl)] at hj
    subst hj
    have hnotLoop : fr.kind ≠ .loop := by
      rw [hfun]
      nofun
    have hlabel : fr.labelTypes = k.type.results := (Validate.Frame.labelTypes_forward hnotLoop).trans (hresults hfun)
    rw [hlabel] at hfits
    have hbranch : c.branch { c.active with code := rest, stack := stack } label =
        c.ret (stack.take k.type.results.length).reverse := by
      unfold Config.branch
      simp only [ht.position, ht.labelled]
      rw [if_neg (fun hl => hnotLoop (hok.isLoop.mp hl)),
        if_pos (by rw [h.tracked.labels.length]; exact houter.mp hfun), hok.arity, hlabel]
    rw [hbranch]
    refine follows_ret ?_ hg.waiting (by simp; omega) hg.store
    rw [Flow.step_term k hg.func hrun]
    have hsplit : g'.slots.HoldsStack (stack.take k.type.results.length ++ stack.drop k.type.results.length) := by
      rw [take_append_drop]
      exact hg.slots
    have hread := (Slots.HoldsStack.append.mp hsplit).2
    rw [length_drop, length_take, Nat.min_eq_left (by omega)] at hread
    show ([], g'.leave (g'.slots.read ((stack.length : Int) - k.type.results.length) k.type.results.length)) = _
    rw [show (stack.length : Int) - k.type.results.length = ((stack.length - k.type.results.length : Nat) : Int) by omega,
      hread]
  · obtain ⟨b, hb, rfl⟩ := ht.jumps hfun hr
    have hheld := ht.holds hg.slots
    cases hm : needsMove stack fr with
    | false =>
      rw [hm] at hrun hheld
      refine ⟨0, .last ((Flow.step_term k hg.func hrun).trans rfl) ?_⟩
      exact h.arrive hi ht hfun hb rfl (hg.with_slots hheld _ _)
    | true =>
      rw [hm] at hrun hheld
      obtain ⟨hinstr, hterm⟩ := hrun
      have hjump := Flow.step_term k (g := { g' with
        index := g'.index + 1
        slots := g'.slots.move (stack.length - fr.labelTypes.length : Nat) fr.height
          fr.labelTypes.length }) hg.func hterm
      refine ⟨1, .cons ((step_instr k hg.func hinstr).trans rfl) (.last (hjump.trans rfl) ?_)⟩
      exact h.arrive hi ht hfun hb rfl (hg.with_slots hheld _ _)

end

end

end Meets

end ScoreWasm.Flow
