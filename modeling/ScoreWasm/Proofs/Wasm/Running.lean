import ScoreWasm.Proofs.Wasm.Places
import ScoreWasm.Proofs.Wasm.Soundness

/-!
# Running activations

An activation that runs stands at a place in the body of its function, and its labels belong to the open
blocks there.  The labels are what connects a place with those that a branch goes to: a label goes on behind
the end of its construct, as it is found from the present place, or at the place after its `loop`.
Wherever a branch arrives, checking has been there too.
-/

namespace ScoreWasm.Wasm

open Validate List

variable {σ : Type} {locals results top : List Value}

variable {fr : Frame} {l : Label}

/-! ### Labels -/

/-- A function of a checked module with its type and its checked body. -/
structure Source (m : Module) (bodies : List (List Checked)) (f : Nat) where
  fn : Function
  type : FuncType
  body : List Checked
  defined : m.defined? f = some fn
  funcType : m.funcType? f = some type
  checked : bodies[f - m.importCount]? = some body

variable {m : Module} {bodies : List (List Checked)} {f : Nat}

theorem Source.unique (k k' : Source m bodies f) : k = k' := by
  obtain ⟨fn, t, body, hf, ht, hb⟩ := k
  obtain ⟨fn', t', body', hf', ht', hb'⟩ := k'
  cases hf.symm.trans hf'
  cases ht.symm.trans ht'
  cases hb.symm.trans hb'
  rfl

/-- The checker was here, with these stacks. -/
def Source.At (k : Source m bodies f) (code : List Instr) (s : Stacks) : Prop :=
  Place (context m k.type k.fn) k.fn.body (firstStacks k.type) k.body code s

/-- The place after a `loop`, as it is seen from inside the loop. -/
structure LoopHead (k : Source m bodies f) (code : List Instr) (s : Stacks) (n : Nat) (fr : Frame)
    (cont : List Instr) (s0 : Stacks) : Prop where
  place : k.At cont s0
  frames : s0.frames = s.frames.drop n
  vals : s0.vals = (fr.type.params.map some).reverse ++ low fr.height s.vals
  nesting : ∀ j, afterEnd (n + j) code = afterEnd j cont

/-- A label belongs to the open block at a depth. -/
structure LabelFits (k : Source m bodies f) (code : List Instr) (s : Stacks) (n : Nat) (fr : Frame)
    (l : Label) : Prop where
  isLoop : l.isLoop = true ↔ fr.kind = .loop
  arity : l.arity = fr.labelTypes.length
  height : l.height = fr.height
  forward : fr.kind ≠ .loop → fr.kind ≠ .function → l.cont = afterEnd n code
  back : fr.kind = .loop → ∃ s0, LoopHead k code s n fr l.cont s0

/-- Each label belongs to its block. -/
structure LabelsFit (k : Source m bodies f) (code : List Instr) (s : Stacks) (labels : List Label) : Prop where
  length : labels.length = s.frames.length
  each : ∀ (n : Nat) (fr : Frame) (l : Label), s.frames[n]? = some fr → labels[n]? = some l → LabelFits k code s n fr l

variable {k : Source m bodies f} {code code' : List Instr} {s s' : Stacks}

/-- A label keeps belonging to its block at another place inside it. -/
theorem LabelFits.move {n n' : Nat} (h : LabelFits k code s n fr l) (hframes : s'.frames.drop n' = s.frames.drop n)
    (hlow : low fr.height s'.vals = low fr.height s.vals)
    (hcode : ∀ j, afterEnd (n' + j) code' = afterEnd (n + j) code) : LabelFits k code' s' n' fr l := by
  refine ⟨h.isLoop, h.arity, h.height, ?_, ?_⟩
  · intro hl hf
    rw [h.forward hl hf]
    exact (hcode 0).symm
  · intro hl
    obtain ⟨s0, hh⟩ := h.back hl
    refine ⟨s0, hh.place, ?_, ?_, ?_⟩
    · rw [hframes]
      exact hh.frames
    · rw [hlow]
      exact hh.vals
    · intro j
      rw [hcode]
      exact hh.nesting j

section

variable {labels : List Label} (h : LabelsFit k code s labels)
include h

/-- The labels of the constructs around two places, as seen from the second one. -/
theorem LabelsFit.move {n : Nat} (hframes : s'.frames = s.frames.drop n)
    (hlow : ∀ fr ∈ s.frames.drop n, low fr.height s'.vals = low fr.height s.vals)
    (hcode : ∀ j, afterEnd j code' = afterEnd (n + j) code) : LabelsFit k code' s' (labels.drop n) := by
  refine ⟨by rw [hframes, length_drop, length_drop, h.length], ?_⟩
  intro j fr l hfr hl
  rw [hframes, getElem?_drop] at hfr
  rw [getElem?_drop] at hl
  refine (h.each (n + j) fr l hfr hl).move ?_ ?_ ?_
  · rw [hframes, drop_drop]
  · refine hlow fr ?_
    refine mem_of_getElem? (i := j) ?_
    rw [getElem?_drop]
    exact hfr
  · intro i
    rw [hcode, Nat.add_assoc]

/-- The label of a construct that was entered goes before those around it. -/
theorem LabelsFit.enter (hframes : s'.frames = fr :: s.frames)
    (hlow : ∀ g ∈ s.frames, low g.height s'.vals = low g.height s.vals)
    (hcode : ∀ j, afterEnd (j + 1) code' = afterEnd j code) (hl : LabelFits k code' s' 0 fr l) :
    LabelsFit k code' s' (l :: labels) := by
  refine ⟨by rw [hframes, length_cons, length_cons, h.length], ?_⟩
  intro n g l' hg hl'
  rw [hframes] at hg
  cases n with
  | zero =>
    cases hg
    cases hl'
    exact hl
  | succ n =>
    refine (h.each n g l' hg hl').move ?_ (hlow g (mem_of_getElem? hg)) ?_
    · rw [hframes]
      rfl
    · intro j
      rw [← hcode, Nat.add_right_comm]

end

/-! ### Running configurations -/

/-- An activation stands at a place in the body of its function. -/
structure Stands (a : Activation) (k : Source m bodies a.func) (s : Stacks) : Prop where
  place : k.At a.code s
  inside : s.frames ≠ []
  labels : LabelsFit k a.code s a.labels
  locals : a.locals.map Value.type = k.type.params ++ k.fn.locals

/-- The activations that wait for each other's results, until the outermost one returns. -/
inductive Waits (m : Module) (bodies : List (List Checked)) (final : List ValType) :
    List ValType → List Activation → Prop where
  | last : Waits m bodies final final []
  | call {a : Activation} {waiting : List Activation} {results : List ValType} {s : Stacks}
    (k : Source m bodies a.func) : Stands a k s → s.Knows (results.reverse ++ a.stack.map Value.type) →
    Waits m bodies final k.type.results waiting → Waits m bodies final results (a :: waiting)

/-- The activations of a configuration stand where checking has been, with what it has found there. -/
structure Active (final : List ValType) (c : Config σ) (k : Source m bodies c.active.func) (s : Stacks) : Prop where
  stands : Stands c.active k s
  knows : s.Knows (c.active.stack.map Value.type)
  typed : c.store.Typed m
  waits : Waits m bodies final k.type.results c.waiting

/-- A run goes on as checking has foreseen it, or it has ended with results of the right types or for a
reason of its own. -/
def Settles (m : Module) (bodies : List (List Checked)) (final : List ValType) : Outcome σ (Config σ) → Prop
  | .next c => ∃ (k : Source m bodies c.active.func) (s : Stacks), Active final c k s
  | .done results s => results.map Value.type = final ∧ s.Typed m
  | .halt why s => why ≠ .stuck ∧ s.Typed m

variable {final : List ValType} {c : Config σ}

/-- Returning gives the results to the activation that waits for them. -/
theorem settles_ret {types : List ValType} (htyped : c.store.Typed m)
    (hw : Waits m bodies final types c.waiting) (hr : results.map Value.type = types) :
    Settles m bodies final (c.ret results) := by
  unfold Config.ret
  cases hc : c.waiting with
  | nil =>
    rw [hc] at hw
    cases hw with
    | last => exact ⟨hr, htyped⟩
  | cons a waiting =>
    rw [hc] at hw
    cases hw with
    | call k hst hknows hrest =>
      refine ⟨k, _, ⟨hst.place, hst.inside, hst.labels, hst.locals⟩, ?_, htyped, hrest⟩
      rw [map_append, map_reverse, hr]
      exact hknows

/-! ### Meeting an instruction -/

/-- An activation stands at an instruction, which was checked from the stacks before it to those after
it. -/
structure Meets (final : List ValType) (c : Config σ) (k : Source m bodies c.active.func) (i : Instr)
    (rest : List Instr) (s : Stacks) (offset : Nat) (note : Note) (s' : Stacks) : Prop where
  active : Active final c k s
  code : c.active.code = i :: rest
  check : step { context m k.type k.fn with offset := offset } i s = .ok (note, s')
  after : k.At rest s'

namespace Meets

variable {k : Source m bodies c.active.func} {i : Instr} {rest : List Instr} {offset : Nat} {note : Note}

variable {s1 : Stacks} {stack : List Value} {store : Store σ} {label : Int} {kind : FrameKind}
  {t : FuncType} {below : List ValType}

section

variable (h : Meets final c k i rest s offset note s')

include h

theorem place : k.At (i :: rest) s :=
  h.code ▸ h.active.stands.place

theorem labels : LabelsFit k (i :: rest) s c.active.labels :=
  h.code ▸ h.active.stands.labels

theorem heights : s.WF := h.active.stands.place.heights

theorem inside : s.frames ≠ [] := h.active.stands.inside

/-- Going on at a place, with the labels of the constructs around it. -/
theorem goes {labels : List Label} (hplace : k.At code s1) (hin : s1.frames ≠ []) (hlabels : LabelsFit k code s1 labels)
    (hknows : s1.Knows (stack.map Value.type)) (hlocals : locals.map Value.type = k.type.params ++ k.fn.locals)
    (hstore : store.Typed m) :
    Settles m bodies final (.next { c with
      active := { c.active with code := code, labels := labels, stack := stack, locals := locals }
      store := store }) :=
  ⟨k, s1, ⟨hplace, hin, hlabels, hlocals⟩, hknows, hstore, h.active.waits⟩

/-- The labels after an instruction that neither opens nor ends a construct. -/
theorem labels_flat (hi : isFlat i = true) {ts : List ValType} (hknows : s'.Knows ts) :
    s'.frames = s.frames ∧ LabelsFit k rest s' c.active.labels := by
  have hk := (step_flat h.heights hi h.check).1
  have hframes : s'.frames = s.frames := by
    rcases hk with hk | ⟨f, fs, hf, rfl⟩
    · exact hk.frames
    · have := hknows.live _ mem_cons_self
      cases this
  refine ⟨hframes, h.labels.move (n := 0) hframes ?_ ?_⟩
  · intro fr hfr
    exact low_of_keeps h.heights hfr hk
  · intro j
    rw [afterEnd_flat hi, Nat.zero_add]

theorem onward (hi : isFlat i = true) (hknows : s'.Knows (stack.map Value.type))
    (hlocals : locals.map Value.type = k.type.params ++ k.fn.locals) (hstore : store.Typed m) :
    Settles m bodies final (.next { c with
      active := { c.active with code := rest, stack := stack, locals := locals }, store := store }) := by
  obtain ⟨hframes, hlabels⟩ := h.labels_flat hi hknows
  exact h.goes h.after (by rw [hframes]; exact h.inside) hlabels hknows hlocals hstore

/-! ### Branches -/

/-- What stays below the target of a branch. -/
theorem low_vals (hstack : c.active.stack = top ++ stack) (hfr : fr.height ≤ stack.length) :
    low fr.height s.vals = ((stack.drop (stack.length - fr.height)).map Value.type).map some := by
  rw [h.active.knows.vals, hstack, low_map, low_map, low_append top hfr]
  rfl

/-- **A branch arrives where checking has been.** -/
theorem settles_branch (top : List Value) (hstack : c.active.stack = top ++ stack)
    (hreach : Reaches s.frames (stack.map Value.type) label) :
    Settles m bodies final (c.branch { c.active with code := rest, stack := stack } label) := by
  obtain ⟨depth, fr, below, hpos, hfr, htypes, hheight⟩ := hreach.target h.heights
  have hdepth := (List.getElem?_eq_some_iff.mp hfr).1
  have hlen := h.labels.length
  rw [← hlen] at hpos
  obtain ⟨l, hl⟩ : ∃ l, c.active.labels[depth]? = some l := ⟨_, getElem?_eq_getElem (by rw [hlen]; exact hdepth)⟩
  have hok := h.labels.each depth fr l hfr hl
  have hle : fr.height ≤ s.vals.length := Heights.le_of_mem h.heights (mem_of_getElem? hfr)
  have hlow : low fr.height s.vals = _ := h.low_vals hstack (by
    have := congrArg List.length htypes
    simp only [length_map, length_append] at this
    omega)
  have htaken := types_taken htypes
  have hvals : (fr.labelTypes.map some).reverse ++ low fr.height s.vals =
      ((stack.take fr.labelTypes.length ++ stack.drop (stack.length - fr.height)).map Value.type).map some := by
    rw [hlow, map_append, map_append, htaken, map_reverse]
  -- Whatever stays open around the target keeps its label.
  have hstay : ∀ {n : Nat} {code : List Instr} {s1 : Stacks}, depth ≤ n → n < s.frames.length →
      s1.frames = s.frames.drop n → s1.vals = (fr.labelTypes.map some).reverse ++ low fr.height s.vals →
      k.At code s1 → (∀ j, afterEnd j code = afterEnd (n + j) (i :: rest)) →
      Settles m bodies final (c.go { c.active with
        code := code
        labels := c.active.labels.drop n
        stack := stack.take fr.labelTypes.length ++ stack.drop (stack.length - fr.height) }) := by
    intro n code s1 hn hlt hframes hvals1 hplace hcode
    have hin : s1.frames ≠ [] := by
      rw [hframes, ne_eq, drop_eq_nil_iff]
      omega
    refine h.goes hplace hin (h.labels.move hframes ?_ hcode) ⟨hvals1.trans hvals, ?_⟩
      h.active.stands.locals h.active.typed
    · intro g hg
      rw [hvals1]
      refine low_append_low _ (h.heights.height_le hfr ?_) hle
      rw [← Nat.add_sub_cancel' hn, ← drop_drop] at hg
      exact mem_of_mem_drop hg
    · intro g hg
      rw [hframes] at hg
      exact h.active.knows.live g (mem_of_mem_drop hg)
  unfold Config.branch
  simp only [hpos, hl]
  rw [hok.arity, hok.height]
  by_cases hloop : fr.kind = .loop
  · rw [if_pos (hok.isLoop.mpr hloop)]
    obtain ⟨s0, hh⟩ := hok.back hloop
    exact hstay (Nat.le_refl _) hdepth hh.frames (by rw [hh.vals, Frame.labelTypes_loop hloop]) hh.place (fun j => (hh.nesting j).symm)
  · have hresults := Frame.labelTypes_forward hloop
    rw [if_neg (fun hl => hloop (hok.isLoop.mp hl))]
    have hshaped := shaped_get h.place.shaped hfr
    by_cases hfun : fr.kind = .function
    · rw [if_pos (by rw [hlen]; exact hshaped.1.mp hfun)]
      refine settles_ret h.active.typed h.active.waits ?_
      rw [map_reverse, htaken, reverse_reverse, hresults]
      exact hshaped.2 hfun
    · have hlt := h.place.shaped.inner hfr hfun
      rw [if_neg (by rw [hlen]; omega)]
      obtain ⟨s1, hplace, hframes, hvals1⟩ := h.place.behind hfr hlt
      rw [hok.forward hloop hfun]
      refine hstay (Nat.le_succ _) hlt hframes (by rw [hvals1, hresults]) hplace ?_
      intro j
      rw [← afterEnd_add]

/-! ### Opening and closing constructs -/

/-- At the start of an arm of a construct that has just been opened. -/
theorem enters (arm : FrameKind) (ho : Opened kind t (below.map some) s s') (hplace : k.At code s1)
    (hframes : s1.frames = ⟨arm, t, below.length, false⟩ :: s.frames)
    (hvals : s1.vals = (t.params.reverse ++ below).map some)
    (hcode : ∀ j, afterEnd (j + 1) code = afterEnd j (i :: rest))
    (hl : LabelFits k code s1 0 ⟨arm, t, below.length, false⟩ l)
    (htypes : stack.map Value.type = t.params.reverse ++ below) : Settles m bodies final (c.go { c.active with
      code := code, labels := l :: c.active.labels, stack := stack }) := by
  refine h.goes hplace (by rw [hframes]; nofun) (h.labels.enter hframes ?_ hcode hl) ⟨by rw [hvals, htypes], ?_⟩
    h.active.stands.locals h.active.typed
  · intro fr hfr
    rw [hvals, map_append]
    exact ho.low_below h.heights hfr
  · intro fr hfr
    rw [hframes] at hfr
    rcases mem_cons.mp hfr with rfl | hfr
    · rfl
    · exact h.active.knows.live fr hfr

/-- What opening a block finds on the stack, and how it looks from inside. -/
theorem opens (hi : opened? i = some kind) : ∃ t below, Opened kind t (below.map some) s s' ∧
      (∀ bt, i = .block bt ∨ i = .loop bt ∨ i = .if_ bt → m.blockType? bt = some t) ∧
      c.active.stack.map Value.type = (if kind = .if_ then [.i32] else []) ++ (t.params.reverse ++ below) ∧
      s'.frames = ⟨kind, t, below.length, false⟩ :: s.frames ∧ s'.vals = (t.params.reverse ++ below).map some := by
  obtain ⟨t, base, -, ho, hbt, hfound⟩ := step_opens h.heights hi h.check
  obtain ⟨below, rfl, htypes⟩ := hfound _ h.active.knows
  refine ⟨t, below, ho, hbt, htypes, ?_, ?_⟩
  · rw [ho.frames, length_map]
  · rw [ho.vals, map_append, map_reverse]

/-- Leaving the innermost construct at the end of an arm: its results are all that was left in it. -/
theorem leaves {f : Frame} {fs : List Frame} (hf : s.frames = f :: fs)
    (hfs : fs ≠ []) (htypes : c.active.stack.map Value.type = f.type.results.reverse ++ below)
    (hlen : below.length = f.height) (hplace : k.At code s1) (hframes : s1.frames = fs)
    (hvals : s1.vals = (f.type.results.map some).reverse ++ low f.height s.vals)
    (hcode : ∀ j, afterEnd j code = afterEnd (1 + j) (i :: rest)) :
    Settles m bodies final (c.go { c.active with code := code, labels := c.active.labels.tail }) := by
  have hsame : s1.vals = s.vals := by
    have hlow := low_append_self (l := below) f.type.results.reverse
    rw [hlen] at hlow
    rw [hvals, h.active.knows.vals, htypes, low_map, hlow, map_append, map_reverse]
  rw [← drop_one]
  refine h.goes hplace (by rw [hframes]; exact hfs) (h.labels.move (by rw [hframes, hf]; rfl) (fun _ _ => by rw [hsame]) hcode)
    ⟨hsame.trans h.active.knows.vals, ?_⟩ h.active.stands.locals h.active.typed
  intro g hg
  rw [hframes] at hg
  exact h.active.knows.live g (by rw [hf]; exact mem_cons_of_mem _ hg)

end

/-- The label of a construct that a branch leaves. -/
theorem label_forward {cont : List Instr} (hloop : kind ≠ .loop)
    (htypes : stack.map Value.type = t.params.reverse ++ below) (hcont : cont = afterEnd 0 code) :
    LabelFits k code s1 0 ⟨kind, t, below.length, false⟩
      ⟨false, t.results.length, stack.length - t.params.length, cont⟩ := by
  refine ⟨⟨nofun, fun hk => absurd hk hloop⟩, ?_, height_of_types htypes, fun _ _ => hcont, fun hk => absurd hk hloop⟩
  show _ = (if kind == .loop then t.params else t.results).length
  rw [if_neg (by simpa using hloop)]

/-- At the second arm of an `if`, or behind it if there is none. -/
theorem settles_otherwise {bt : BlockType} (h : Meets final c k (.if_ bt) rest s offset note s')
    (ho : Opened .if_ t (below.map some) s s') (hframes : s'.frames = ⟨.if_, t, below.length, false⟩ :: s.frames)
    (hvals : s'.vals = (t.params.reverse ++ below).map some)
    (htypes : stack.map Value.type = t.params.reverse ++ below) :
    Settles m bodies final (match afterElse? 0 rest with
      | some code => c.go { c.active with
          code := code
          labels := ⟨false, t.results.length, stack.length - t.params.length, afterEnd 0 rest⟩ :: c.active.labels
          stack := stack }
      | none => c.go { c.active with code := afterEnd 0 rest, stack := stack }) := by
  have hlow : low below.length s'.vals = below.map some := by
    rw [hvals, map_append, low_append _ (by simp), low_eq_self (by simp)]
  have hend : ∀ j, afterEnd j (afterEnd 0 rest) = afterEnd j (.if_ bt :: rest) := by
    intro j
    rw [← afterEnd_add]
    show _ = afterEnd (j + 1) rest
    congr 1
    omega
  have hframe : s'.frames[0]? = some ⟨.if_, t, below.length, false⟩ := by rw [hframes]; rfl
  have hsecond := h.after.arm hframe rfl
  cases harm : afterElse? 0 rest with
  | some code =>
    rw [harm] at hsecond
    obtain ⟨s1, hplace, hframes1, hvals1⟩ := hsecond
    have hnest := afterEnd_of_afterElse? harm
    refine h.enters .else_ ho hplace ?_ ?_ ?_ (label_forward nofun htypes hnest) htypes
    · rw [hframes1, hframes]
      rfl
    · rw [hvals1]
      rw [hlow, map_append, map_reverse]
    · intro j
      rw [← hend, hnest, ← afterEnd_add]
      congr 1
      omega
  | none =>
    rw [harm] at hsecond
    obtain ⟨s1, hplace, hframes1, hvals1⟩ := h.after.behind hframe (by rw [hframes]; simpa using length_pos_iff.mpr h.inside)
    have hframes1 : s1.frames = s.frames := by
      rw [hframes1, hframes]
      rfl
    have hvals1 : s1.vals = (t.params.reverse ++ below).map some := by
      rw [hvals1]
      rw [hlow, ← hsecond, map_append, map_reverse]
    refine h.goes hplace (by rw [hframes1]; exact h.inside) (h.labels.move (n := 0) hframes1 ?_ ?_) ⟨by rw [hvals1, htypes], ?_⟩
      h.active.stands.locals h.active.typed
    · intro fr hfr
      rw [hvals1, map_append]
      exact ho.low_below h.heights hfr
    · intro j
      rw [hend, Nat.zero_add]
    · rw [hframes1]
      exact h.active.knows.live

end Meets

end ScoreWasm.Wasm
