import ScoreWasm.Proofs.Wasm.StepRules

/-!
# Checking follows the rules exactly

A body is accepted just if it is well typed.  From a typing one reads off that no step of checking fails,
by induction on the typing.  For the converse the code is cut where its blocks end: by induction on its
length, code that is accepted consists of a typed piece, the end of the block around it or of its first
arm, and the rest.
-/

namespace ScoreWasm.Wasm

open Validate List
open ScoreWasm.StateT (bind_eq_ok discard_eq_ok get_eq_ok ite_eq_ok modify_eq_ok pure_eq_ok)

namespace Validate

variable {ctx : Context} {labels : List (List ValType)} {cs : List Checked}

variable {s s' : Stacks} {offset : Nat} {ps : List Placed} {m : Module} {fn : Function}
  {kind : FrameKind} {t : FuncType} {bt : BlockType} {b : Inside} {i : Instr}

/-! ### Accepted code -/

/-- Checking goes through to the end of a body. -/
def Accepted (ctx : Context) (ps : List Placed) (s : Stacks) : Prop := ∃ cs, CheckedAs ctx ps s cs

theorem accepted_cons {p : Placed} {rest : List Placed} : Accepted ctx (p :: rest) s ↔ s.frames ≠ [] ∧ ∃ note s',
      step { ctx with offset := p.offset } p.instr s = .ok (note, s') ∧ Accepted ctx rest s' := by
  constructor
  · rintro ⟨cs, h⟩
    cases h with
    | step hne hstep hrest => exact ⟨hne, _, _, hstep, _, hrest⟩
  · rintro ⟨hne, note, s', hstep, cs, hrest⟩
    exact ⟨_, .step hne hstep hrest⟩

theorem accepted_nil : Accepted ctx [] s ↔ s.frames = [] := by
  constructor
  · rintro ⟨cs, h⟩
    cases h with
    | done h => exact h
  · intro h
    exact ⟨[], .done h⟩

theorem CheckedAs.steps (acc : List Checked)
    (offset : Nat) (h : CheckedAs ctx ps s cs) : steps ctx ps s acc offset = .ok (acc.reverse ++ cs) := by
  induction ps generalizing ctx s cs acc offset with
  | nil =>
    cases h with
    | done hs =>
      unfold steps
      rw [if_pos (by simpa using hs), append_nil]
  | cons p rest ih =>
    cases h with
    | step hne hstep hrest =>
      unfold steps
      rw [if_neg (by simpa using hne), hstep]
      simp only
      rw [ih _ _ (CheckedAs.of_offset.mpr hrest), reverse_cons, append_assoc]
      rfl

/-- A function is accepted if checking goes through from its first instruction to its last one. -/
theorem function_accepted : (∃ cs, function m fn = .ok cs) ↔
      ∃ t, m.typeAt? fn.type = some t ∧ Accepted (context m t fn) fn.body (firstStacks t) := by
  unfold function
  cases ht : m.typeAt? fn.type with
  | none =>
    constructor
    · rintro ⟨cs, h⟩
      cases h
    · rintro ⟨t, h, -⟩
      cases h
  | some t =>
    constructor
    · rintro ⟨cs, h⟩
      obtain ⟨cs', -, hchecked⟩ := steps_checkedAs h
      exact ⟨t, rfl, cs', hchecked⟩
    · rintro ⟨t', ht', cs, hchecked⟩
      cases ht'
      exact ⟨_, hchecked.steps [] 0⟩

/-! ### Constructs -/

namespace Inside

variable {ht : Numeric t.params}

/-- Inside of a new frame. -/
def enter (b : Inside) (kind : FrameKind) (t : FuncType) (ht : Numeric t.params) : Inside where
  above := (t.params.map some).reverse
  below := b.above ++ b.below
  frame := ⟨kind, t, (b.above ++ b.below).length, false⟩
  outer := b.frame :: b.outer
  height := rfl
  numeric := by
    intro u hu
    obtain ⟨v, hv, huv⟩ := mem_map.mp (mem_reverse.mp hu)
    cases huv
    exact ht u hv

theorem covers_known {us ts : List ValType} : Covers false (us.map some) ts ↔ ts = us := by
  induction us generalizing ts with
  | nil =>
    constructor
    · intro h
      cases h with
      | nil => rfl
      | unknown h => cases h
    · rintro rfl
      exact .nil
  | cons u us ih =>
    constructor
    · intro h
      cases h with
      | cons hu hus => rw [admits_some.mp hu, ih.mp hus]
    · rintro rfl
      exact .cons (admits_some.mpr rfl) (ih.mpr rfl)

theorem enter_allows {ts : List ValType} : (b.enter kind t ht).Allows ts ↔ ts = t.params.reverse := by
  show Covers false (t.params.map some).reverse ts ↔ _
  rw [← map_reverse]
  exact covers_known

theorem enter_labels : (b.enter kind t ht).labels = (if kind = .loop then t.params else t.results) :: b.labels := by
  unfold Inside.labels Inside.enter Frame.labelTypes
  simp

end Inside

theorem follows_takeEntry (ht : Numeric t.params) :
    Follows labels (takeEntry ctx kind t) (Effect (entryTypes kind t) []) := by
  have hparams : Follows labels (discard (popMany ctx t.params)) (Effect t.params []) :=
    (follows_popMany ht).discard
  unfold takeEntry entryTypes
  by_cases hk : kind = .if_
  · rw [if_pos hk, if_pos (by simpa using hk)]
    exact hparams.condition.congr effect_comp
  · rw [if_neg hk, if_neg (by simpa using hk)]
    exact hparams

theorem pushFrame_enter (ht : Numeric t.params) : pushFrame kind t b.state = .ok ((), (b.enter kind t ht).state) := rfl

section

variable (hb : Numeric b.frame.type.results)
include hb

/-- The end of a block finds just its results. -/
theorem popFrame_exact {f : Frame} : popFrame ctx b.state = .ok (f, s') ↔
      b.Allows b.frame.type.results.reverse ∧ f = b.frame ∧ s' = ⟨b.below, b.outer⟩ := by
  have hpop : Follows b.labels (popMany ctx b.frame.type.results) (Effect b.frame.type.results []) :=
    follows_popMany hb
  have hlength : ∀ b' : Inside, b.Sibling b' → (b'.state.vals.length = b.frame.height ↔ b'.above = []) := by
    intro b' hsib
    show (b'.above ++ b'.below).length = _ ↔ _
    rw [hsib.below, length_append, ← b.height]
    constructor
    · intro h
      exact length_eq_zero_iff.mp (by omega)
    · intro h
      rw [h]
      simp
  rw [popFrame_eq_ok]
  constructor
  · rintro ⟨fs, rs, s1, hf, h1, hlen, rfl⟩
    obtain ⟨rfl, rfl⟩ := List.cons.inj hf
    obtain ⟨b', rfl, hsib, -, hfrom⟩ := (hpop b rfl).2 rs s1 h1
    have habove := (hlength b' hsib).mp hlen
    obtain ⟨xs, -, hxs, hrule⟩ := hfrom [] nofun (Inside.allows_nil.mpr habove)
    rw [effect_pop.mp hrule, append_nil] at hxs
    refine ⟨hxs, rfl, ?_⟩
    show (⟨b'.above ++ b'.below, b.outer⟩ : Stacks) = _
    rw [habove, hsib.below]
    rfl
  · rintro ⟨hallows, rfl, rfl⟩
    have hrule : Effect b.frame.type.results [] b.frame.type.results.reverse [] := effect_pop.mpr (by simp)
    obtain ⟨rs, s1, h1⟩ := (hpop b rfl).1 _ _ hallows hrule
    obtain ⟨b', rfl, hsib, hto, -⟩ := (hpop b rfl).2 rs s1 h1
    have habove := Inside.allows_nil.mp (hto _ _ hallows hrule)
    refine ⟨b.outer, rs, _, rfl, h1, (hlength b' hsib).mpr habove, ?_⟩
    show _ = (⟨b'.above ++ b'.below, b.outer⟩ : Stacks)
    rw [habove, hsib.below]
    rfl

theorem step_end_exact : (∃ note, step ctx .end_ b.state = .ok (note, s')) ↔ b.Allows b.frame.type.results.reverse ∧
      (b.frame.kind = .if_ → b.frame.type.params = b.frame.type.results) ∧
      s' = ⟨if b.frame.kind = .function then [] else (b.frame.type.results.map some).reverse ++ b.below, b.outer⟩ := by
  simp only [step_end_eq_ok, popFrame_exact hb]
  constructor
  · rintro ⟨_, _, _, ⟨hallows, rfl, rfl⟩, hif, -, rfl⟩
    exact ⟨hallows, hif, rfl⟩
  · rintro ⟨hallows, hif, rfl⟩
    exact ⟨_, _, _, ⟨hallows, rfl, rfl⟩, hif, rfl, rfl⟩

theorem step_else_exact : (∃ note, step ctx .else_ b.state = .ok (note, s')) ↔
      b.frame.kind = .if_ ∧ b.Allows b.frame.type.results.reverse ∧
      s' = ⟨(b.frame.type.params.map some).reverse ++ b.below,
        ⟨.else_, b.frame.type, b.frame.height, false⟩ :: b.outer⟩ := by
  simp only [step_else_eq_ok, popFrame_exact hb]
  constructor
  · rintro ⟨_, _, _, ⟨hallows, rfl, rfl⟩, hk, -, rfl⟩
    exact ⟨hk, hallows, by rw [b.height]⟩
  · rintro ⟨hk, hallows, rfl⟩
    exact ⟨_, _, _, ⟨hallows, rfl, rfl⟩, hk, rfl, by rw [b.height]⟩

end

section Construct

variable {b1 b2 : Inside} {ht : Numeric t.params}

/-- Entering a construct asks for its operands. -/
theorem enter_exact (ht : Numeric t.params) (hbt : ctx.module.blockType? bt = some t) (b : Inside) :
    (∀ below, b.Allows ((entryTypes kind t).reverse ++ below) → ∃ b1 : Inside, b.Sibling b1 ∧
      b1.Allows below ∧ ∃ note, openBlock ctx kind bt b.state = .ok (note, (b1.enter kind t ht).state)) ∧
    ∀ note s', openBlock ctx kind bt b.state = .ok (note, s') → ∃ b1 : Inside, b.Sibling b1 ∧
      s' = (b1.enter kind t ht).state ∧
      ∀ below, Numeric below → b1.Allows below → Numeric ((entryTypes kind t).reverse ++ below) ∧
        b.Allows ((entryTypes kind t).reverse ++ below) := by
  have hentry : Follows b.labels (takeEntry ctx kind t) (Effect (entryTypes kind t) []) :=
    follows_takeEntry ht
  refine ⟨?_, ?_⟩
  · intro below hbelow
    obtain ⟨_, s1, h1⟩ := (hentry b rfl).1 _ below hbelow (effect_pop.mpr rfl)
    obtain ⟨b1, rfl, hsib, hto, -⟩ := (hentry b rfl).2 _ s1 h1
    exact ⟨b1, hsib, hto _ _ hbelow (effect_pop.mpr rfl), _, openBlock_eq_ok.mpr ⟨t, _, hbt, h1, pushFrame_enter ht, rfl⟩⟩
  · intro note s' h
    obtain ⟨t', s1, hbt', h1, h2, -⟩ := openBlock_eq_ok.mp h
    cases hbt.symm.trans hbt'
    obtain ⟨b1, rfl, hsib, -, hfrom⟩ := (hentry b rfl).2 _ s1 h1
    cases h2
    refine ⟨b1, hsib, rfl, ?_⟩
    intro below hnum hbelow
    obtain ⟨xs, hxs, hallows, hrule⟩ := hfrom below hnum hbelow
    rw [effect_pop.mp hrule] at hxs hallows
    exact ⟨hxs, hallows⟩

/-- Between its ends a construct keeps its type and what lies around it. -/
theorem Inside.Sibling.entered (h : (b1.enter kind t ht).Sibling b2) : b2.frame.kind = kind ∧
    b2.frame.type = t ∧ b2.below = b1.above ++ b1.below ∧ b2.outer = b1.frame :: b1.outer := by
  obtain ⟨dead, hframe⟩ := h.frame
  rw [hframe]
  exact ⟨rfl, rfl, h.below, h.outer⟩

/-- The operands after a construct are its results on top of those below it. -/
theorem leave_exact (hr : Numeric t.results) (hkind : kind ≠ .function) (h : (b1.enter kind t ht).Sibling b2)
    : ∃ b3 : Inside, b1.Sibling b3 ∧ (∀ below, b1.Allows below → b3.Allows (t.results.reverse ++ below)) ∧
      (∀ ys, Numeric ys → b3.Allows ys → ∃ below, Numeric below ∧ b1.Allows below ∧ ys = t.results.reverse ++ below) ∧
      ∀ s', (∃ note, step ctx .end_ b2.state = .ok (note, s')) ↔ b2.Allows t.results.reverse ∧
        (kind = .if_ → t.params = t.results) ∧ s' = b3.state := by
  obtain ⟨hk, htype, hbelow, houter⟩ := h.entered
  have hpush : Follows b1.labels (pushTypes t.results) (Effect [] t.results) := follows_pushTypes hr
  obtain ⟨b3, hb3, hsib, hto, hfrom⟩ := (hpush b1 rfl).2 () _ rfl
  refine ⟨b3, hsib, fun below hb => hto _ _ hb (effect_push.mpr rfl), ?_, ?_⟩
  · intro ys hys hallows
    obtain ⟨xs, hxs, hb1, hrule⟩ := hfrom ys hys hallows
    exact ⟨xs, hxs, hb1, effect_push.mp hrule⟩
  · intro s'
    rw [step_end_exact (by rw [htype]; exact hr), htype, hk, if_neg hkind, ← hb3, hbelow, houter]
    rfl

theorem turn_exact (hr : Numeric t.results) (h : (b1.enter kind t ht).Sibling b2) (s' : Stacks) :
    (∃ note, step ctx .else_ b2.state = .ok (note, s')) ↔
      kind = .if_ ∧ b2.Allows t.results.reverse ∧ s' = (b1.enter .else_ t ht).state := by
  obtain ⟨hk, htype, hbelow, houter⟩ := h.entered
  have hheight : b2.frame.height = (b1.above ++ b1.below).length := by rw [← b2.height, hbelow]
  rw [step_else_exact (by rw [htype]; exact hr), htype, hk, hheight, hbelow, houter]
  rfl

end Construct

/-! ### Well typed code is accepted -/

theorem FlatType.isFlat {ins outs : List ValType} (h : FlatType ctx labels i ins outs) : isFlat i = true := by
  cases h <;> rfl

theorem FlatType.of_offset {ins outs : List ValType} :
    FlatType { ctx with offset := offset } labels i ins outs ↔ FlatType ctx labels i ins outs := by
  constructor <;> intro h <;> cases h <;> constructor <;> assumption

theorem Context.Standard.at_offset (h : ctx.Standard) : Context.Standard { ctx with offset := offset } :=
  ⟨h.types, h.locals, h.globals, h.results⟩

theorem Context.Standard.blockType (hctx : ctx.Standard) (hstd : bt.isStandard = true)
    (hbt : ctx.module.blockType? bt = some t) : Numeric t.params ∧ Numeric t.results := by
  cases bt with
  | empty =>
    cases hbt
    exact ⟨nofun, nofun⟩
  | value u =>
    cases hbt
    refine ⟨nofun, ?_⟩
    intro v hv
    rw [mem_singleton.mp hv]
    exact hstd
  | index i =>
    cases i with
    | negSucc n => cases hbt
    | ofNat n => exact hctx.types t (mem_of_getElem? hbt)

/-- A standard instruction, but no `select` of no type. -/
def Fine (i : Instr) : Prop := i.isStandard = true ∧ i ≠ .select (some [])

/-- The instruction opens a frame. -/
inductive Opens : Instr → FrameKind → BlockType → Prop where
  | block (bt : BlockType) : Opens (.block bt) .block bt
  | loop (bt : BlockType) : Opens (.loop bt) .loop bt
  | if_ (bt : BlockType) : Opens (.if_ bt) .if_ bt

theorem Opens.kind_ne (h : Opens i kind bt) : kind ≠ .function := by
  cases h <;> nofun

section Passes

variable {below final : List ValType} {code body yes : List Instr} {ht : Numeric t.params}

theorem Inside.frames_ne (b : Inside) : b.state.frames ≠ [] := cons_ne_nil _ _

theorem step_opened (hi : Opens i kind bt) : step ctx i = openBlock ctx kind bt := by
  cases hi <;> rfl

/-- Checking goes through a piece of code that turns some operands of a block into others.  It begins with stacks
that depend on the operands, those of the block itself or those inside a construct. -/
def PassesFrom (start : Inside → Stacks) (ctx : Context) (labels : List (List ValType))
    (code : List Instr) (xs ys : List ValType) : Prop :=
  ∀ (ps : List Placed) (b : Inside), ps.map Placed.instr = code → b.labels = labels →
    b.Allows xs.reverse → ∃ b' : Inside, b.Sibling b' ∧ b'.Allows ys.reverse ∧
      ∀ rest, Accepted ctx rest b'.state → Accepted ctx (ps ++ rest) (start b)

/-- Checking goes through code of the block itself. -/
abbrev Passes : Context → List (List ValType) → List Instr → List ValType → List ValType → Prop :=
  PassesFrom Inside.state

theorem passes_flat {ins outs : List ValType} (hctx : ctx.Standard) (hlabels : ∀ ts ∈ labels, Numeric ts)
    (hi : Fine i) (h : FlatType ctx labels i ins outs) (hrest : Passes ctx labels code (below ++ outs) final) :
    Passes ctx labels (i :: code) (below ++ ins) final := by
  intro ps b hps hb hallows
  obtain ⟨p, ps, rfl, rfl, hcode⟩ := map_eq_cons_iff.mp hps
  have hrule : Rule { ctx with offset := p.offset } labels p.instr (below ++ ins).reverse
      (below ++ outs).reverse := ⟨ins, outs, below, FlatType.of_offset.mpr h, rfl, rfl⟩
  have hfollows : Follows labels (step { ctx with offset := p.offset } p.instr) _ :=
    step_follows hctx.at_offset hlabels (FlatType.isFlat h) hi.1 hi.2
  obtain ⟨note, s', hstep⟩ := (hfollows b hb).1 _ _ hallows hrule
  obtain ⟨b1, rfl, hsib1, hto, -⟩ := (hfollows b hb).2 _ _ hstep
  obtain ⟨b2, hsib2, hb2, haccept⟩ := hrest ps b1 hcode (hsib1.labels.trans hb) (hto _ _ hallows hrule)
  refine ⟨b2, hsib1.trans hsib2, hb2, ?_⟩
  intro rest h
  exact accepted_cons.mpr ⟨b.frames_ne, note, _, hstep, haccept rest h⟩

theorem passes_open (hi : Opens i kind bt) (ht : Numeric t.params) (hbt : ctx.module.blockType? bt = some t)
    (h : PassesFrom (fun b => (b.enter kind t ht).state) ctx labels code below final) :
    Passes ctx labels (i :: code) (below ++ entryTypes kind t) final := by
  intro ps b hps hb hallows
  obtain ⟨p, ps, rfl, rfl, hcode⟩ := map_eq_cons_iff.mp hps
  have hbt' : Module.blockType? (Context.module { ctx with offset := p.offset }) bt = some t := hbt
  rw [reverse_append] at hallows
  obtain ⟨b1, hsib1, hb1, note, hopen⟩ := (enter_exact ht hbt' b).1 _ hallows
  obtain ⟨b2, hsib2, hb2, haccept⟩ := h ps b1 hcode (hsib1.labels.trans hb) hb1
  refine ⟨b2, hsib1.trans hsib2, hb2, ?_⟩
  intro rest h
  exact accepted_cons.mpr ⟨b.frames_ne, note, _, (congrFun (step_opened hi) _).trans hopen, haccept rest h⟩

theorem passes_end (hr : Numeric t.results) (hkind : kind ≠ .function) (hif : kind = .if_ → t.params = t.results)
    (hbody : Passes ctx ((if kind = .loop then t.params else t.results) :: labels) body t.params t.results)
    (hrest : Passes ctx labels code (below ++ t.results) final) :
    PassesFrom (fun b => (b.enter kind t ht).state) ctx labels (body ++ .end_ :: code) below final := by
  intro ps b hps hb hallows
  obtain ⟨ps1, ps, rfl, hps1, hps⟩ := map_eq_append_iff.mp hps
  obtain ⟨p, ps2, rfl, hp, hps2⟩ := map_eq_cons_iff.mp hps
  obtain ⟨b1, hsib1, hb1, haccept1⟩ := hbody ps1 (b.enter kind t ht) hps1
    (by rw [Inside.enter_labels, hb]) (Inside.enter_allows.mpr rfl)
  obtain ⟨b2, hsib2, hto, -, hiff⟩ := leave_exact hr hkind hsib1
  obtain ⟨note, hstep⟩ := (hiff b2.state).mpr ⟨hb1, hif, rfl⟩
  have hb2 := hto _ hallows
  rw [← reverse_append] at hb2
  obtain ⟨b3, hsib3, hb3, haccept3⟩ := hrest ps2 b2 hps2 (hsib2.labels.trans hb) hb2
  refine ⟨b3, hsib2.trans hsib3, hb3, ?_⟩
  intro rest h
  rw [append_assoc]
  exact haccept1 _ (accepted_cons.mpr ⟨b1.frames_ne, note, _, by rw [hp]; exact hstep, haccept3 rest h⟩)

theorem passes_else (hr : Numeric t.results) (hyes : Passes ctx (t.results :: labels) yes t.params t.results)
    (hno : PassesFrom (fun b => (b.enter .else_ t ht).state) ctx labels code below final) :
    PassesFrom (fun b => (b.enter .if_ t ht).state) ctx labels (yes ++ .else_ :: code) below final := by
  intro ps b hps hb hallows
  obtain ⟨ps1, ps, rfl, hps1, hps⟩ := map_eq_append_iff.mp hps
  obtain ⟨p, ps2, rfl, hp, hps2⟩ := map_eq_cons_iff.mp hps
  obtain ⟨b1, hsib1, hb1, haccept1⟩ := hyes ps1 (b.enter .if_ t ht) hps1
    (by rw [Inside.enter_labels, hb]; rfl) (Inside.enter_allows.mpr rfl)
  obtain ⟨note, hstep⟩ := (turn_exact hr hsib1 _).mpr ⟨rfl, hb1, rfl⟩
  obtain ⟨b2, hsib2, hb2, haccept2⟩ := hno ps2 b hps2 hb hallows
  refine ⟨b2, hsib2, hb2, ?_⟩
  intro rest h
  rw [append_assoc]
  exact haccept1 _ (accepted_cons.mpr ⟨b1.frames_ne, note, _, by rw [hp]; exact hstep, haccept2 rest h⟩)

end Passes

/-- **Checking goes through well typed code.** -/
theorem passes_of_codeType (hctx : ctx.Standard) {code : List Instr} {xs ys : List ValType}
    (h : CodeType ctx labels code xs ys) (hlabels : ∀ ts ∈ labels, Numeric ts)
    (hfine : ∀ i ∈ code, Fine i) : Passes ctx labels code xs ys := by
  induction h with
  | nil =>
    intro ps b hps hb hallows
    cases map_eq_nil_iff.mp hps
    exact ⟨b, .refl b, hallows, fun rest h => h⟩
  | flat hflat _ ih =>
    obtain ⟨hi, hcode⟩ := forall_mem_cons.mp hfine
    exact passes_flat hctx hlabels hi hflat (ih hlabels hcode)
  | @block labels bt t body rest below final hbt _ _ ihbody ihrest =>
    simp only [forall_mem_cons, forall_mem_append] at hfine
    obtain ⟨hi, hbody, -, hrest⟩ := hfine
    obtain ⟨ht, hr⟩ := hctx.blockType hi.1 hbt
    have hbody := ihbody (forall_mem_cons.mpr ⟨hr, hlabels⟩) hbody
    exact passes_open (.block bt) ht hbt (passes_end hr nofun nofun hbody (ihrest hlabels hrest))
  | @loop labels bt t body rest below final hbt _ _ ihbody ihrest =>
    simp only [forall_mem_cons, forall_mem_append] at hfine
    obtain ⟨hi, hbody, -, hrest⟩ := hfine
    obtain ⟨ht, hr⟩ := hctx.blockType hi.1 hbt
    have hbody := ihbody (forall_mem_cons.mpr ⟨ht, hlabels⟩) hbody
    exact passes_open (.loop bt) ht hbt (passes_end hr nofun nofun hbody (ihrest hlabels hrest))
  | @ifElse labels bt t yes no rest below final hbt _ _ _ ihyes ihno ihrest =>
    simp only [forall_mem_cons, forall_mem_append] at hfine
    obtain ⟨hi, hyes, -, hno, -, hrest⟩ := hfine
    obtain ⟨ht, hr⟩ := hctx.blockType hi.1 hbt
    have hlabels' := forall_mem_cons.mpr ⟨hr, hlabels⟩
    rw [append_assoc]
    refine passes_open (.if_ bt) ht hbt (passes_else hr (ihyes hlabels' hyes) ?_)
    exact passes_end hr nofun nofun (ihno hlabels' hno) (ihrest hlabels hrest)
  | @ifThen labels bt t yes rest below final hbt heq _ _ ihyes ihrest =>
    simp only [forall_mem_cons, forall_mem_append] at hfine
    obtain ⟨hi, hyes, -, hrest⟩ := hfine
    obtain ⟨ht, hr⟩ := hctx.blockType hi.1 hbt
    have hyes := ihyes (forall_mem_cons.mpr ⟨hr, hlabels⟩) hyes
    rw [append_assoc]
    exact passes_open (.if_ bt) ht hbt (passes_end hr nofun (fun _ => heq) hyes (ihrest hlabels hrest))

/-! ### Accepted code is well typed -/

/-- Code from inside a construct on is what is left of its arms, and what follows its end. -/
inductive InnerType (ctx : Context) (labels : List (List ValType)) (t : FuncType) :
    FrameKind → List Instr → List ValType → List ValType → Prop where
  | end_ {kind : FrameKind} {body rest : List Instr} {below final : List ValType} :
    (kind = .if_ → t.params = t.results) →
    CodeType ctx ((if kind = .loop then t.params else t.results) :: labels) body t.params t.results →
    CodeType ctx labels rest (below ++ t.results) final →
    InnerType ctx labels t kind (body ++ .end_ :: rest) below final
  | else_ {yes rest : List Instr} {below final : List ValType} :
    CodeType ctx (t.results :: labels) yes t.params t.results → InnerType ctx labels t .else_ rest below final →
    InnerType ctx labels t .if_ (yes ++ .else_ :: rest) below final

theorem InnerType.codeType {code : List Instr} {below final : List ValType} (hi : Opens i kind bt)
    (hbt : ctx.module.blockType? bt = some t) (h : InnerType ctx labels t kind code below final) :
    CodeType ctx labels (i :: code) (below ++ entryTypes kind t) final := by
  cases hi with
  | block =>
    cases h with
    | end_ _ hbody hrest => exact .block hbt hbody hrest
  | loop =>
    cases h with
    | end_ _ hbody hrest => exact .loop hbt hbody hrest
  | if_ =>
    show CodeType _ _ _ (_ ++ (t.params ++ [.i32])) _
    rw [← append_assoc]
    cases h with
    | end_ heq hyes hrest => exact .ifThen hbt (heq rfl) hyes hrest
    | else_ hyes hno =>
      cases hno with
      | end_ _ hno hrest => exact .ifElse hbt hyes hno hrest

/-- Code starts with a piece that is typed, up to the end of the innermost block or of its first arm. -/
def Typable (typing : List Instr → List ValType → List ValType → Prop) (ctx : Context)
    (ps : List Placed) (b : Inside) : Prop :=
  ∃ body p rest b', ps = body ++ p :: rest ∧ (p.instr = .end_ ∨ p.instr = .else_) ∧ b.Sibling b' ∧
    Accepted ctx (p :: rest) b'.state ∧
    ∀ ys, Numeric ys → b'.Allows ys → ∃ xs, Numeric xs ∧ b.Allows xs ∧
      typing (body.map Placed.instr) xs.reverse ys.reverse

theorem Typable.prepend {typing typing' : List Instr → List ValType → List ValType → Prop}
    {b1 : Inside} (first : List Placed) (h : Typable typing' ctx ps b1) (hsib : b.Sibling b1)
    (hrule : ∀ code ys zs, Numeric ys → b1.Allows ys → typing' code ys.reverse zs → ∃ xs, Numeric xs ∧ b.Allows xs ∧
      typing (first.map Placed.instr ++ code) xs.reverse zs) : Typable typing ctx (first ++ ps) b := by
  obtain ⟨body, p, rest, b', rfl, hp, hsib', haccept, htyped⟩ := h
  refine ⟨first ++ body, p, rest, b', (append_assoc ..).symm, hp, hsib.trans hsib', haccept, ?_⟩
  intro zs hnum hzs
  obtain ⟨ys, hys, hb1, hcode⟩ := htyped zs hnum hzs
  rw [map_append]
  exact hrule _ ys _ hys hb1 hcode

/-- Accepted code up to a length is typed, in blocks with any labels. -/
def TypableUpTo (ctx : Context) (n : Nat) : Prop :=
  ∀ ⦃ps : List Placed⦄ ⦃labels : List (List ValType)⦄ ⦃b : Inside⦄, ps.length ≤ n → (∀ p ∈ ps, Fine p.instr) →
    (∀ ts ∈ labels, Numeric ts) → b.labels = labels → Accepted ctx ps b.state → Typable (CodeType ctx labels) ctx ps b

theorem instr_cases (i : Instr) : isFlat i = true ∨ (∃ kind bt, Opens i kind bt) ∨ i = .end_ ∨ i = .else_ := by
  cases i with
  | block bt => exact .inr (.inl ⟨_, _, .block bt⟩)
  | loop bt => exact .inr (.inl ⟨_, _, .loop bt⟩)
  | if_ bt => exact .inr (.inl ⟨_, _, .if_ bt⟩)
  | else_ => exact .inr (.inr (.inr rfl))
  | end_ => exact .inr (.inr (.inl rfl))
  | _ => exact .inl rfl

section Typable

variable {n : Nat} {p : Placed} (ih : TypableUpTo ctx n) (hlength : ps.length ≤ n)
  (hps : ∀ p ∈ ps, Fine p.instr) (hlabels : ∀ ts ∈ labels, Numeric ts) (hb : b.labels = labels)
include ih hlength hps hlabels hb

theorem typable_flat (hctx : ctx.Standard) (hfine : Fine p.instr) (hflat : isFlat p.instr = true)
    (h : Accepted ctx (p :: ps) b.state) : Typable (CodeType ctx labels) ctx (p :: ps) b := by
  obtain ⟨-, note, s', hstep, hrest⟩ := accepted_cons.mp h
  have hfollows : Follows labels (step { ctx with offset := p.offset } p.instr) _ :=
    step_follows hctx.at_offset hlabels hflat hfine.1 hfine.2
  obtain ⟨b1, rfl, hsib1, -, hfrom⟩ := (hfollows b hb).2 _ _ hstep
  refine (ih hlength hps hlabels (hsib1.labels.trans hb) hrest).prepend [p] hsib1 ?_
  intro code ys zs hys hb1 hcode
  obtain ⟨xs, hxs, hbxs, ins, outs, below, htype, rfl, rfl⟩ := hfrom ys hys hb1
  refine ⟨_, hxs, hbxs, ?_⟩
  rw [reverse_reverse] at hcode ⊢
  exact .flat (FlatType.of_offset.mp htype) hcode

/-- Inside a construct there is an arm that is typed by the type of the construct, and then its end or another arm. -/
theorem typable_inner (ht : Numeric t.params) (hr : Numeric t.results) (hkind : kind ≠ .function)
    (h : Accepted ctx ps (b.enter kind t ht).state)
    (helse : kind = .if_ → ∀ rest, rest.length ≤ n → (∀ p ∈ rest, Fine p.instr) →
      Accepted ctx rest (b.enter .else_ t ht).state → Typable (InnerType ctx labels t .else_) ctx rest b) :
    Typable (InnerType ctx labels t kind) ctx ps b := by
  have hlabels' : ∀ ts ∈ (if kind = .loop then t.params else t.results) :: labels, Numeric ts := by
    refine forall_mem_cons.mpr ⟨?_, hlabels⟩
    split
    · exact ht
    · exact hr
  obtain ⟨arm, p, rest, b1, rfl, hp, hsib, haccept, htyped⟩ :=
    ih hlength hps hlabels' (by rw [Inside.enter_labels, hb]) h
  obtain ⟨-, note, s', hstep, hrest⟩ := accepted_cons.mp haccept
  have harm : b1.Allows t.results.reverse →
      CodeType ctx ((if kind = .loop then t.params else t.results) :: labels) (arm.map Placed.instr) t.params t.results := by
    intro hb1
    obtain ⟨xs, -, hxs, hcode⟩ := htyped _ (fun u hu => hr u (mem_reverse.mp hu)) hb1
    rwa [Inside.enter_allows.mp hxs, reverse_reverse, reverse_reverse] at hcode
  have hlength : rest.length ≤ n := by
    rw [length_append, length_cons] at hlength
    omega
  have hfine : ∀ p ∈ rest, Fine p.instr := fun q hq => hps q (by simp [hq])
  rw [append_cons]
  rcases hp with hp | hp
  · rw [hp] at hstep
    obtain ⟨b2, hsib2, -, hfrom, hiff⟩ := leave_exact hr hkind hsib
    obtain ⟨hb1, hif, rfl⟩ := (hiff s').mp ⟨note, hstep⟩
    refine (ih hlength hfine hlabels (hsib2.labels.trans hb) hrest).prepend (arm ++ [p]) hsib2 ?_
    intro code ys zs hys hb2 hcode
    obtain ⟨below, hnum, hbelow, rfl⟩ := hfrom ys hys hb2
    refine ⟨below, hnum, hbelow, ?_⟩
    rw [reverse_append, reverse_reverse] at hcode
    simp only [map_append, map_cons, map_nil, hp, append_assoc, singleton_append]
    exact .end_ hif (harm hb1) hcode
  · rw [hp] at hstep
    obtain ⟨rfl, hb1, rfl⟩ := (turn_exact hr hsib s').mp ⟨note, hstep⟩
    refine (helse rfl rest hlength hfine hrest).prepend (arm ++ [p]) (.refl b) ?_
    intro code below zs hnum hbelow hcode
    refine ⟨below, hnum, hbelow, ?_⟩
    simp only [map_append, map_cons, map_nil, hp, append_assoc, singleton_append]
    exact .else_ (harm hb1) hcode

theorem typable_open (hctx : ctx.Standard) (hfine : Fine p.instr) (hopens : Opens p.instr kind bt)
    (h : Accepted ctx (p :: ps) b.state) : Typable (CodeType ctx labels) ctx (p :: ps) b := by
  obtain ⟨-, note, s', hstep, hrest⟩ := accepted_cons.mp h
  rw [step_opened hopens] at hstep
  obtain ⟨t, -, hbt, -⟩ := openBlock_eq_ok.mp hstep
  have hstd : bt.isStandard = true := by
    have := hfine.1
    generalize p.instr = i at hopens this
    cases hopens <;> exact this
  obtain ⟨ht, hr⟩ := hctx.blockType hstd hbt
  obtain ⟨b1, hsib1, rfl, hback⟩ := (enter_exact ht hbt b).2 note s' hstep
  have hb1 := hsib1.labels.trans hb
  have hinner := typable_inner ih hlength hps hlabels hb1 ht hr hopens.kind_ne hrest fun _ rest hrest hfine h =>
    typable_inner ih hrest hfine hlabels hb1 ht hr nofun h nofun
  refine hinner.prepend [p] hsib1 ?_
  intro code below zs hnum hbelow hcode
  obtain ⟨hnum', hballows⟩ := hback below hnum hbelow
  refine ⟨_, hnum', hballows, ?_⟩
  rw [reverse_append, reverse_reverse]
  exact hcode.codeType hopens hbt

end Typable

/-- **Accepted code is typed piece by piece.** -/
theorem typable_of_accepted (hctx : ctx.Standard) (n : Nat) : TypableUpTo ctx n := by
  induction n with
  | zero =>
    intro ps labels b hlength _ _ _ h
    cases length_eq_zero_iff.mp (Nat.le_zero.mp hlength)
    exact absurd (accepted_nil.mp h) b.frames_ne
  | succ n ih =>
    intro ps labels b hlength hfine hlabels hb h
    cases ps with
    | nil => exact absurd (accepted_nil.mp h) b.frames_ne
    | cons p rest =>
      obtain ⟨hp, hrest⟩ := forall_mem_cons.mp hfine
      have hlength := Nat.le_of_succ_le_succ hlength
      rcases instr_cases p.instr with hflat | ⟨kind, bt, hopens⟩ | hend
      · exact typable_flat ih hlength hrest hlabels hb hctx hp hflat h
      · exact typable_open ih hlength hrest hlabels hb hctx hp hopens h
      · exact ⟨[], p, rest, b, rfl, hend, .refl b, h, fun ys hys hallows => ⟨ys, hys, hallows, .nil⟩⟩

/-! ### Functions -/

/-- The operands and the block before the first instruction of a function. -/
def Inside.first (t : FuncType) : Inside where
  above := []
  below := []
  frame := ⟨.function, ⟨[], t.results⟩, 0, false⟩
  outer := []
  height := rfl
  numeric := nofun

section Function

variable {p : Placed} {rest : List Placed}

theorem Inside.Sibling.function (h : (Inside.first t).Sibling b) : b.frame.kind = .function ∧
    b.frame.type.results = t.results ∧ b.outer = [] := by
  obtain ⟨dead, hframe⟩ := h.frame
  rw [hframe]
  exact ⟨rfl, rfl, h.outer⟩

/-- The end of a function finds its results, and there is nothing behind it. -/
theorem accepted_last (hr : Numeric t.results) (h : (Inside.first t).Sibling b)
    (hp : p.instr = .end_ ∨ p.instr = .else_) :
    Accepted ctx (p :: rest) b.state ↔ p.instr = .end_ ∧ rest = [] ∧ b.Allows t.results.reverse := by
  obtain ⟨hkind, hresults, houter⟩ := h.function
  have hnum : Numeric b.frame.type.results := by rwa [hresults]
  rw [accepted_cons]
  constructor
  · rintro ⟨-, note, s', hstep, hrest⟩
    rcases hp with hp | hp
    · rw [hp] at hstep
      obtain ⟨hallows, -, rfl⟩ := (step_end_exact hnum).mp ⟨note, hstep⟩
      rw [hresults] at hallows
      refine ⟨hp, ?_, hallows⟩
      cases rest with
      | nil => rfl
      | cons q rest =>
        obtain ⟨hne, -⟩ := accepted_cons.mp hrest
        exact absurd houter hne
    · rw [hp] at hstep
      obtain ⟨hif, -⟩ := (step_else_exact hnum).mp ⟨note, hstep⟩
      rw [hkind] at hif
      cases hif
  · rintro ⟨hp, rfl, hallows⟩
    obtain ⟨note, hstep⟩ := (step_end_exact hnum).mpr ⟨by rw [hresults]; exact hallows, by rw [hkind]; nofun, rfl⟩
    exact ⟨b.frames_ne, note, _, by rw [hp]; exact hstep, accepted_nil.mpr houter⟩

end Function

theorem accepted_iff_codeType (hctx : ctx.Standard) (ht : Numeric t.results) (hps : ∀ p ∈ ps, Fine p.instr) :
    Accepted ctx ps (firstStacks t) ↔ ∃ code, ps.map Placed.instr = code ++ [.end_] ∧
      CodeType ctx [t.results] code [] t.results := by
  have hlabels : ∀ ts ∈ [t.results], Numeric ts := by
    intro ts hts
    rwa [mem_singleton.mp hts]
  have hnum : Numeric t.results.reverse := fun u hu => ht u (mem_reverse.mp hu)
  constructor
  · intro h
    obtain ⟨body, p, rest, b, rfl, hp, hsib, haccept, htyped⟩ :=
      typable_of_accepted hctx ps.length (b := Inside.first t) (Nat.le_refl _) hps hlabels rfl h
    obtain ⟨hend, rfl, hb⟩ := (accepted_last ht hsib hp).mp haccept
    obtain ⟨xs, -, hxs, hcode⟩ := htyped _ hnum hb
    refine ⟨body.map Placed.instr, by simp [hend], ?_⟩
    have hnil : xs = [] := by
      cases hxs with
      | nil => rfl
      | unknown h => cases h
    rwa [hnil, reverse_reverse] at hcode
  · rintro ⟨code, hcode, htyped⟩
    obtain ⟨body, last, rfl, rfl, hlast⟩ := map_eq_append_iff.mp hcode
    obtain ⟨p, rfl, hp⟩ := map_eq_singleton_iff.mp hlast
    have hfine : ∀ i ∈ body.map Placed.instr, Fine i := by
      intro i hi
      obtain ⟨q, hq, rfl⟩ := mem_map.mp hi
      exact hps q (mem_append_left _ hq)
    obtain ⟨b, hsib, hb, haccept⟩ := passes_of_codeType hctx htyped hlabels hfine body (Inside.first t) rfl rfl .nil
    exact haccept [p] ((accepted_last ht hsib (.inl hp)).mpr ⟨hp, rfl, hb⟩)

theorem standard_context (htypes : ∀ t ∈ m.types, Numeric t.params ∧ Numeric t.results)
    (hlocals : Numeric fn.locals) (hglobals : ∀ g ∈ m.globalTypes, g.type.isNumeric = true)
    (ht : m.typeAt? fn.type = some t) : (context m t fn).Standard := by
  obtain ⟨n, -, hn⟩ := Option.bind_eq_some_iff.mp ht
  obtain ⟨hparams, hresults⟩ := htypes t (mem_of_getElem? hn)
  exact ⟨htypes, forall_mem_append.mpr ⟨hparams, hlocals⟩, hglobals, hresults⟩

end Validate

/-- **A body is accepted just if it is well typed.** -/
theorem accepted_iff_wellTyped {m : Module} {fn : Function}
    (htypes : ∀ t ∈ m.types, Numeric t.params ∧ Numeric t.results) (hlocals : Numeric fn.locals)
    (hglobals : ∀ g ∈ m.globalTypes, g.type.isNumeric = true)
    (hbody : ∀ p ∈ fn.body, p.instr.isStandard = true ∧ p.instr ≠ .select (some [])) :
    (∃ cs, Validate.function m fn = .ok cs) ↔ fn.WellTyped m := by
  rw [function_accepted]
  refine exists_congr fun t => ?_
  constructor
  · rintro ⟨ht, h⟩
    have hctx := standard_context htypes hlocals hglobals ht
    obtain ⟨code, hcode, htyped⟩ := (accepted_iff_codeType hctx hctx.results hbody).mp h
    exact ⟨code, ht, hcode, htyped⟩
  · rintro ⟨code, ht, hcode, htyped⟩
    have hctx := standard_context htypes hlocals hglobals ht
    exact ⟨ht, (accepted_iff_codeType hctx hctx.results hbody).mpr ⟨code, hcode, htyped⟩⟩

/-- A module for functions that give one integer. -/
def oneResult : Module := { Module.empty with types := [⟨[], [.i32]⟩, ⟨[.i64], [.i32]⟩] }

/-- Behind a branch a `select` chooses between operands that are not there, and a loop with a parameter is
entered with what it leaves. -/
def selectBehindBranch : Function :=
  ⟨0, [], [.const .i32 7, .br 0, .select none, .loop (.index 1), .drop, .const .i32 1, .br 1, .end_,
    .end_].map Placed.new, 0⟩

/-- A branch table in unreachable code with labels that take along different types. -/
def mixedTable : Function :=
  ⟨0, [], [.block (.value .i64), .unreachable none, .brTable [0] 1, .end_, .drop, .const .i32 0,
    .end_].map Placed.new, 0⟩

theorem accepted_iff_wellTyped_unreachable :
    selectBehindBranch.WellTyped oneResult ∧ ¬mixedTable.WellTyped oneResult := by
  refine ⟨?_, ?_⟩
  · refine (accepted_iff_wellTyped (by decide) (by decide) (by decide) (by decide)).mp ?_
    exact Except.exists_ok (by decide)
  · intro h
    obtain ⟨cs, hcs⟩ := (accepted_iff_wellTyped (by decide) (by decide) (by decide) (by decide)).mpr h
    have hok : (Validate.function oneResult mixedTable).isOk = false := by decide
    rw [hcs] at hok
    cases hok

end ScoreWasm.Wasm
