import ScoreWasm.Proofs.Flow.Simulation

/-!
# Every instruction is followed

For each instruction of the code, the steps of the graph that follow it.  An instruction that only moves
on within a block is followed by no step at all; then the code still to be run has become shorter, so
that the graph does not fall behind for ever.
-/

namespace ScoreWasm.Flow

open Wasm List Build
open Wasm.Validate (Stacks Frame FrameKind Note isFlat opened? checked)

variable {σ : Type} {env : Env σ} {bodies : List (List Checked)} {graphs : List Graph}

variable {c : Config σ} {g : State σ}

/-- A step is followed, by no step of the graph only if the code has become shorter. -/
def Followed (env : Env σ) (bodies : List (List Checked)) (graphs : List Graph) (c : Config σ)
    (a : Advance σ (Config σ)) (g : State σ) : Prop :=
  ∃ n, Follows env bodies graphs n a.1 a.2 g ∧
    (n = 0 → ∃ c', a.2 = .next c' ∧ c'.active.code.length < c.active.code.length)

theorem Followed.of_follows {es : List Event} {o : Outcome σ (Config σ)}
    (h : ∃ n, Follows env bodies graphs (n + 1) es o g) : Followed env bodies graphs c (es, o) g := by
  obtain ⟨n, h⟩ := h
  exact ⟨n + 1, h, fun h => by cases h⟩

theorem Followed.stay {c' : Config σ} (h : Sim env bodies graphs c' g)
    (hlt : c'.active.code.length < c.active.code.length) : Followed env bodies graphs c ([], .next c') g :=
  ⟨0, .stay h, fun _ => ⟨c', rfl, hlt⟩⟩

namespace Meets

variable {final : List ValType} {k : Compiled env bodies graphs c.active.func} {i : Instr}
  {rest : List Instr} {s s' : Stacks} {d d' : Draft} {offset : Nat} {note : Note}

variable {stack : List Value} {g' : State σ} {l : Label} {scope : Scope} {bt : BlockType}

section

variable (h : Meets final c g k i rest s d offset note s' d')

include h

theorem height : s.vals.length = c.active.stack.length := by
  rw [h.tracked.active.knows.vals]
  simp

theorem shorter : rest.length < c.active.code.length := by
  rw [h.tracked.code]
  exact Nat.lt_succ_self _

/-- The results of an instruction come to lie where its operands were. -/
theorem placed (hi : isFlat i = true) (hle : i.inputs env.module ≤ c.active.stack.length)
    (hp : Build.Placed (checked i offset s note) g.index d d') :
    Followed env bodies graphs c ([⟨i, (c.active.stack.take (i.inputs env.module)).reverse, c.active.locals⟩],
        match env.plain i (c.active.stack.take (i.inputs env.module)).reverse c.active.locals c.store with
        | .ok (results, locals, s) =>
          .next { c with
            active := { c.active with
              code := rest
              stack := results.reverse ++ c.active.stack.drop (i.inputs env.module)
              locals := locals }
            store := s }
        | .error why => c.halt why) g := by
  have hsplit : g.slots.HoldsStack (c.active.stack.take (i.inputs env.module) ++
      c.active.stack.drop (i.inputs env.module)) := by
    rw [take_append_drop]
    exact h.carries.slots
  obtain ⟨hheld, hread⟩ := Slots.HoldsStack.append.mp hsplit
  rw [length_take, Nat.min_eq_left hle] at hread
  have hbase : ((checked i offset s note).height : Int) - (i.inputs env.module : Nat) =
      ((c.active.stack.drop (i.inputs env.module)).length : Int) := by
    show ((s.vals.length : Nat) : Int) - _ = _
    rw [h.height, length_drop]
    omega
  have hinstr : k.final.instrAt g.block g.index = some (.plain (checked i offset s note)) := by
    rw [h.block]
    exact h.grows.instrAt hp.instr
  have hstep := step_instr k h.carries.func hinstr
  unfold stepBlockInstr at hstep
  simp only [show (checked i offset s note).instr = i from rfl, hbase, hread, h.carries.locals, h.carries.store] at hstep
  refine .of_follows ⟨0, .last hstep ?_⟩
  cases he : env.plain i (c.active.stack.take (i.inputs env.module)).reverse c.active.locals c.store with
  | error why => exact ⟨rfl, rfl⟩
  | ok r =>
    refine .mk k ⟨h.next, h.heads_flat hi⟩ ?_ hp.here ⟨h.carries.func, hheld.write, rfl, rfl, h.carries.waiting⟩
    rw [hp.current]
    exact h.block

theorem followed_plain {ctx : Validate.Context} {ins outs below : List ValType} (hplain : Validate.PlainType ctx i ins outs)
    (htypes : c.active.stack.map Value.type = ins.reverse ++ below) :
    Followed env bodies graphs c (env.stepInstr c i rest) g := by
  have hflat : isFlat i = true := by cases hplain <;> rfl
  obtain ⟨hasElse, -, hbuild⟩ := h.build
  have hp := step_plain h.wf h.opened hbuild (by cases hplain <;> rfl)
  have hins := hplain.length_inputs env.module
  have hlen := congrArg List.length htypes
  simp only [length_map, length_append, length_reverse] at hlen
  have hfollowed := h.placed hflat (by omega) hp
  cases hplain <;> exact hfollowed

/-! ### Opening constructs -/

/-- What opening a block finds on the stack. -/
theorem opens {kind : FrameKind} (hi : opened? i = some kind) : ∃ t below, (checked i offset s note).blockType = some t ∧
      (∀ bt, i = .block bt ∨ i = .loop bt ∨ i = .if_ bt → env.module.blockType? bt = some t) ∧
      c.active.stack.map Value.type = (if kind = .if_ then [.i32] else []) ++ (t.params.reverse ++ below) := by
  obtain ⟨t, base, hnote, -, hbt, hfound⟩ := Validate.step_opens h.tracked.heights hi h.tracked.check
  obtain ⟨below, -, htypes⟩ := hfound _ h.tracked.active.knows
  exact ⟨t, below, hnote, hbt, htypes⟩

section

variable (hop : Build.Opens scope d d')
include hop

/-- At the first instruction of a construct that has just been opened. -/
theorem entered_first (hl : l.isLoop = true → Headed k (Flow.heads d'.scopes) l.cont) (hg : Carries c k stack g')
    (hblock : g'.block = d'.current) (hopen : d'.Open d'.current g'.index) :
    Sim env bodies graphs { c with active := { c.active with
      code := rest, labels := l :: c.active.labels, stack := stack } } g' := by
  refine hg.sim h.next ?_ hblock hopen
  rw [hop.scopes] at hl ⊢
  exact h.heads.cons hl

theorem entered_second {arm : List Instr} (harm : afterElse? 0 rest = some arm) (hl : l.isLoop = false)
    (hg : Carries c k stack g') (hblock : scope.elseBlock = some g'.block) (hindex : g'.index = 0) :
    Sim env bodies graphs { c with active := { c.active with
      code := arm, labels := l :: c.active.labels, stack := stack } } g' := by
  obtain ⟨s1, d1, hplace, ha⟩ := h.next.second_arm harm
  obtain ⟨hother, hfresh⟩ := ha.block scope hop.scope
  refine hg.sim hplace ?_ (Option.some.inj (hblock.symm.trans hother)) (by rw [hindex]; exact hfresh)
  rw [ha.scopes.heads, hop.scopes]
  refine h.heads.cons (fun hloop => ?_)
  rw [hl] at hloop
  cases hloop

/-- Behind an `if` without a second arm. -/
theorem skipped (hk : scope.kind = .if_) (hg : Carries c k stack g')
    (hblock : scope.target = some g'.block) (hindex : g'.index = 0) :
    Sim env bodies graphs { c with active := { c.active with code := afterEnd 0 rest, stack := stack } } g' := by
  obtain ⟨s1, d1, hplace, hb⟩ := h.next.behind (by rw [hop.scopes]; exact Nat.succ_pos _)
  obtain ⟨hcur, hfresh⟩ := hb.target scope g'.block hop.scope (by rw [hk]; nofun) (by rw [hk]; nofun) hblock
  refine hg.sim hplace ?_ hcur.symm (by rw [hcur, hindex]; exact hfresh)
  rw [hb.scopes.heads, hop.scopes]
  exact h.heads

end

end

/-! ### One instruction after another -/

theorem followed_nop (h : Meets final c g k .nop rest s d offset note s' d') :
    Followed env bodies graphs c (env.stepInstr c .nop rest) g := by
  obtain ⟨hasElse, -, hbuild⟩ := h.build
  obtain rfl := step_nop hbuild rfl
  exact .stay (h.carries.sim h.next h.heads h.block h.opened) h.shorter

theorem followed_block (h : Meets final c g k (.block bt) rest s d offset note s' d') :
    Followed env bodies graphs c (env.stepInstr c (.block bt) rest) g := by
  obtain ⟨t, below, ht, hbt, -⟩ := h.opens rfl
  obtain ⟨hasElse, -, hbuild⟩ := h.build
  obtain ⟨hop, hcur, hopen⟩ := step_block h.wf h.opened hbuild rfl ht
  unfold Env.stepInstr
  simp only [hbt bt (.inl rfl)]
  exact .stay (h.entered_first hop nofun h.carries (by rw [hcur]; exact h.block) hopen) h.shorter

theorem followed_loop (h : Meets final c g k (.loop bt) rest s d offset note s' d') :
    Followed env bodies graphs c (env.stepInstr c (.loop bt) rest) g := by
  obtain ⟨t, below, ht, hbt, -⟩ := h.opens rfl
  obtain ⟨hasElse, -, hbuild⟩ := h.build
  obtain ⟨hop, hterm, hopen⟩ := step_loop h.wf h.opened hbuild rfl ht
  unfold Env.stepInstr
  simp only [hbt bt (.inr (.inl rfl))]
  refine .of_follows ⟨0, .last ((h.step_term hterm).trans rfl) ?_⟩
  -- The place after the `loop` is the present one.
  refine h.entered_first hop (fun _ => ⟨s', d', h.next, hopen, rfl, ?_⟩) (h.carries.at_block _ _) rfl hopen
  rw [hop.scopes]
  rfl

theorem followed_if (h : Meets final c g k (.if_ bt) rest s d offset note s' d') :
    Followed env bodies graphs c (env.stepInstr c (.if_ bt) rest) g := by
  obtain ⟨t, below, ht, hbt, htypes⟩ := h.opens rfl
  obtain ⟨hasElse, helse, hbuild⟩ := h.build
  obtain ⟨merge, other, hother, hop, hterm, hopen⟩ := step_if h.wf h.opened hbuild rfl ht
  rw [helse bt rfl] at hother
  have hheight := h.height
  have hslots := h.carries.slots
  unfold Env.stepInstr
  simp only [hbt bt (.inr (.inr rfl))]
  cases hstack : c.active.stack with
  | nil =>
    rw [hstack] at htypes
    cases htypes
  | cons cond stack =>
    rw [hstack] at hheight hslots
    obtain ⟨hheld, hcond⟩ := Slots.HoldsStack.cons.mp hslots
    have hstep := h.step_term hterm
    unfold stepTerm at hstep
    simp only [checked, hheight, length_cons] at hstep
    rw [show ((stack.length + 1 : Nat) : Int) - 1 = stack.length by omega, hcond] at hstep
    have hcarries : ∀ b, Carries c k stack { g with block := b, index := 0 } :=
      fun b => h.carries.with_slots hheld b 0
    by_cases hzero : cond.bits = 0
    · rw [if_pos hzero] at hstep
      simp only [if_pos hzero]
      cases harm : afterElse? 0 rest with
      | some arm =>
        rw [harm] at hother
        obtain ⟨b, rfl⟩ := Option.isSome_iff_exists.mp hother
        exact .of_follows ⟨0, .last hstep (h.entered_second hop harm rfl (hcarries b) rfl rfl)⟩
      | none =>
        rw [harm] at hother
        cases other with
        | some b => cases hother
        | none => exact .of_follows ⟨0, .last hstep (h.skipped hop rfl (hcarries merge) rfl rfl)⟩
    · rw [if_neg hzero] at hstep
      simp only [if_neg hzero]
      exact .of_follows ⟨0, .last hstep (h.entered_first hop nofun (hcarries d'.current) rfl hopen)⟩

theorem followed_else (h : Meets final c g k .else_ rest s d offset note s' d') :
    Followed env bodies graphs c (env.stepInstr c .else_ rest) g := by
  obtain ⟨f, fs, hf, hk, -⟩ := Validate.step_else h.tracked.heights h.tracked.check
  obtain ⟨hasElse, -, hbuild⟩ := h.build
  cases h.read with
  | flat hi | opens hi | close hi => cases hi
  | @turn scope scopes _ hss _ hother _ _ =>
    have hfits := h.place.fits
    rw [hf, hss] at hfits
    have hkind : scope.kind = .if_ := by
      rw [hfits.1, hk]
      rfl
    obtain ⟨merge, hmerge⟩ := Option.isSome_iff_exists.mp (h.wf.formed scope
      (by rw [hss]; exact (.head _)) (by rw [hkind]; nofun) (by rw [hkind]; nofun))
    obtain ⟨-, -, hscopes, -, -, hterm⟩ := step_else h.wf h.opened hbuild rfl hss hkind hmerge hother
    -- The first arm goes on where the second one, which comes next, does.
    obtain ⟨s1, d1, hplace, hb⟩ := h.next.behind (by rw [hscopes]; exact Nat.succ_pos _)
    obtain ⟨hcur, hfresh⟩ := hb.target { scope with kind := .else_ } merge (by rw [hscopes]; rfl) nofun nofun hmerge
    refine .of_follows ⟨0, .last ((h.step_term hterm).trans rfl) ?_⟩
    refine (h.carries.at_block _ _).sim hplace ?_ hcur.symm (by rw [hcur]; exact hfresh)
    rw [hb.scopes.heads, hscopes, ← drop_one]
    have hheads := h.heads.drop 1
    rw [← heads_drop, hss] at hheads
    exact hheads

theorem followed_end_function (h : Meets final c g k .end_ rest s d offset note s' d') {f : Frame} (hf : s.frames = [f])
    (hk : f.kind = .function) : Followed env bodies graphs c (env.stepInstr c .end_ rest) g := by
  obtain ⟨f', fs, hf', -, -, hfound⟩ := Validate.step_end h.tracked.heights h.tracked.check
  rw [hf] at hf'
  cases hf'
  obtain ⟨below, htypes, hbelow⟩ := hfound _ h.tracked.active.knows
  obtain ⟨hasElse, -, hbuild⟩ := h.build
  obtain ⟨scope, scopes, hss, hkind, -, -, hzero, -⟩ := h.place.fits.of_cons hf
  rw [hk] at hkind
  obtain ⟨-, -, -, hterm⟩ := step_end_function h.opened hbuild rfl hss hkind
  have hone := h.tracked.labels.length
  rw [hf] at hone
  obtain ⟨l, hl⟩ := length_eq_one_iff.mp hone
  have hget : s.frames[0]? = some f := by rw [hf]; rfl
  have hresults := (Validate.shaped_get h.place.place.shaped hget).2 hk
  have hnil : below = [] := length_eq_zero_iff.mp (hbelow.trans (hzero hk))
  rw [hnil, append_nil, hresults] at htypes
  have hlen := congrArg List.length htypes
  rw [length_map, length_reverse] at hlen
  have harity : l.arity = c.active.stack.length := by
    rw [(h.tracked.labels.each 0 f l hget (by rw [hl]; rfl)).arity, hlen,
      Validate.Frame.labelTypes_forward (by rw [hk]; nofun), hresults]
  unfold Env.stepInstr
  simp only [hl, harity, take_length]
  refine .of_follows (follows_ret ?_ h.carries.waiting ((length_reverse).trans hlen) h.carries.store)
  rw [h.step_term hterm, ← h.carries.slots, hlen]
  rfl

theorem followed_end (h : Meets final c g k .end_ rest s d offset note s' d') :
    Followed env bodies graphs c (env.stepInstr c .end_ rest) g := by
  obtain ⟨f, fs, hf, -⟩ := Validate.step_end h.tracked.heights h.tracked.check
  obtain ⟨hasElse, -, hbuild⟩ := h.build
  obtain ⟨scope, scopes, hss, hkind, -⟩ := h.place.fits.of_cons hf
  have hlast := h.place.place.shaped
  rw [hf] at hlast
  by_cases hk : f.kind = .function
  · rw [hlast.1.mp hk] at hf
    exact h.followed_end_function hf hk
  · have hfs : fs ≠ [] := fun hnil => hk (hlast.1.mpr hnil)
    have hkind' : scope.kind ≠ .function := fun he => hk (scopeKind_injective (hkind.symm.trans he))
    have hstep : env.stepInstr c .end_ rest =
        ([], .next { c with active := { c.active with code := rest, labels := c.active.labels.drop 1 } }) := by
      have hlen := h.tracked.labels.length
      rw [hf] at hlen
      unfold Env.stepInstr
      cases hls : c.active.labels with
      | nil =>
        rw [hls] at hlen
        cases hlen
      | cons l ls =>
        cases ls with
        | nil =>
          rw [hls] at hlen
          exact absurd (length_eq_zero_iff.mp (Nat.succ.inj hlen).symm) hfs
        | cons l' ls =>
          simp only [hls]
          rfl
    have hheads := h.heads.drop 1
    rw [← heads_drop, hss] at hheads
    rw [hstep]
    by_cases hon : scope.kind = .loop ∨ scope.target = none
    · -- Nothing waits behind the construct: the block goes on.
      obtain ⟨rfl, -⟩ := step_end_on h.wf h.opened hbuild rfl hss hkind' hon
      exact .stay (h.carries.sim h.next hheads h.block h.opened) h.shorter
    · obtain ⟨hloop, htarget⟩ := not_or.mp hon
      obtain ⟨merge, hmerge⟩ := Option.ne_none_iff_exists'.mp htarget
      obtain ⟨-, -, hscopes, hcur, hopen, hterm⟩ :=
        step_end_merge h.wf h.opened hbuild rfl hss hkind' hloop hmerge
      refine .of_follows ⟨0, .last ((h.step_term hterm).trans rfl) ?_⟩
      exact (h.carries.at_block _ _).sim h.next (by rw [hscopes]; exact hheads) hcur.symm (by rw [hcur]; exact hopen)

end Meets

end ScoreWasm.Flow
