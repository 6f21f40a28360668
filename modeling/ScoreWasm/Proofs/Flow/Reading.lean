import ScoreWasm.Proofs.Flow.Steps
import ScoreWasm.Proofs.Wasm.Running

/-!
# Reading a body

Type checking and the construction of the graph read a body side by side.  At each place the open
blocks of the one and the open constructs of the other belong together, innermost to outermost, and in
reachable code they agree on where the operands of a construct start.

Execution leaves a construct at its end, but also from anywhere inside it, so the places it goes on at
have to be found from any place inside: the end of the construct, and the second arm of an `if`.  As seen
from a construct, an instruction stays inside it, turns to its second arm or ends it.
-/

namespace ScoreWasm.Flow

open Wasm List Build
open Wasm.Validate (Stacks Frame FrameKind Note Context Keeps Shaped opened? isFlat checked context)

variable {code rest : List Instr} {s s' : Stacks} {i : Instr} {d d' d'' : Draft} {n n' : Nat}
  {site : Site} {hasElse : Bool} {c : Checked} {u : Unit} {ss ss' : List Scope} {fs : List Frame}

/-! ### Blocks and constructs -/

/-- The kind of construct that a kind of block is. -/
def scopeKind : FrameKind → ScopeKind
  | .function => .function
  | .block => .block
  | .loop => .loop
  | .if_ => .if_
  | .else_ => .else_

theorem scopeKind_injective : Function.Injective scopeKind := by
  intro k k' h
  cases k <;> cases k' <;> first | rfl | cases h

/-- The open blocks and the open constructs belong together.  A construct that was opened in reachable
code has its operands where the block has them, and those of the function are all there are. -/
def Match : List Frame → List Scope → Prop
  | [], [] => True
  | f :: fs, s :: ss =>
    s.kind = scopeKind f.kind ∧ s.type = f.type ∧ ((∀ g ∈ fs, g.dead = false) → s.base = f.height) ∧
      (f.kind = .function → f.height = 0) ∧ Match fs ss
  | _, _ => False

namespace Match

theorem length : ∀ {fs : List Frame} {ss : List Scope}, Match fs ss → ss.length = fs.length
  | [], [], _ => rfl
  | _ :: _, _ :: _, h => by simp only [length_cons, length h.2.2.2.2]

theorem ne_nil (h : Match fs ss) (hne : fs ≠ []) : ss ≠ [] :=
  length_pos_iff.mp (h.length ▸ length_pos_iff.mpr hne)

theorem of_cons {f : Frame} (h : Match s.frames ss) (hf : s.frames = f :: fs) :
    ∃ scope scopes, ss = scope :: scopes ∧ Match (f :: fs) (scope :: scopes) := by
  obtain ⟨scope, scopes, rfl⟩ := exists_cons_of_ne_nil (h.ne_nil (by simp [hf]))
  exact ⟨scope, scopes, rfl, hf ▸ h⟩

theorem fills : ∀ {fs : List Frame} {ss ss' : List Scope}, Match fs ss → Fills ss ss' → Match fs ss'
  | [], [], [], _, _ => trivial
  | _ :: _, _ :: _, _ :: _, h, hf =>
    ⟨hf.1.kind.trans h.1, hf.1.type.trans h.2.1, fun hl => hf.1.base.trans (h.2.2.1 hl), h.2.2.2.1,
      fills h.2.2.2.2 hf.2⟩

theorem get {f : Frame} : ∀ {n : Nat} {fs : List Frame} {ss : List Scope}, Match fs ss →
    fs[n]? = some f → ∃ s, ss[n]? = some s ∧ s.kind = scopeKind f.kind ∧ s.type = f.type ∧
      ((∀ g ∈ fs.drop (n + 1), g.dead = false) → s.base = f.height)
  | 0, _ :: _, s :: _, h, hf => by
    cases hf
    exact ⟨s, rfl, h.1, h.2.1, h.2.2.1⟩
  | n + 1, _ :: _, _ :: _, h, hf => get (n := n) h.2.2.2.2 hf

theorem keeps (h : Match s.frames ss) (hk : Keeps s s' ∨ s.Dies s') : Match s'.frames ss := by
  rcases hk with hk | ⟨f, fs, hf, rfl⟩
  · rw [hk.frames]
    exact h
  · obtain ⟨scope, scopes, rfl, hmatch⟩ := h.of_cons hf
    exact hmatch

end Match

/-- An `if` waits for its second arm as long as that arm is still to come. -/
def Arms (code : List Instr) (ss : List Scope) : Prop :=
  ∀ (d : Nat) (s : Scope), ss[d]? = some s → s.kind = .if_ → s.elseBlock.isSome = (afterElse? d code).isSome

theorem Arms.fills (h : Arms code ss) (hf : Fills ss ss') : Arms code ss' := by
  intro k t ht hk
  obtain ⟨s, hs, hle⟩ := hf.get_rev ht
  rw [hle.elseBlock]
  exact h k s hs (hle.kind ▸ hk)

/-! ### Reading on -/

/-- Constructing the rest of a graph from checked code ends with a draft. -/
inductive Builds (site : Site) (final : Draft) : List Checked → Draft → Prop where
  | done : Builds site final [] final
  | step {c : Checked} {cs : List Checked} {d d' : Draft} {hasElse : Bool} :
    (∀ bt, c.instr = .if_ bt → hasElse = (afterElse? 0 (cs.map Checked.instr)).isSome) →
    Build.step site hasElse c d = .ok ((), d') → Builds site final cs d' → Builds site final (c :: cs) d

/-- What checking and construction have come to before some code fits together. -/
structure SideBySide (code : List Instr) (s : Stacks) (d : Draft) : Prop where
  draft : d.WF
  fits : Match s.frames d.scopes
  arms : Arms code d.scopes

/-- A place in a body: the code that follows, and what checking and construction have come to. -/
structure At {m : Module} {bodies : List (List Checked)} {f : Nat} (k : Wasm.Source m bodies f) (final : Draft)
    (code : List Instr) (s : Stacks) (d : Draft) : Prop extends SideBySide code s d where
  place : k.At code s
  builds : ∃ n, code = (k.fn.body.drop n).map Wasm.Placed.instr ∧
    (k.body.drop n).map Checked.instr = code ∧ Builds ⟨m, f, k.type⟩ final (k.body.drop n) d

namespace Build

/-- Every instruction that opens and closes nothing stays within the open constructs. -/
theorem step_within (hi : isFlat c.instr = true) (hd : d.WF) (hne : d.scopes ≠ [])
    (h : step site hasElse c d = .ok (u, d')) : Within d d' := by
  obtain ⟨n, ho⟩ := hd.opened hne
  cases hc : c.instr with
  | block _ | loop _ | if_ _ | else_ | end_ =>
    rw [hc] at hi
    cases hi
  | nop =>
    rw [step_nop h hc]
    exact ⟨.refl d, .refl _, hd⟩
  | br l => exact (step_br hd ho h hc).1
  | brIf l => exact (step_brIf hd ho h hc).1
  | brTable ls l => exact (step_brTable hd ho h hc).1
  | ret => exact (step_ret hd ho h hc).1
  | unreachable kind => exact (step_unreachable hd ho h hc).1
  | call f =>
    cases himp : site.module.isImport f with
    | true => exact (step_call_import hd ho h hc himp).within
    | false => exact (step_call hd ho h hc himp).within
  | callIndirect type table => exact (step_callIndirect hd ho h hc).within
  | _ => exact (step_plain hd ho h (by rw [hc]; rfl)).within

theorem step_opens {k : FrameKind} {t : FuncType} (hi : opened? c.instr = some k)
    (ht : c.blockType = some t) (hd : d.WF) (hne : d.scopes ≠ []) (h : step site hasElse c d = .ok (u, d')) :
    ∃ s, Opens s d d' ∧ s.kind = scopeKind k ∧ s.type = t ∧
      s.base = c.height - (if k = .if_ then 1 else 0) - t.params.length ∧
      (k = .if_ → s.elseBlock.isSome = hasElse) := by
  obtain ⟨n, ho⟩ := hd.opened hne
  cases hc : c.instr <;> rw [hc] at hi <;> cases hi
  case block bt =>
    obtain ⟨hopens, -⟩ := step_block hd ho h hc ht
    exact ⟨_, hopens, rfl, rfl, by simp, nofun⟩
  case loop bt =>
    obtain ⟨hopens, -⟩ := step_loop hd ho h hc ht
    exact ⟨_, hopens, rfl, rfl, by simp, nofun⟩
  case if_ bt =>
    obtain ⟨merge, other, hsome, hopens, -⟩ := step_if hd ho h hc ht
    exact ⟨_, hopens, rfl, rfl, by simp, fun _ => hsome⟩

end Build

variable {ctx : Context} {note : Note} {offset : Nat}

/-! ### One instruction -/

/-- What reading one instruction does to the open constructs. -/
inductive Read (i : Instr) (d d' : Draft) : Prop where
  | flat : isFlat i = true → Build.Within d d' → Read i d d'
  | opens {k : FrameKind} {scope : Scope} : opened? i = some k → Build.Opens scope d d' → Read i d d'
  | turn {scope : Scope} {scopes : List Scope} : i = .else_ → d.scopes = scope :: scopes →
    d'.scopes = { scope with kind := .else_ } :: scopes → scope.elseBlock = some d'.current →
    d'.Open d'.current 0 → d.Grows d' → Read i d d'
  | close {scope : Scope} {scopes : List Scope} : i = .end_ → d.scopes = scope :: scopes → d'.scopes = scopes →
    d.Grows d' → (∀ b, scope.kind ≠ .loop → scope.kind ≠ .function → scope.target = some b →
      d'.current = b ∧ d'.Open b 0) → Read i d d'

theorem Read.grows (h : Read i d d') : d.Grows d' := by
  cases h with
  | flat _ hw => exact hw.grows
  | opens _ hop => exact hop.grows
  | turn _ _ _ _ _ hg | close _ _ _ hg _ => exact hg

section

variable (h : SideBySide (i :: rest) s d) (hs : s.WF)
  (hstep : Validate.step ctx i s = .ok (note, s'))
  (hb : Build.step site hasElse (checked i offset s note) d = .ok ((), d'))

include h hs hstep hb

theorem SideBySide.read_flat (hi : isFlat i = true) (hne : s.frames ≠ []) : Read i d d' ∧ SideBySide rest s' d' := by
  have hw := Build.step_within hi h.draft (h.fits.ne_nil hne) hb
  refine ⟨.flat hi hw, hw.wf, (h.fits.keeps (Validate.step_flat hs hi hstep).1).fills hw.fills, .fills ?_ hw.fills⟩
  intro k scope hk hif
  rw [h.arms k scope hk hif, afterElse?_flat hi]

theorem SideBySide.read_opens {k : FrameKind} (hi : opened? i = some k) (hne : s.frames ≠ [])
    (helse : ∀ bt, i = .if_ bt → hasElse = (afterElse? 0 rest).isSome) : Read i d d' ∧ SideBySide rest s' d' := by
  obtain ⟨t, base, hn, ho, -, -⟩ := Validate.step_opens hs hi hstep
  obtain ⟨scope, hop, hkind, htype, hbase, hsome⟩ := Build.step_opens hi hn h.draft (h.fits.ne_nil hne) hb
  refine ⟨.opens hi hop, hop.wf, ?_, ?_⟩
  · rw [ho.frames, hop.scopes]
    refine ⟨hkind, htype, ?_, ?_, h.fits⟩
    · intro hlive
      have hlen := ho.height (fun f hf => hlive f (mem_of_mem_head? hf))
      rw [hbase]
      show ((s.vals.length : Nat) : Int) - _ - _ = (base.length : Int)
      split <;> simp_all
    · rintro rfl
      cases i <;> cases hi
  · rw [hop.scopes]
    intro n s1 hs1 hif
    cases n with
    | zero =>
      cases hs1
      have hk : k = .if_ := scopeKind_injective (hkind.symm.trans hif)
      rw [hsome hk]
      cases i <;> cases hi <;> first | exact helse _ rfl | cases hk
    | succ n =>
      rw [h.arms n s1 hs1 hif, afterElse?_opens hi]

theorem SideBySide.read_else (hi : i = .else_) : Read i d d' ∧ SideBySide rest s' d' := by
  subst hi
  obtain ⟨f, fs, hf, hk, rfl, -⟩ := Validate.step_else hs hstep
  obtain ⟨scope, scopes, hss, hkind, htype, hbase, -, hrest⟩ := h.fits.of_cons hf
  rw [hk] at hkind
  -- The second arm is still to come, so there is a block for it.
  have harm := h.arms 0 scope (by rw [hss]; rfl) hkind
  obtain ⟨other, hother⟩ := Option.isSome_iff_exists.mp (harm.trans rfl)
  obtain ⟨merge, hmerge⟩ := Option.isSome_iff_exists.mp
    (h.draft.formed scope (by rw [hss]; simp) (by rw [hkind]; decide) (by rw [hkind]; decide))
  obtain ⟨n, ho⟩ := h.draft.opened (by rw [hss]; simp)
  obtain ⟨hg, hwf, hscopes, rfl, hopen, -⟩ := step_else h.draft ho hb rfl hss hkind hmerge hother
  refine ⟨.turn rfl hss hscopes hother hopen hg, hwf, ?_, ?_⟩
  · rw [hscopes]
    exact ⟨rfl, htype, hbase, nofun, hrest⟩
  · rw [hscopes]
    intro n s1 hs1 hif
    cases n with
    | zero =>
      cases hs1
      cases hif
    | succ n => exact h.arms (n + 1) s1 (by rw [hss]; exact hs1) hif

theorem SideBySide.read_end (hi : i = .end_) (hshape : Shaped ctx.results s.frames) :
    Read i d d' ∧ SideBySide rest s' d' := by
  subst hi
  obtain ⟨f, fs, hf, -, hs', -⟩ := Validate.step_end hs hstep
  obtain ⟨scope, scopes, hss, hkind, -, -, -, hrest⟩ := h.fits.of_cons hf
  obtain ⟨n, ho⟩ := h.draft.opened (by rw [hss]; simp)
  -- Three ends: of the function, of a construct nothing waits behind, and of any other.
  have finish : d.Grows d' → d'.scopes = scopes → d'.WF →
      (∀ b, scope.kind ≠ .loop → scope.kind ≠ .function → scope.target = some b → d'.current = b ∧ d'.Open b 0) →
      Read .end_ d d' ∧ SideBySide rest s' d' := by
    intro hg hscopes hd' hcur
    refine ⟨.close rfl hss hscopes hg hcur, hd', by rw [hscopes, hs']; exact hrest, ?_⟩
    rw [hscopes]
    intro k s1 hs1 hif
    exact h.arms (k + 1) s1 (by rw [hss]; exact hs1) hif
  by_cases hfk : scope.kind = .function
  · obtain ⟨hg, hscopes, hwf, -⟩ := step_end_function ho hb rfl hss hfk
    rw [hf] at hshape
    have hfs : fs = [] := hshape.1.mp (scopeKind_injective (hkind.symm.trans hfk))
    have hnil : scopes = [] := length_eq_zero_iff.mp (by rw [hrest.length, hfs]; rfl)
    exact finish hg hscopes (hwf hnil) (fun b _ hk _ => absurd hfk hk)
  · by_cases hlk : scope.kind = .loop ∨ scope.target = none
    · obtain ⟨hd', hwf⟩ := step_end_on h.draft ho hb rfl hss hfk hlk
      refine finish (by rw [hd']; exact .of_blocks rfl) (by rw [hd']) hwf ?_
      intro b hnl _ ht
      rcases hlk with hl | hn
      · exact absurd hl hnl
      · rw [ht] at hn
        cases hn
    · obtain ⟨hl, ht⟩ := not_or.mp hlk
      obtain ⟨merge, hmerge⟩ := Option.ne_none_iff_exists'.mp ht
      obtain ⟨hg, hwf, hscopes, hcur, hopen, -⟩ := step_end_merge h.draft ho hb rfl hss hfk hl hmerge
      refine finish hg hscopes hwf ?_
      intro b _ _ hb'
      rw [hmerge] at hb'
      cases hb'
      exact ⟨hcur, hopen⟩

/-- Reading an instruction keeps checking and construction side by side. -/
theorem SideBySide.read (hshape : Shaped ctx.results s.frames) (hne : s.frames ≠ [])
    (helse : ∀ bt, i = .if_ bt → hasElse = (afterElse? 0 rest).isSome) : Read i d d' ∧ SideBySide rest s' d' := by
  by_cases hflat : isFlat i = true
  · exact h.read_flat hs hstep hb hflat hne
  · cases i with
    | block _ | loop _ | if_ _ => exact h.read_opens hs hstep hb rfl hne helse
    | else_ => exact h.read_else hs hstep hb rfl
    | end_ => exact h.read_end hs hstep hb rfl hshape
    | _ => exact absurd rfl hflat

end

variable {m : Module} {bodies : List (List Checked)} {f : Nat} {k : Wasm.Source m bodies f} {final : Draft}

/-- Reading an instruction comes to the next place. -/
theorem At.read (h : At k final (i :: rest) s d) : ∃ offset note s' d' hasElse,
    Validate.step { context m k.type k.fn with offset := offset } i s = .ok (note, s') ∧
    (∀ bt, i = .if_ bt → hasElse = (afterElse? 0 rest).isSome) ∧
    Build.step ⟨m, f, k.type⟩ hasElse (checked i offset s note) d = .ok ((), d') ∧
    Read i d d' ∧ At k final rest s' d' := by
  obtain ⟨n, p, note, s', hp, -, hrest, -, hc, hne, hstep, hnext⟩ := h.place.next
  obtain ⟨n', hcode, hinstrs, hbuilds⟩ := h.builds
  -- Both have come to the same position in the body.
  obtain rfl : n = n' := by
    have h1 := congrArg List.length hcode
    have h2 := congrArg List.length hrest
    have h3 := (List.getElem?_eq_some_iff.mp hp).1
    simp only [length_cons, length_map, length_drop] at h1 h2
    omega
  obtain ⟨hlt, hc⟩ := List.getElem?_eq_some_iff.mp hc
  rw [List.drop_eq_getElem_cons hlt, hc] at hinstrs hbuilds
  obtain ⟨-, hinstrs⟩ := List.cons.inj hinstrs
  cases hbuilds with
  | @step _ _ _ d' hasElse helse hb hbuilds =>
    rw [hinstrs] at helse
    obtain ⟨hread, hside⟩ := h.toSideBySide.read h.place.heights hstep hb h.place.shaped hne helse
    exact ⟨p.offset, note, s', d', hasElse, hstep, helse, hb, hread, hside, hnext, n + 1, hrest, hinstrs, hbuilds⟩

/-- Everything that is there at a place is there in the end. -/
theorem At.grows (h : At k final code s d) : d.Grows final := by
  induction code generalizing s d with
  | nil =>
    obtain ⟨n, -, hnil, hbuilds⟩ := h.builds
    rw [map_eq_nil_iff.mp hnil] at hbuilds
    cases hbuilds
    exact .refl _
  | cons i rest ih =>
    obtain ⟨-, -, s', d', -, -, -, -, hread, hnext⟩ := h.read
    exact hread.grows.trans (ih hnext)

/-! ### Behind constructs and in second arms -/

/-- A place behind the construct at a depth: if anything waits behind it, that is where the graph goes on. -/
structure Behind (n : Nat) (d d' : Draft) : Prop where
  scopes : Fills (d.scopes.drop (n + 1)) d'.scopes
  target : ∀ scope b, d.scopes[n]? = some scope → scope.kind ≠ .loop → scope.kind ≠ .function →
    scope.target = some b → d'.current = b ∧ d'.Open b 0

/-- The scope of the other arm. -/
def Scope.turned (scope : Scope) : Scope := { scope with kind := .else_ }

/-- A place in the second arm of the `if` at a depth. -/
structure SecondArm (n : Nat) (d d' : Draft) : Prop where
  scopes : Fills ((d.scopes.drop n).modifyHead Scope.turned) d'.scopes
  block : ∀ scope, d.scopes[n]? = some scope → scope.elseBlock = some d'.current ∧ d'.Open d'.current 0

theorem Fills.turn : ∀ {ss ts : List Scope}, Fills ss ts → Fills (ss.modifyHead Scope.turned) (ts.modifyHead Scope.turned)
  | [], [], _ => trivial
  | _ :: _, _ :: _, h => ⟨⟨rfl, h.1.type, h.1.base, h.1.elseBlock, h.1.target, nofun⟩, h.2⟩

/-- The construct at a depth of one place, as it is seen from another one inside it. -/
theorem Fills.scope {scope : Scope} (h : Fills (d.scopes.drop n) (d'.scopes.drop n')) (hscope : d.scopes[n]? = some scope) :
    ∃ scope', d'.scopes[n']? = some scope' ∧ scope.Le scope' := by
  have hget := h.get (n := 0) (by rw [getElem?_drop]; exact hscope)
  simpa [getElem?_drop] using hget

theorem Behind.of_inside (h : Fills (d.scopes.drop n) (d'.scopes.drop n')) (hb : Behind n' d' d'') : Behind n d d'' := by
  refine ⟨?_, ?_⟩
  · have hdrop := h.drop 1
    rw [drop_drop, drop_drop] at hdrop
    exact hdrop.trans hb.scopes
  · intro scope b hscope hl hfun ht
    obtain ⟨scope', hs', hle⟩ := h.scope hscope
    exact hb.target scope' b hs' (by rw [hle.kind]; exact hl) (by rw [hle.kind]; exact hfun) (hle.target b ht)

theorem SecondArm.of_inside (h : Fills (d.scopes.drop n) (d'.scopes.drop n'))
    (ha : SecondArm n' d' d'') : SecondArm n d d'' := by
  refine ⟨h.turn.trans ha.scopes, ?_⟩
  intro scope hscope
  obtain ⟨scope', hs', hle⟩ := h.scope hscope
  rw [← hle.elseBlock]
  exact ha.block scope' hs'

/-- Behind the second arm is behind the construct. -/
theorem SecondArm.behind (h : SecondArm 0 d d') (hb : Behind 0 d' d'') : Behind 0 d d'' := by
  refine ⟨?_, ?_⟩
  · have hdrop := h.scopes.drop 1
    rw [drop_modifyHead_of_pos Nat.one_pos] at hdrop
    exact hdrop.trans hb.scopes
  · intro scope b hscope _ _ ht
    obtain ⟨t, ht', hle⟩ := h.scopes.get (n := 0) (s := scope.turned) (by simp [hscope])
    refine hb.target t b ht' ?_ ?_ (hle.target b ht) <;>
      · rw [hle.kind]
        nofun

/-- What reading an instruction comes to, as seen from the construct at a depth. -/
inductive Leads (n : Nat) (i : Instr) (d d' : Draft) : Prop where
  | inside {n' : Nat} : Validate.Moves i n n' → Fills (d.scopes.drop n) (d'.scopes.drop n') → Leads n i d d'
  | turn : n = 0 → i = .else_ → SecondArm 0 d d' → Leads n i d d'
  | close : n = 0 → i = .end_ → Behind 0 d d' → Leads n i d d'

theorem Read.leads (h : Read i d d') (n : Nat) : Leads n i d d' := by
  cases h with
  | flat hi hw => exact .inside (.flat hi) (hw.fills.drop n)
  | opens hi hop => exact .inside (.opens hi) (.of_eq (by rw [hop.scopes]; rfl))
  | turn hi hss hss' hother hopen =>
    subst hi
    cases n with
    | zero =>
      refine .turn rfl rfl ⟨.of_eq (by rw [hss, hss']; rfl), ?_⟩
      intro scope' hscope
      rw [hss] at hscope
      cases hscope
      exact ⟨hother, hopen⟩
    | succ n => exact .inside .turn (.of_eq (by rw [hss, hss']; rfl))
  | close hi hss hss' _ hcur =>
    subst hi
    cases n with
    | zero =>
      refine .close rfl rfl ⟨.of_eq (by rw [hss, hss']; rfl), ?_⟩
      intro scope' b hscope
      rw [hss] at hscope
      cases hscope
      exact hcur b
    | succ n => exact .inside .close (.of_eq (by rw [hss, hss']; rfl))

/-- **Behind every construct there is a place.** -/
theorem At.behind (h : At k final code s d) (hn : n < d.scopes.length) :
    ∃ s' d', At k final (afterEnd n code) s' d' ∧ Behind n d d' := by
  induction code generalizing n s d with
  | nil =>
    rw [h.fits.length, h.place.frames_nil] at hn
    cases hn
  | cons i rest ih =>
    obtain ⟨-, -, s1, d1, -, -, -, -, hread, h1⟩ := h.read
    cases hread.leads n with
    | @inside n' hm hin =>
      have hlen := hin.length
      rw [length_drop, length_drop] at hlen
      obtain ⟨s', d', h', hb⟩ := ih (n := n') h1 (by omega)
      rw [hm.afterEnd]
      exact ⟨s', d', h', .of_inside hin hb⟩
    | turn hzero hi ha =>
      -- The end of the construct is the end of the second arm.
      subst hzero hi
      obtain ⟨s', d', h', hb⟩ := ih h1 (by rw [ha.scopes.length]; simpa using hn)
      exact ⟨s', d', h', ha.behind hb⟩
    | close hzero hi hb =>
      subst hzero hi
      exact ⟨s1, d1, h1, hb⟩

theorem At.second_arm (h : At k final code s d) (helse : afterElse? n code = some rest) :
    ∃ s' d', At k final rest s' d' ∧ SecondArm n d d' := by
  induction code generalizing n s d with
  | nil => cases helse
  | cons i code ih =>
    obtain ⟨-, -, s1, d1, -, -, -, -, hread, h1⟩ := h.read
    cases hread.leads n with
    | inside hm hin =>
      rw [hm.afterElse?] at helse
      obtain ⟨s', d', h', ha⟩ := ih h1 helse
      exact ⟨s', d', h', .of_inside hin ha⟩
    | turn hzero hi ha =>
      subst hzero hi
      cases helse
      exact ⟨s1, d1, h1, ha⟩
    | close hzero hi =>
      subst hzero hi
      cases helse

end ScoreWasm.Flow
