import ScoreWasm.Proofs.Wasm.Bodies

/-!
# Places in checked bodies

A place is what follows in a body together with the stacks that checking has come to.  Execution leaves a
construct from anywhere inside it.  From there, what checking has come to behind the end of the construct,
or at the start of its second arm, is found by reading on: the construct keeps its type, its height and
the operands below it, whatever is opened and closed inside.
-/

namespace ScoreWasm.Wasm.Validate

open List

variable {note : Note} {results : List ValType} {f f' : Frame} {i : Instr} {n n' : Nat} {fs : List Frame}

/-- The stacks that checking has come to after some instructions. -/
def stacksAfter (ctx : Context) : List Placed → Stacks → Option Stacks
  | [], s => some s
  | p :: rest, s =>
    match step { ctx with offset := p.offset } p.instr s with
    | .ok (_, s') => stacksAfter ctx rest s'
    | .error _ => none

theorem stacksAfter_concat {ctx : Context} {p : Placed} {t s' : Stacks}
    (hp : step { ctx with offset := p.offset } p.instr t = .ok (note, s')) {ps : List Placed} {s : Stacks}
    (h : stacksAfter ctx ps s = some t) : stacksAfter ctx (ps ++ [p]) s = some s' := by
  induction ps generalizing s with
  | nil =>
    cases h
    simp only [nil_append, stacksAfter, hp]
  | cons q rest ih =>
    simp only [cons_append, stacksAfter] at h ⊢
    cases hq : step { ctx with offset := q.offset } q.instr s with
    | error e =>
      rw [hq] at h
      cases h
    | ok r =>
      rw [hq] at h
      exact ih h

/-! ### Open blocks -/

/-- Only the outermost block is that of the function, and it has the results of the function. -/
def Shaped (results : List ValType) : List Frame → Prop
  | [] => True
  | f :: fs => (f.kind = .function ↔ fs = []) ∧ (f.kind = .function → f.type.results = results) ∧ Shaped results fs

theorem shaped_get (h : Shaped results fs) (hf : fs[n]? = some f) :
    (f.kind = .function ↔ n + 1 = fs.length) ∧ (f.kind = .function → f.type.results = results) := by
  induction fs generalizing n with
  | nil =>
    cases hf
  | cons g gs ih =>
    cases n with
    | zero =>
      cases hf
      refine ⟨?_, h.2.1⟩
      rw [h.1, ← length_eq_zero_iff, length_cons]
      omega
    | succ n =>
      obtain ⟨h1, h2⟩ := ih h.2.2 hf
      refine ⟨?_, h2⟩
      rw [h1, length_cons]
      omega

theorem Shaped.inner (h : Shaped results fs) (hf : fs[n]? = some f) (hk : f.kind ≠ .function) : n + 1 < fs.length := by
  have hne : n + 1 ≠ fs.length := fun he => hk ((shaped_get h hf).1.mpr he)
  have hlt := (List.getElem?_eq_some_iff.mp hf).1
  omega

/-- How deep a block lies before and after an instruction that does not end it or its first arm. -/
inductive Moves : Instr → Nat → Nat → Prop where
  | flat {i : Instr} {n : Nat} : isFlat i = true → Moves i n n
  | opens {i : Instr} {n : Nat} {kind : FrameKind} : opened? i = some kind → Moves i n (n + 1)
  | turn {n : Nat} : Moves .else_ (n + 1) (n + 1)
  | close {n : Nat} : Moves .end_ (n + 1) n

theorem moves_or (i : Instr) (n : Nat) : (∃ n', Moves i n n') ∨ n = 0 ∧ (i = .else_ ∨ i = .end_) := by
  cases i with
  | block _ | loop _ | if_ _ => exact .inl ⟨n + 1, .opens rfl⟩
  | else_ =>
    cases n with
    | zero => exact .inr ⟨rfl, .inl rfl⟩
    | succ n => exact .inl ⟨n + 1, .turn⟩
  | end_ =>
    cases n with
    | zero => exact .inr ⟨rfl, .inr rfl⟩
    | succ n => exact .inl ⟨n, .close⟩
  | _ => exact .inl ⟨n, .flat rfl⟩

theorem Moves.afterEnd (h : Moves i n n') (rest : List Instr) : afterEnd n (i :: rest) = afterEnd n' rest := by
  cases h with
  | flat hi => exact afterEnd_flat hi
  | opens hi => exact afterEnd_opens hi
  | turn | close => rfl

theorem Moves.afterElse? (h : Moves i n n') (rest : List Instr) : afterElse? n (i :: rest) = afterElse? n' rest := by
  cases h with
  | flat hi => exact afterElse?_flat hi
  | opens hi => exact afterElse?_opens hi
  | turn | close => rfl

/-- A block as it is seen from two places inside it. -/
structure SameBlock (n : Nat) (s : Stacks) (n' : Nat) (s' : Stacks) (f f' : Frame) : Prop where
  before : s.frames[n]? = some f
  after : s'.frames[n']? = some f'
  kind : f'.kind = f.kind
  type : f'.type = f.type
  height : f'.height = f.height
  low : low f.height s'.vals = low f.height s.vals
  outer : s'.frames.drop (n' + 1) = s.frames.drop (n + 1)

variable {ctx : Context} {s s' : Stacks}

theorem sameBlock_keeps (hs : s.WF) (hk : Keeps s s' ∨ s.Dies s') (hn : n < s.frames.length) :
    ∃ f f', SameBlock n s n s' f f' := by
  have hlow := low_of_keeps hs (getElem_mem hn) hk
  have hget := getElem?_eq_getElem hn
  rcases hk with hk | ⟨g, gs, hg, rfl⟩
  · exact ⟨_, _, hget, by rw [hk.frames]; exact hget, rfl, rfl, rfl, hlow, by rw [hk.frames]⟩
  · cases n with
    | zero =>
      have hfirst : s.frames[0] = g := by simp [hg]
      rw [hfirst] at hget hlow
      exact ⟨g, { g with dead := true }, hget, rfl, rfl, rfl, rfl, hlow, by rw [hg]; rfl⟩
    | succ n =>
      refine ⟨_, _, hget, ?_, rfl, rfl, rfl, hlow, by rw [hg]; rfl⟩
      rw [← hget, hg]
      rfl

theorem sameBlock_opens {kind : FrameKind} {t : FuncType} {base : List Operand} (hs : s.WF)
    (ho : Opened kind t base s s') (hn : n < s.frames.length) : ∃ f f', SameBlock n s (n + 1) s' f f' := by
  have hget := getElem?_eq_getElem hn
  refine ⟨_, _, hget, ?_, rfl, rfl, rfl, ?_, ?_⟩
  · rw [ho.frames]
    exact hget
  · rw [ho.vals]
    exact ho.low_below hs (getElem_mem hn)
  · rw [ho.frames]
    rfl

/-- Around a block that ends or turns to its second arm, all blocks stay. -/
theorem sameBlock_outer {top : List Operand} (hs : s.WF) (hf : s.frames = f :: fs)
    (hvals : s'.vals = top ++ Validate.low f.height s.vals) (hfs : s'.frames.drop n' = fs.drop n)
    (hn : n < fs.length) : ∃ g g', SameBlock (n + 1) s n' s' g g' := by
  have hwf := hs.cons hf
  have hget : fs[n]? = some fs[n] := getElem?_eq_getElem hn
  have hle : fs[n].height ≤ f.height := hwf.2.le_of_mem (getElem_mem hn)
  refine ⟨fs[n], fs[n], by rw [hf]; exact hget, ?_, rfl, rfl, rfl, ?_, ?_⟩
  · have : (s'.frames.drop n')[0]? = (fs.drop n)[0]? := by rw [hfs]
    simpa [getElem?_drop, hget] using this
  · rw [hvals]
    exact low_append_low top hle hwf.1
  · rw [hf]
    have : (s'.frames.drop n').drop 1 = (fs.drop n).drop 1 := by rw [hfs]
    simpa [drop_drop] using this

/-- **A block is the same before and after an instruction inside it.** -/
theorem sameBlock_step (hs : s.WF) (hshape : Shaped results s.frames) (h : step ctx i s = .ok (note, s'))
    (hm : Moves i n n') (hn : n < s.frames.length) : ∃ f f', SameBlock n s n' s' f f' := by
  cases hm with
  | flat hi => exact sameBlock_keeps hs (step_flat hs hi h).1 hn
  | opens hi =>
    obtain ⟨t, base, -, ho, -, -⟩ := step_opens hs hi h
    exact sameBlock_opens hs ho hn
  | turn =>
    obtain ⟨f, fs, hf, -, rfl, -⟩ := step_else hs h
    rw [hf] at hn
    exact sameBlock_outer hs hf rfl rfl (by simpa using hn)
  | close =>
    obtain ⟨f, fs, hf, -, rfl, -⟩ := step_end hs h
    rw [hf] at hn hshape
    have hfun : f.kind ≠ .function := by
      intro hk
      rw [hshape.1.mp hk] at hn
      simp at hn
    refine sameBlock_outer hs hf (by rw [if_neg hfun]) rfl (by simpa using hn)

/-- **The open blocks stay in order.** -/
theorem step_shaped (hs : s.WF) (hshape : Shaped results s.frames) (hne : s.frames ≠ [])
    (h : step ctx i s = .ok (note, s')) : s'.WF ∧ Shaped results s'.frames := by
  by_cases hi : isFlat i = true
  · rcases (step_flat hs hi h).1 with hk | hd
    · exact ⟨hk.wf hs, by rw [hk.frames]; exact hshape⟩
    · refine ⟨hd.wf hs, ?_⟩
      obtain ⟨f, fs, hf, rfl⟩ := hd
      rw [hf] at hshape
      exact hshape
  · have opens : ∀ kind, opened? i = some kind → kind ≠ .function → s'.WF ∧ Shaped results s'.frames := by
      intro kind ho hk
      obtain ⟨t, base, -, ho, -, -⟩ := step_opens hs ho h
      rw [ho.frames]
      exact ⟨ho.wf hs, ⟨fun h => absurd h hk, fun h => absurd h hne⟩, fun h => absurd h hk, hshape⟩
    cases i with
    | block _ | loop _ | if_ _ => exact opens _ rfl (by decide)
    | else_ =>
      obtain ⟨f, fs, hf, hk, rfl, -⟩ := step_else hs h
      rw [hf] at hshape
      refine ⟨hs.below hf _, ⟨nofun, ?_⟩, nofun, hshape.2.2⟩
      intro hfs
      have := hshape.1.mpr hfs
      rw [hk] at this
      cases this
    | end_ =>
      obtain ⟨f, fs, hf, -, rfl, -⟩ := step_end hs h
      have hwf := hs.below hf ((f.type.results.map some).reverse)
      rw [hf] at hshape
      refine ⟨?_, hshape.2.2⟩
      by_cases hfun : f.kind = .function
      · rw [if_pos hfun, hshape.1.mp hfun]
        trivial
      · rw [if_neg hfun]
        exact hwf.2.mono hwf.1
    | _ => exact absurd rfl hi

/-! ### Places -/

/-- A place in a body that has been checked as `cs` from the stacks `first` on: the code that follows, and
the stacks that checking has come to. -/
structure Place (ctx : Context) (body : List Placed) (first : Stacks) (cs : List Checked)
    (code : List Instr) (s : Stacks) : Prop where
  position : ∃ n, code = (body.drop n).map Placed.instr ∧
    stacksAfter ctx (body.take n) first = some s ∧ CheckedAs ctx (body.drop n) s (cs.drop n)
  heights : s.WF
  shaped : Shaped ctx.results s.frames

variable {body : List Placed} {first : Stacks} {cs : List Checked} {code rest : List Instr}

/-- What checking has found at the next instruction of a place, and the place after it. -/
theorem Place.next (h : Place ctx body first cs (i :: rest) s) :
    ∃ n p note s', body[n]? = some p ∧ p.instr = i ∧ rest = (body.drop (n + 1)).map Placed.instr ∧
      stacksAfter ctx (body.take n) first = some s ∧ cs[n]? = some (checked i p.offset s note) ∧
      s.frames ≠ [] ∧ step { ctx with offset := p.offset } i s = .ok (note, s') ∧
      Place ctx body first cs rest s' := by
  obtain ⟨n, hcode, hafter, hchecked⟩ := h.position
  obtain ⟨p, ps, hdrop, rfl, rfl⟩ := map_eq_cons_iff.mp hcode.symm
  have hp : body[n]? = some p := by
    rw [← head?_drop, hdrop]
    rfl
  have hps : ps = body.drop (n + 1) := by
    rw [← tail_drop, hdrop]
    rfl
  rw [hdrop] at hchecked
  generalize hcs : cs.drop n = ds at hchecked
  cases hchecked with
  | @step _ _ _ s' note ds hne hstep hrest =>
    have hc : cs[n]? = some (checked p.instr p.offset s note) := by
      rw [← head?_drop, hcs]
      rfl
    have hds : ds = cs.drop (n + 1) := by
      rw [← tail_drop, hcs]
      rfl
    obtain ⟨hwf, hshape⟩ := step_shaped h.heights h.shaped hne hstep
    refine ⟨n, p, note, s', hp, rfl, by rw [hps], hafter, hc, hne, hstep, ⟨n + 1, by rw [hps], ?_, ?_⟩, hwf, hshape⟩
    · rw [take_add_one, hp]
      exact stacksAfter_concat hstep hafter
    · rw [← hps, ← hds]
      exact hrest

theorem Place.frames_nil (h : Place ctx body first cs [] s) : s.frames = [] := by
  obtain ⟨n, hcode, -, hchecked⟩ := h.position
  rw [map_eq_nil_iff.mp hcode.symm] at hchecked
  generalize cs.drop n = ds at hchecked
  cases hchecked with
  | done hs => exact hs

/-- The code that follows tells the place. -/
theorem Place.unique (h : Place ctx body first cs code s) (h' : Place ctx body first cs code s') : s = s' := by
  obtain ⟨n, hcode, hafter, -⟩ := h.position
  obtain ⟨n', hcode', hafter', -⟩ := h'.position
  have hlen := congrArg List.length (hcode.symm.trans hcode')
  simp only [length_map, length_drop] at hlen
  rw [take_eq_take_iff.mpr (show min n body.length = min n' body.length by omega)] at hafter
  exact Option.some.inj (hafter.symm.trans hafter')

/-! ### Behind constructs and in second arms -/

theorem SameBlock.length_lt (h : SameBlock n s n' s' f f') (hn : n + 1 < s.frames.length) :
    n' + 1 < s'.frames.length := by
  have := congrArg List.length h.outer
  simp only [length_drop] at this
  omega

/-- **Behind the end of a construct**, its results lie on what was below it. -/
theorem Place.behind (h : Place ctx body first cs code s)
    (hf : s.frames[n]? = some f) (hn : n + 1 < s.frames.length) :
    ∃ s', Place ctx body first cs (afterEnd n code) s' ∧ s'.frames = s.frames.drop (n + 1) ∧
      s'.vals = (f.type.results.map some).reverse ++ low f.height s.vals := by
  induction code generalizing n s f with
  | nil =>
    rw [h.frames_nil] at hf
    cases hf
  | cons i rest ih =>
    obtain ⟨-, p, note, s1, -, -, -, -, -, -, hstep, h1⟩ := h.next
    rcases moves_or i n with ⟨n', hm⟩ | ⟨rfl, rfl | rfl⟩
    · obtain ⟨g, g', hsame⟩ := sameBlock_step h.heights h.shaped hstep hm (Nat.lt_of_succ_lt hn)
      cases hf.symm.trans hsame.before
      obtain ⟨s', h', hframes, hvals⟩ := ih h1 hsame.after (hsame.length_lt hn)
      refine ⟨s', by rw [hm.afterEnd]; exact h', hframes.trans hsame.outer, ?_⟩
      rw [hvals, hsame.type, hsame.height, hsame.low]
    · -- The second arm starts where the first one did.
      obtain ⟨g, fs, hg, -, rfl, -⟩ := step_else h.heights hstep
      rw [hg] at hf hn
      cases hf
      obtain ⟨s', h', hframes, hvals⟩ := ih h1 rfl hn
      refine ⟨s', h', by rw [hframes, hg]; rfl, ?_⟩
      have hwf := h.heights.cons hg
      rw [hvals]
      rw [low_append_low _ (Nat.le_refl _) hwf.1]
    · obtain ⟨g, fs, hg, -, rfl, -⟩ := step_end h.heights hstep
      have hshape := h.shaped
      rw [hg] at hf hn hshape
      cases hf
      have hfun : f.kind ≠ .function := by
        intro hk
        rw [hshape.1.mp hk] at hn
        simp at hn
      refine ⟨_, h1, by rw [hg]; rfl, ?_⟩
      rw [if_neg hfun]

/-- **In the second arm of an `if`**, its parameters lie on what was below it.  Without a second arm it leaves what it
takes. -/
theorem Place.arm (h : Place ctx body first cs code s) (hf : s.frames[n]? = some f) (hk : f.kind = .if_) :
    match afterElse? n code with
    | some arm => ∃ s', Place ctx body first cs arm s' ∧ s'.frames = ⟨.else_, f.type, f.height, false⟩ :: s.frames.drop (n + 1) ∧
      s'.vals = (f.type.params.map some).reverse ++ low f.height s.vals
    | none => f.type.params = f.type.results := by
  induction code generalizing n s f with
  | nil =>
    rw [h.frames_nil] at hf
    cases hf
  | cons i rest ih =>
    obtain ⟨-, p, note, s1, -, -, -, -, -, -, hstep, h1⟩ := h.next
    rcases moves_or i n with ⟨n', hm⟩ | ⟨rfl, rfl | rfl⟩
    · obtain ⟨g, g', hsame⟩ := sameBlock_step h.heights h.shaped hstep hm (List.getElem?_eq_some_iff.mp hf).1
      cases hf.symm.trans hsame.before
      have harm := ih h1 hsame.after (hsame.kind.trans hk)
      rwa [hsame.type, hsame.height, hsame.outer, hsame.low, ← hm.afterElse?] at harm
    · obtain ⟨g, fs, hg, -, rfl, -⟩ := step_else h.heights hstep
      rw [hg] at hf
      cases hf
      exact ⟨_, h1, by rw [hg]; rfl, rfl⟩
    · obtain ⟨g, fs, hg, hsame, -, -⟩ := step_end h.heights hstep
      rw [hg] at hf
      cases hf
      exact hsame hk

end ScoreWasm.Wasm.Validate
