import ScoreWasm.Proofs.Monad
import ScoreWasm.Proofs.Wasm.Structured
import ScoreWasm.Wasm.Validate

/-!
# What type checking has found

Each step of type checking in terms of what it does to the two stacks.  No step touches the operands
below the innermost open block.  In code that can be reached all operand types are known, and there a
step that succeeds says exactly which operands it found and which it left.
-/

namespace ScoreWasm.Wasm.Validate

open List

open ScoreWasm.StateT (bind_eq_ok discard_eq_ok get_eq_ok ite_eq_ok modify_eq_ok pure_eq_ok set_eq_ok)

variable {fs : List Frame} {f g : Frame} {α : Type} {ts : List ValType} {r : Option Operand} {expect : Operand}
  {u : Unit} {t : FuncType} {indexed : Bool} {note : Note} {arity n : Nat} {types : Option (List ValType)}
  {kind : FrameKind} {bt : BlockType} {rs top : List Operand} {a : α}

/-! ### The operands at the bottom -/

/-- The lowest elements of a stack whose topmost element comes first. -/
def low {α : Type} (h : Nat) (l : List α) : List α := l.drop (l.length - h)

section Low

variable {β : Type} {h k : Nat} {l : List α}

theorem length_low (hl : h ≤ l.length) : (low h l).length = h := by
  unfold low
  rw [length_drop]
  omega

theorem low_append (xs : List α) (hl : h ≤ l.length) : low h (xs ++ l) = low h l := by
  unfold low
  rw [length_append, drop_append]
  rw [drop_eq_nil_of_le (by omega), nil_append]
  congr 1
  omega

theorem low_cons (x : α) (hl : h ≤ l.length) : low h (x :: l) = low h l :=
  low_append [x] hl

theorem low_low (hk : h ≤ k) (hl : k ≤ l.length) : low h (low k l) = low h l := by
  unfold low
  rw [drop_drop, length_drop]
  congr 1
  omega

theorem low_eq_self (hl : l.length ≤ h) : low h l = l := by
  unfold low
  rw [show l.length - h = 0 by omega, drop_zero]

theorem low_append_self (xs : List α) : low l.length (xs ++ l) = l := by
  rw [low_append xs (Nat.le_refl _), low_eq_self (Nat.le_refl _)]

theorem low_map (f : α → β) : low h (l.map f) = (low h l).map f := by
  unfold low
  rw [length_map, map_drop]

/-- What lies below a height does not depend on what lies above a greater one. -/
theorem low_append_low (xs : List α) (hk : h ≤ k) (hl : k ≤ l.length) : low h (xs ++ low k l) = low h l := by
  rw [low_append _ (by rw [length_low hl]; exact hk), low_low hk hl]

/-- What lies below one height is the same if what lies below a greater one is. -/
theorem low_eq_of_low_eq {l' : List α} (hk : h ≤ k) (hl : k ≤ l.length)
    (hl' : k ≤ l'.length) (heq : low k l = low k l') : low h l = low h l' := by
  rw [← low_low hk hl, heq, low_low hk hl']

end Low

/-! ### Heights -/

/-- The open blocks lie above each other, and all of them below a height. -/
def Heights : Nat → List Frame → Prop
  | _, [] => True
  | n, f :: fs => f.height ≤ n ∧ Heights f.height fs

theorem Heights.mono {k : Nat} (h : Heights n fs) (hk : n ≤ k) : Heights k fs := by
  cases fs with
  | nil => trivial
  | cons f fs => exact ⟨Nat.le_trans h.1 hk, h.2⟩

theorem Heights.le_of_mem (h : Heights n fs) (hf : f ∈ fs) : f.height ≤ n := by
  induction fs generalizing n with
  | nil => cases hf
  | cons g fs ih =>
    rcases mem_cons.mp hf with rfl | hf
    · exact h.1
    · exact Nat.le_trans (ih h.2 hf) h.1

theorem Heights.drop (d : Nat) (h : Heights n fs) : Heights n (fs.drop d) := by
  induction fs generalizing n d with
  | nil => simpa using h
  | cons f fs ih =>
    cases d with
    | zero => exact h
    | succ d => exact (ih d h.2).mono h.1

/-- The open blocks of a state lie above each other. -/
def Stacks.WF (s : Stacks) : Prop := Heights s.vals.length s.frames

theorem Stacks.WF.cons {s : Stacks} (hs : s.WF) (hf : s.frames = f :: fs) :
    f.height ≤ s.vals.length ∧ Heights f.height fs := by
  unfold Stacks.WF at hs
  rw [hf] at hs
  exact hs

/-- The blocks around a block lie no higher than it. -/
theorem Stacks.WF.height_le {s : Stacks} (hs : s.WF) (hf : s.frames[n]? = some f)
    (hg : g ∈ s.frames.drop n) : g.height ≤ f.height := by
  have hwf := Heights.drop n hs
  obtain ⟨hdepth, rfl⟩ := List.getElem?_eq_some_iff.mp hf
  rw [List.drop_eq_getElem_cons hdepth] at hwf hg
  rcases List.mem_cons.mp hg with rfl | hg
  · exact Nat.le_refl _
  · exact hwf.2.le_of_mem hg

/-! ### Steps that stay above the innermost block -/

/-- The open blocks are the same, and so are the operands below the innermost one. -/
structure Keeps (s s' : Stacks) : Prop where
  frames : s'.frames = s.frames
  height : ∀ f ∈ s.frames.head?, f.height ≤ s'.vals.length
  low : ∀ f ∈ s.frames.head?, low f.height s'.vals = low f.height s.vals

namespace Keeps

variable {s : Stacks}

theorem refl (h : s.WF) : Keeps s s := by
  refine ⟨rfl, ?_, fun _ _ => rfl⟩
  intro f hf
  exact Heights.le_of_mem h (mem_of_mem_head? hf)

theorem trans {t u : Stacks} (h : Keeps s t) (k : Keeps t u) : Keeps s u := by
  refine ⟨k.frames.trans h.frames, ?_, ?_⟩
  · intro f hf
    exact k.height f (by rw [h.frames]; exact hf)
  · intro f hf
    rw [k.low f (by rw [h.frames]; exact hf), h.low f hf]

theorem wf {s' : Stacks} (h : Keeps s s') (hs : s.WF) : s'.WF := by
  unfold Stacks.WF at *
  rw [h.frames]
  cases hf : s.frames with
  | nil => trivial
  | cons f fs =>
    rw [hf] at hs
    exact ⟨h.height f (by rw [hf]; rfl), hs.2⟩

theorem push (hs : s.WF) (ts : List Operand) : Keeps s { s with vals := ts ++ s.vals } := by
  refine ⟨rfl, ?_, ?_⟩
  · intro f hf
    have := Heights.le_of_mem hs (mem_of_mem_head? hf)
    simp only [length_append]
    omega
  · intro f hf
    exact low_append ts (Heights.le_of_mem hs (mem_of_mem_head? hf))

end Keeps

variable {ctx : Context} {s s' : Stacks}

theorem fail_eq_ok {r : Invalid} : (ctx.fail r : Check α) s = .ok (a, s') ↔ False := by
  constructor
  · intro h; cases h
  · exact False.elim

theorem failRange_eq_ok : (failRange : Check α) s = .ok (a, s') ↔ False := by
  constructor
  · intro h; cases h
  · exact False.elim

/-- A check that fails where a condition holds, and goes on elsewhere. -/
theorem guard_eq_ok {β : Type} {b : β} {p : Prop} [Decidable p] {r : Invalid} {k : α → Check β} {c : Check β} :
    (if p then ctx.fail r >>= k else c) s = .ok (b, s') ↔ ¬p ∧ c s = .ok (b, s') := by
  simp only [ite_eq_ok, bind_eq_ok, fail_eq_ok, false_and, exists_false, and_false, false_or]

theorem elementOr_eq_ok {l : List α} {i : Int} {r : Invalid} :
    elementOr l i (ctx.fail r) s = .ok (a, s') ↔ elementAt? l i = some a ∧ s' = s := by
  unfold elementOr
  cases elementAt? l i with
  | some b => rw [pure_eq_ok, Option.some.injEq, eq_comm (a := s)]
  | none => simp only [ite_eq_ok, failRange_eq_ok, fail_eq_ok, and_false, or_self, reduceCtorEq, false_and]

theorem Frame.labelTypes_loop (h : f.kind = .loop) : f.labelTypes = f.type.params := by
  unfold Frame.labelTypes
  rw [h]
  rfl

theorem Frame.labelTypes_forward (h : f.kind ≠ .loop) : f.labelTypes = f.type.results := by
  unfold Frame.labelTypes
  rw [if_neg (by simpa using h)]

theorem labelTypes_eq_ok {l : Int} :
    labelTypes ctx l s = .ok (ts, s') ↔ ∃ f, elementAt? s.frames l = some f ∧ ts = f.labelTypes ∧ s' = s := by
  unfold labelTypes
  simp only [bind_eq_ok, get_eq_ok, elementOr_eq_ok, pure_eq_ok]
  constructor
  · rintro ⟨_, _, ⟨rfl, rfl⟩, f, _, ⟨hf, rfl⟩, rfl, rfl⟩
    exact ⟨f, hf, rfl, rfl⟩
  · rintro ⟨f, hf, rfl, rfl⟩
    exact ⟨_, _, ⟨rfl, rfl⟩, f, _, ⟨hf, rfl⟩, rfl, rfl⟩

/-- Taking an operand: either the topmost one goes, or the block is unreachable and empty. -/
theorem take_ok (h : take ctx s = .ok (r, s')) : ∃ f fs, s.frames = f :: fs ∧
      ((∃ v rest, s.vals = v :: rest ∧ s.vals.length ≠ f.height ∧ r = some v ∧
        s' = { s with vals := rest }) ∨ (f.dead = true ∧ r = none ∧ s' = s)) := by
  unfold take at h
  simp only [bind_eq_ok, get_eq_ok] at h
  obtain ⟨_, _, ⟨rfl, rfl⟩, h⟩ := h
  rename_i s
  cases hf : s.frames with
  | nil =>
    rw [hf] at h
    exact (fail_eq_ok.mp h).elim
  | cons f fs =>
    rw [hf] at h
    refine ⟨f, fs, rfl, ?_⟩
    cases hv : s.vals with
    | nil =>
      rw [hv] at h
      simp only [ite_eq_ok, pure_eq_ok, fail_eq_ok, and_false, or_false] at h
      obtain ⟨hd, rfl, rfl⟩ := h
      exact .inr ⟨hd, rfl, rfl⟩
    | cons v rest =>
      rw [hv] at h
      simp only [ite_eq_ok, bind_eq_ok, set_eq_ok, pure_eq_ok, fail_eq_ok, and_false, or_false, beq_iff_eq] at h
      rcases h with ⟨-, hd, rfl, rfl⟩ | ⟨hne, _, _, rfl, rfl, rfl⟩
      · exact .inr ⟨hd, rfl, rfl⟩
      · exact .inl ⟨v, rest, rfl, hne, rfl, rfl⟩

theorem take_keeps (hs : s.WF) (h : take ctx s = .ok (r, s')) : Keeps s s' := by
  obtain ⟨f, fs, hf, ⟨v, rest, hv, hne, -, rfl⟩ | ⟨-, -, rfl⟩⟩ := take_ok h
  · have hle : f.height ≤ rest.length := by
      have := Heights.le_of_mem hs (show f ∈ s.frames by rw [hf]; simp)
      rw [hv] at this hne
      simp only [length_cons] at this hne
      omega
    refine ⟨rfl, ?_, ?_⟩
    · intro g hg
      rw [hf] at hg
      cases hg
      exact hle
    · intro g hg
      rw [hf] at hg
      cases hg
      rw [hv, low_cons v hle]
  · exact Keeps.refl hs

/-- The type that taking an operand ends with. -/
theorem pop_ok {r : Operand} (h : pop ctx expect s = .ok (r, s')) : ∃ v, take ctx s = .ok (v, s') ∧
      ((r = expect ∧ (v = none ∨ v = some none)) ∨
        (∃ t, v = some (some t) ∧ r = some t ∧ (expect = none ∨ expect = some t))) := by
  unfold pop at h
  simp only [bind_eq_ok] at h
  obtain ⟨v, t, ht, h⟩ := h
  split at h
  · obtain ⟨rfl, rfl⟩ := pure_eq_ok.mp h
    exact ⟨none, ht, .inl ⟨rfl, .inl rfl⟩⟩
  · obtain ⟨rfl, rfl⟩ := pure_eq_ok.mp h
    exact ⟨some none, ht, .inl ⟨rfl, .inr rfl⟩⟩
  · rename_i actual
    split at h
    · simp only [ite_eq_ok, pure_eq_ok, fail_eq_ok, and_false, or_false, beq_iff_eq] at h
      obtain ⟨rfl, rfl, rfl⟩ := h
      exact ⟨_, ht, .inr ⟨_, rfl, rfl, .inr rfl⟩⟩
    · obtain ⟨rfl, rfl⟩ := pure_eq_ok.mp h
      exact ⟨_, ht, .inr ⟨_, rfl, rfl, .inl rfl⟩⟩

theorem pop_keeps {r : Operand} (hs : s.WF) (h : pop ctx expect s = .ok (r, s')) : Keeps s s' := by
  obtain ⟨v, ht, -⟩ := pop_ok h
  exact take_keeps hs ht

theorem pushMany_ok {ts : List Operand} (h : pushMany ts s = .ok (u, s')) :
    s' = { s with vals := ts.reverse ++ s.vals } := modify_eq_ok.mp h

theorem push_ok {t : Operand} (h : push t s = .ok (u, s')) : s' = { s with vals := t :: s.vals } := modify_eq_ok.mp h

theorem pushTypes_ok (h : pushTypes ts s = .ok (u, s')) :
    s' = { s with vals := (ts.map some).reverse ++ s.vals } := pushMany_ok h

theorem pushMany_keeps {ts : List Operand} (hs : s.WF) (h : pushMany ts s = .ok (u, s')) : Keeps s s' := by
  rw [pushMany_ok h]
  exact Keeps.push hs _

/-! ### Known operands -/

/-- The types of all operands are known, and the code can be reached. -/
structure Stacks.Knows (s : Stacks) (ts : List ValType) : Prop where
  vals : s.vals = ts.map some
  live : ∀ f ∈ s.frames, f.dead = false

/-- Operands that all lie above the innermost block leave at least those below it. -/
def Fits (frames : List Frame) (rest : List ValType) : Prop :=
  ∀ f ∈ frames.head?, f.height ≤ rest.length

theorem Keeps.fits (k : Keeps s s') (hk : s'.Knows ts) : Fits s.frames ts := by
  intro f hf
  have := k.height f hf
  rwa [hk.vals, length_map] at this

theorem Stacks.Knows.push (h : s.Knows ts) (us : List ValType) :
    Stacks.Knows { s with vals := (us.map some).reverse ++ s.vals } (us.reverse ++ ts) := by
  refine ⟨?_, h.live⟩
  simp [h.vals]

theorem take_knows (hk : s.Knows ts) (h : take ctx s = .ok (r, s')) :
    ∃ t rest, ts = t :: rest ∧ r = some (some t) ∧ s'.Knows rest := by
  obtain ⟨f, fs, hf, ⟨v, rest, hv, -, rfl, rfl⟩ | ⟨hd, -, -⟩⟩ := take_ok h
  · rw [hk.vals] at hv
    obtain ⟨t, ts', rfl, rfl, rfl⟩ := map_eq_cons_iff.mp hv
    exact ⟨t, ts', rfl, rfl, rfl, hk.live⟩
  · have := hk.live f (by rw [hf]; simp)
    rw [hd] at this
    cases this

theorem pop_knows {r : Operand} (hk : s.Knows ts) (h : pop ctx expect s = .ok (r, s')) :
    ∃ t rest, ts = t :: rest ∧ r = some t ∧ (expect = none ∨ expect = some t) ∧ s'.Knows rest := by
  obtain ⟨v, ht, hv⟩ := pop_ok h
  obtain ⟨t, rest, rfl, rfl, hk'⟩ := take_knows hk ht
  refine ⟨t, rest, rfl, ?_⟩
  rcases hv with ⟨-, hv | hv⟩ | ⟨t', hv, rfl, he⟩
  · cases hv
  · cases hv
  · cases hv
    exact ⟨rfl, he, hk'⟩

/-! ### Operands taken and left -/

/-- The innermost frame is live. -/
def Stacks.TopLive (s : Stacks) : Prop := ∀ f ∈ s.frames.head?, f.dead = false

/-- Operands have been taken and others left, all above the innermost block: so many if the block can be
reached, and of these types where the types of all operands are known. -/
structure Trades (s : Stacks) (ins outs : List ValType) (s' : Stacks) : Prop where
  keeps : Keeps s s'
  length : s.TopLive → s.vals.length + outs.length = s'.vals.length + ins.length
  knows : ∀ ts, s.Knows ts → ∃ rest, ts = ins.reverse ++ rest ∧ Fits s.frames rest ∧ s'.Knows (outs.reverse ++ rest)

namespace Trades

variable {s₁ : Stacks} {ins ins' outs : List ValType}

theorem refl (hs : s.WF) : Trades s [] [] s :=
  ⟨.refl hs, fun _ => rfl, fun ts hk => ⟨ts, rfl, (Keeps.refl hs).fits hk, hk⟩⟩

theorem trans (h : Trades s ins [] s₁) (h' : Trades s₁ ins' outs s') : Trades s (ins' ++ ins) outs s' := by
  refine ⟨h.keeps.trans h'.keeps, fun hl => ?_, fun ts hk => ?_⟩
  · have h1 := h.length hl
    have h2 := h'.length (by rw [Stacks.TopLive, h.keeps.frames]; exact hl)
    rw [length_nil] at h1
    rw [length_append]
    omega
  obtain ⟨_, rfl, -, hk₁⟩ := h.knows ts hk
  obtain ⟨rest, hrest, hfit, hk'⟩ := h'.knows _ hk₁
  cases hrest
  rw [h.keeps.frames] at hfit
  exact ⟨rest, by simp, hfit, hk'⟩

theorem pushTypes (hs : s.WF) (h : Trades s ins [] s₁) (h' : pushTypes ts s₁ = .ok (u, s')) : Trades s ins ts s' := by
  rw [pushTypes_ok h']
  refine ⟨h.keeps.trans (.push (h.keeps.wf hs) _), fun hl => ?_, fun us hk => ?_⟩
  · have h1 := h.length hl
    simp only [length_append, length_reverse, length_map, length_nil] at h1 ⊢
    omega
  obtain ⟨rest, rfl, hfit, hk₁⟩ := h.knows us hk
  exact ⟨rest, rfl, hfit, hk₁.push ts⟩

theorem push {t : ValType} (hs : s.WF) (h : Trades s ins [] s₁)
    (h' : push (some t) s₁ = .ok (u, s')) : Trades s ins [t] s' :=
  h.pushTypes hs h'

end Trades

theorem pop_trades {t : ValType} {r : Operand} (hs : s.WF) (h : pop ctx (some t) s = .ok (r, s')) :
    Trades s [t] [] s' ∧ ∀ ts, s.Knows ts → r = some t := by
  have k := pop_keeps hs h
  have hknows : ∀ ts, s.Knows ts → ∃ rest, ts = t :: rest ∧ r = some t ∧ s'.Knows rest := by
    intro ts hk
    obtain ⟨t', rest, rfl, rfl, he, hk'⟩ := pop_knows hk h
    obtain rfl : t = t' := by simpa using he
    exact ⟨rest, rfl, rfl, hk'⟩
  refine ⟨⟨k, fun hl => ?_, fun ts hk => ?_⟩, fun ts hk => ?_⟩
  · obtain ⟨v, ht, -⟩ := pop_ok h
    obtain ⟨f, fs, hf, ⟨v, rest, hv, -, -, rfl⟩ | ⟨hd, -, -⟩⟩ := take_ok ht
    · rw [hv]
      rfl
    · cases hd.symm.trans (hl f (by rw [hf]; rfl))
  · obtain ⟨rest, rfl, -, hk'⟩ := hknows ts hk
    exact ⟨rest, rfl, k.fits hk', hk'⟩
  · obtain ⟨-, -, hr, -⟩ := hknows ts hk
    exact hr

theorem popMany_trades (hs : s.WF) (h : popMany ctx ts s = .ok (rs, s')) :
    Trades s ts [] s' ∧ ∀ us, s.Knows us → rs = ts.map some := by
  induction ts generalizing rs s' with
  | nil =>
    obtain ⟨rfl, rfl⟩ := pure_eq_ok.mp h
    exact ⟨.refl hs, fun _ _ => rfl⟩
  | cons t ts ih =>
    unfold popMany at h
    simp only [bind_eq_ok, pure_eq_ok] at h
    obtain ⟨after, s1, h1, v, s2, h2, rfl, rfl⟩ := h
    obtain ⟨p1, e1⟩ := ih h1
    obtain ⟨p2, e2⟩ := pop_trades (p1.keeps.wf hs) h2
    refine ⟨p1.trans p2, fun us hk => ?_⟩
    obtain ⟨rest, -, -, hk1⟩ := p1.knows us hk
    rw [e1 us hk, e2 _ hk1, map_cons]

theorem applyType_trades (hs : s.WF) (h : applyType ctx t s = .ok (u, s')) : Trades s t.params t.results s' := by
  obtain ⟨_, s1, h1, h2⟩ := bind_eq_ok.mp h
  obtain ⟨rs, h1⟩ := discard_eq_ok.mp h1
  exact (popMany_trades hs h1).1.pushTypes hs h2

/-- Where a call finds its operands.  What lay on the stack before it is kept for the record. -/
theorem applyCall_trades (hs : s.WF) (h : applyCall ctx t indexed s = .ok (note, s')) :
    Trades s (t.params ++ if indexed then [.i32] else []) t.results s' ∧ note.stack = some s.vals.reverse := by
  unfold applyCall at h
  simp only [bind_eq_ok, get_eq_ok, ite_eq_ok, discard_eq_ok, pure_eq_ok] at h
  obtain ⟨_, _, ⟨rfl, rfl⟩, h⟩ := h
  rcases h with ⟨rfl, _, s1, ⟨r, h1⟩, _, s2, h2, rfl, rfl⟩ | ⟨hi, _, s1, h2, rfl, rfl⟩
  · have p1 := (pop_trades hs h1).1
    exact ⟨p1.trans (applyType_trades (p1.keeps.wf hs) h2), rfl⟩
  · rw [if_neg hi, append_nil]
    exact ⟨applyType_trades hs h2, rfl⟩

/-- Every label of a branch table finds the types that it takes along, as many as the default does, on
top of the operands. -/
theorem checkTable_ok {ls : List Int} (hs : s.WF) (h : checkTable ctx arity ls s = .ok (u, s')) :
    Keeps s s' ∧ (∀ ts, s.Knows ts → s'.Knows ts) ∧
      ∀ l ∈ ls, ∃ f, elementAt? s.frames l = some f ∧ f.labelTypes.length = arity ∧
        ∀ ts, s.Knows ts → ∃ rest, ts = f.labelTypes.reverse ++ rest ∧ Fits s.frames rest := by
  induction ls generalizing s with
  | nil =>
    obtain ⟨-, rfl⟩ := pure_eq_ok.mp h
    exact ⟨.refl hs, fun _ hk => hk, fun l hl => (by cases hl)⟩
  | cons l ls ih =>
    unfold checkTable at h
    simp only [bind_eq_ok, guard_eq_ok, bne_iff_ne, ne_eq, Decidable.not_not] at h
    obtain ⟨us, s1, h1, hlen, rs, s2, h2, _, s3, h3, h4⟩ := h
    obtain ⟨f, hf, rfl, rfl⟩ := labelTypes_eq_ok.mp h1
    obtain ⟨p2, e2⟩ := popMany_trades hs h2
    have k3 := p2.keeps.trans (pushMany_keeps (p2.keeps.wf hs) h3)
    obtain ⟨k4, hknows, hl⟩ := ih (k3.wf hs) h4
    have hk3 : ∀ ts, s1.Knows ts → s3.Knows ts := by
      intro ts hk
      cases e2 ts hk
      obtain ⟨rest, rfl, -, hk3⟩ := (p2.pushTypes hs h3).knows ts hk
      exact hk3
    rw [k3.frames] at hl
    refine ⟨k3.trans k4, fun ts hk => hknows ts (hk3 ts hk), forall_mem_cons.mpr ⟨⟨f, hf, hlen, ?_⟩, ?_⟩⟩
    · intro ts hk
      obtain ⟨rest, hts, hfit, -⟩ := p2.knows ts hk
      exact ⟨rest, hts, hfit⟩
    · intro l' hl'
      obtain ⟨g, hg, harity, hfound⟩ := hl l' hl'
      exact ⟨g, hg, harity, fun ts hk => hfound ts (hk3 ts hk)⟩

/-- The type that a `select` asks of its operands, if it names one; a list of several types has no
meaning. -/
def selectType : Option (List ValType) → Option Operand
  | none => some none
  | some [] => some none
  | some [t] => some (some t)
  | some (_ :: _ :: _) => none

/-- A `select` takes a condition and two operands, and leaves one of the type that was found. -/
theorem checkSelect_ok : checkSelect ctx types s = .ok (note, s') ↔
    ∃ r s1 expect first s2 second s3, pop ctx (some .i32) s = .ok (r, s1) ∧ selectType types = some expect ∧
      pop ctx expect s1 = .ok (first, s2) ∧ pop ctx first s2 = .ok (second, s3) ∧
      (namedType [first, second, expect]).isNumeric = true ∧
      note = { Note.empty with valueType := some (namedType [first, second, expect]) } ∧
      s' = { s3 with vals := (first <|> second) :: s3.vals } := by
  unfold checkSelect
  match types with
  | none | some [] | some [_] =>
    simp only [bind_eq_ok, discard_eq_ok, guard_eq_ok, push, modify_eq_ok, pure_eq_ok, selectType,
      Option.some.injEq, Bool.not_eq_true', Bool.not_eq_false]
    constructor
    · rintro ⟨_, s1, ⟨r, h1⟩, expect, _, ⟨rfl, rfl⟩, first, s2, h2, second, s3, h3, hn, _, _, rfl, rfl, rfl⟩
      exact ⟨r, _, _, first, s2, second, s3, h1, rfl, h2, h3, hn, rfl, rfl⟩
    · rintro ⟨r, s1, expect, first, s2, second, s3, h1, rfl, h2, h3, hn, rfl, rfl⟩
      exact ⟨(), s1, ⟨r, h1⟩, _, _, ⟨rfl, rfl⟩, first, s2, h2, second, s3, h3, hn, (), _, rfl, rfl, rfl⟩
  | some (_ :: _ :: _) =>
    simp [bind_eq_ok, fail_eq_ok, selectType]

/-! ### Selection -/

theorem namedType_known {t : ValType} (he : expect = none ∨ expect = some t) (hn : t.name ≠ "") :
    namedType [some t, some t, expect] = t ∧ namedType [some t] = t := by
  have hne : t.name.isEmpty = false := by
    rw [Bool.eq_false_iff]
    intro h
    exact hn (String.isEmpty_iff.mp h)
  rcases he with rfl | rfl <;> simp [namedType, hne]

theorem checkSelect_knows (hs : s.WF) (h : checkSelect ctx types s = .ok (note, s')) :
    Keeps s s' ∧ ∀ ts, s.Knows ts → ∃ t rest, ts = .i32 :: t :: t :: rest ∧ Fits s.frames rest ∧
      s'.Knows (t :: rest) ∧ (selectType types = some none ∨ selectType types = some (some t)) ∧
      (t.name ≠ "" → note.valueType = some t) := by
  obtain ⟨r, s1, expect, first, s2, second, s3, h1, ht, h2, h3, -, rfl, rfl⟩ := checkSelect_ok.mp h
  have k1 := pop_keeps hs h1
  have k2 := k1.trans (pop_keeps (k1.wf hs) h2)
  have k3 := k2.trans (pop_keeps (k2.wf hs) h3)
  refine ⟨k3.trans (Keeps.push (k3.wf hs) [_]), fun ts hk => ?_⟩
  obtain ⟨ts1, rfl, -, hk1⟩ := (pop_trades hs h1).1.knows ts hk
  obtain ⟨t, ts2, hts, rfl, he, hk2⟩ := pop_knows hk1 h2
  obtain ⟨t', rest, rfl, rfl, he', hk3⟩ := pop_knows hk2 h3
  cases hts
  obtain rfl : t = t' := by simpa using he'
  refine ⟨t, rest, rfl, k3.fits hk3, hk3.push [t], ?_, ?_⟩
  · rw [ht]
    rcases he with rfl | rfl
    · exact .inl rfl
    · exact .inr rfl
  · intro hn
    rw [(namedType_known he hn).1]

/-! ### Blocks -/

theorem popFrame_eq_ok : popFrame ctx s = .ok (f, s') ↔ ∃ fs rs s1, s.frames = f :: fs ∧
    popMany ctx f.type.results s = .ok (rs, s1) ∧ s1.vals.length = f.height ∧ s' = { s1 with frames := fs } := by
  unfold popFrame
  simp only [bind_eq_ok, get_eq_ok, and_assoc, exists_and_left, exists_eq_left]
  cases s.frames with
  | nil => simp only [fail_eq_ok, reduceCtorEq, false_and, exists_false]
  | cons g gs =>
    simp only [bind_eq_ok, discard_eq_ok, get_eq_ok, guard_eq_ok, modify_eq_ok, pure_eq_ok,
      bne_iff_ne, ne_eq, Decidable.not_not]
    constructor
    · rintro ⟨_, s1, ⟨rs, h1⟩, _, _, ⟨rfl, rfl⟩, hlen, _, _, rfl, rfl, rfl⟩
      exact ⟨gs, rfl, rs, _, h1, hlen, rfl⟩
    · rintro ⟨fs, hcons, rs, s1, h1, hlen, rfl⟩
      cases hcons
      exact ⟨(), s1, ⟨rs, h1⟩, _, _, ⟨rfl, rfl⟩, hlen, (), _, rfl, rfl, rfl⟩

/-- Closing a block leaves what lies below it; in it there were just the results. -/
theorem popFrame_ok (hs : s.WF) (h : popFrame ctx s = .ok (f, s')) :
    ∃ fs, s.frames = f :: fs ∧ s' = ⟨low f.height s.vals, fs⟩ ∧
      ∀ ts, s.Knows ts → ∃ rest, ts = f.type.results.reverse ++ rest ∧ rest.length = f.height := by
  obtain ⟨fs, rs, s1, hf, h1, hlen, rfl⟩ := popFrame_eq_ok.mp h
  have p := (popMany_trades hs h1).1
  refine ⟨fs, hf, ?_, ?_⟩
  · have hlow := p.keeps.low f (by rw [hf]; rfl)
    rw [low_eq_self (Nat.le_of_eq hlen)] at hlow
    rw [hlow]
  · intro ts hk
    obtain ⟨rest, rfl, -, hk1⟩ := p.knows ts hk
    rw [hk1.vals, reverse_nil, nil_append, length_map] at hlen
    exact ⟨rest, rfl, hlen⟩

theorem pushFrame_ok (h : pushFrame kind t s = .ok (u, s')) :
    s' = ⟨(t.params.map some).reverse ++ s.vals, ⟨kind, t, s.vals.length, false⟩ :: s.frames⟩ := by
  unfold pushFrame at h
  simp only [bind_eq_ok, modify_eq_ok] at h
  obtain ⟨_, _, rfl, h⟩ := h
  exact pushTypes_ok h

/-- The state in which the rest of the innermost block cannot be reached. -/
def Stacks.Dies (s s' : Stacks) : Prop :=
  ∃ f fs, s.frames = f :: fs ∧ s' = ⟨low f.height s.vals, { f with dead := true } :: fs⟩

theorem Stacks.Dies.wf (hs : s.WF) (h : s.Dies s') : s'.WF := by
  obtain ⟨f, fs, hf, rfl⟩ := h
  have hwf := hs.cons hf
  exact ⟨Nat.le_of_eq (length_low hwf.1).symm, hwf.2⟩

/-- The operands below a block stay while reading on inside it. -/
theorem low_of_keeps (hs : s.WF) (hf : f ∈ s.frames) (hk : Keeps s s' ∨ s.Dies s') :
    low f.height s'.vals = low f.height s.vals := by
  cases hfs : s.frames with
  | nil =>
    rw [hfs] at hf
    cases hf
  | cons g gs =>
    have hwf := hs.cons hfs
    rw [hfs] at hf
    have hle : f.height ≤ g.height := by
      rcases mem_cons.mp hf with rfl | hf
      · exact Nat.le_refl _
      · exact hwf.2.le_of_mem hf
    rcases hk with hk | ⟨g', gs', hg', rfl⟩
    · have hhead : g ∈ s.frames.head? := by rw [hfs]; rfl
      exact low_eq_of_low_eq hle (hk.height g hhead) hwf.1 (hk.low g hhead)
    · rw [hfs] at hg'
      cases hg'
      exact low_low hle hwf.1

/-- Taking operands changes nothing of how the rest of a block dies. -/
theorem Keeps.dies {t u : Stacks} (k : Keeps s t) (h : t.Dies u) : s.Dies u := by
  obtain ⟨f, fs, hf, rfl⟩ := h
  rw [k.frames] at hf
  rw [k.low f (by rw [hf]; rfl)]
  exact ⟨f, fs, hf, rfl⟩

theorem setDead_ok (hs : s.WF) (h : setDead s = .ok (u, s')) : Keeps s s' ∨ s.Dies s' := by
  have h := modify_eq_ok.mp h
  cases hf : s.frames with
  | nil =>
    rw [hf] at h
    rw [h]
    exact .inl (Keeps.refl hs)
  | cons f fs =>
    rw [hf] at h
    exact .inr ⟨f, fs, hf, h⟩

/-- Taking operands and marking the rest as unreachable. -/
theorem Keeps.setDead {t : Stacks} (hs : s.WF) (k : Keeps s t) (h : setDead t = .ok (u, s')) : Keeps s s' ∨ s.Dies s' :=
  (setDead_ok (k.wf hs) h).imp k.trans k.dies

theorem blockFuncType_eq_ok : blockFuncType ctx bt s = .ok (t, s') ↔ ctx.module.blockType? bt = some t ∧ s' = s := by
  match bt with
  | .empty | .value _ => rw [blockFuncType, pure_eq_ok, Module.blockType?, Option.some.injEq, eq_comm (a := s)]
  | .index (.negSucc _) => simp only [blockFuncType, fail_eq_ok, Module.blockType?, reduceCtorEq, false_and]
  | .index (.ofNat n) =>
    show _ ↔ ctx.module.types[n]? = some t ∧ _
    cases hn : ctx.module.types[n]? with
    | none => simp only [blockFuncType, hn, fail_eq_ok, reduceCtorEq, false_and]
    | some u => simp only [blockFuncType, hn, pure_eq_ok, Option.some.injEq, eq_comm (a := s)]

/-- The operands a frame takes. -/
def entryTypes (kind : FrameKind) (t : FuncType) : List ValType :=
  if kind = .if_ then t.params ++ [.i32] else t.params

/-- Pops the operands a frame takes. -/
def takeEntry (ctx : Context) (kind : FrameKind) (t : FuncType) : Check Unit := do
  if kind == .if_ then discard (pop ctx (some .i32))
  discard (popMany ctx t.params)

/-- Entering a construct takes its operands and opens a block. -/
theorem openBlock_eq_ok {note : Note} :
    openBlock ctx kind bt s = .ok (note, s') ↔ ∃ t s1, ctx.module.blockType? bt = some t ∧
      takeEntry ctx kind t s = .ok ((), s1) ∧ pushFrame kind t s1 = .ok ((), s') ∧
      note = { Note.empty with blockType := some t } := by
  have hopen : openBlock ctx kind bt = blockFuncType ctx bt >>= fun t => takeEntry ctx kind t >>= fun _ =>
      pushFrame kind t >>= fun _ => pure { Note.empty with blockType := some t } := by
    unfold openBlock takeEntry
    split <;> simp only [bind_assoc]
  simp only [hopen, bind_eq_ok, blockFuncType_eq_ok, pure_eq_ok]
  constructor
  · rintro ⟨t, _, ⟨ht, rfl⟩, _, s1, h1, _, s2, h2, rfl, rfl⟩
    exact ⟨t, s1, ht, h1, h2, rfl⟩
  · rintro ⟨t, s1, ht, h1, h2, rfl⟩
    exact ⟨t, _, ⟨ht, rfl⟩, (), s1, h1, (), s', h2, rfl, rfl⟩

theorem takeEntry_trades (hs : s.WF) (h : takeEntry ctx kind t s = .ok (u, s')) : Trades s (entryTypes kind t) [] s' := by
  unfold takeEntry at h
  simp only [ite_eq_ok, bind_eq_ok, discard_eq_ok] at h
  unfold entryTypes
  rcases h with ⟨hif, _, s1, ⟨r, h1⟩, rs, h2⟩ | ⟨hif, rs, h2⟩
  · have p1 := (pop_trades hs h1).1
    rw [if_pos (by simpa using hif)]
    exact p1.trans (popMany_trades (p1.keeps.wf hs) h2).1
  · rw [if_neg (by simpa using hif)]
    exact (popMany_trades hs h2).1

/-- A block has been opened above `base`, with its parameters on the stack. -/
structure Opened (kind : FrameKind) (t : FuncType) (base : List Operand) (s s' : Stacks) : Prop where
  keeps : Keeps s ⟨base, s.frames⟩
  vals : s'.vals = (t.params.map some).reverse ++ base
  frames : s'.frames = ⟨kind, t, base.length, false⟩ :: s.frames
  height : s.TopLive → s.vals.length = base.length + t.params.length + (if kind = .if_ then 1 else 0)

namespace Opened

variable {base : List Operand} (hs : s.WF) (h : Opened kind t base s s')

include hs h

theorem wf : s'.WF := by
  unfold Stacks.WF
  rw [h.frames, h.vals]
  refine ⟨?_, h.keeps.wf hs⟩
  rw [length_append]
  exact Nat.le_add_left _ _

/-- The operands below a block stay when another one is opened inside it. -/
theorem low_below (hf : f ∈ s.frames) : low f.height (top ++ base) = low f.height s.vals := by
  rw [low_append top (Heights.le_of_mem (h.keeps.wf hs) hf)]
  exact low_of_keeps hs hf (.inl h.keeps)

end Opened

/-- What lies below a block that closes, or starts again, stays in order. -/
theorem Stacks.WF.below (hs : s.WF) (hf : s.frames = f :: fs) (top : List Operand) :
    f.height ≤ (top ++ low f.height s.vals).length ∧ Heights f.height fs := by
  have hwf := hs.cons hf
  rw [length_append, length_low hwf.1]
  exact ⟨Nat.le_add_left _ _, hwf.2⟩

theorem openBlock_ok (hs : s.WF) (h : openBlock ctx kind bt s = .ok (note, s')) :
    ∃ t base, ctx.module.blockType? bt = some t ∧ note.blockType = some t ∧
      Opened kind t base s s' ∧ ∀ ts, s.Knows ts → ∃ rest, base = rest.map some ∧
        ts = (if kind = .if_ then [.i32] else []) ++ (t.params.reverse ++ rest) := by
  obtain ⟨t, s1, ht, h1, h2, rfl⟩ := openBlock_eq_ok.mp h
  have p := takeEntry_trades hs h1
  rw [pushFrame_ok h2, p.keeps.frames]
  refine ⟨t, s1.vals, ht, rfl, ⟨⟨rfl, p.keeps.height, p.keeps.low⟩, rfl, rfl, fun hl => ?_⟩, fun ts hk => ?_⟩
  · have hlen : s.vals.length = _ := p.length hl
    rw [hlen, Nat.add_assoc]
    unfold entryTypes
    split <;> simp
  · obtain ⟨rest, rfl, -, hk1⟩ := p.knows ts hk
    refine ⟨rest, hk1.vals, ?_⟩
    unfold entryTypes
    split <;> simp

end ScoreWasm.Wasm.Validate
