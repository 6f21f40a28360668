import ScoreWasm.Proofs.Wasm.Rules

/-!
# What checking knows of operands

Checking keeps one list of operands where the rules allow for many: an operand whose type is not known may
have any type, and in unreachable code there may be any operands below the known ones.  So what is known
stands for all lists of types that it allows, and a step of checking is right if it does to all of them at
once what a rule does to each: it fails only if the rule has nothing to offer for any of them, and what is
known after it allows just the lists that the rule leads to.
-/

namespace ScoreWasm.Wasm.Validate

open List

open ScoreWasm.StateT (bind_eq_ok discard_eq_ok modify_eq_ok pure_eq_ok)

/-- What is known of an operand allows for a type. -/
def Admits (o : Operand) (t : ValType) : Prop := ∀ u ∈ o, u = t

/-- What is known of some operands, the topmost first, allows for types. -/
inductive Covers (dead : Bool) : List Operand → List ValType → Prop where
  | nil : Covers dead [] []
  | unknown {ts : List ValType} : dead = true → Covers dead [] ts
  | cons {o : Operand} {t : ValType} {os : List Operand} {ts : List ValType} : Admits o t →
    Covers dead os ts → Covers dead (o :: os) (t :: ts)

/-- The stacks of checking inside a block, with the operands of the block apart from those below. -/
structure Inside where
  above : List Operand
  below : List Operand
  frame : Frame
  outer : List Frame
  height : below.length = frame.height
  numeric : ∀ t, some t ∈ above → t.isNumeric = true

namespace Inside

/-- The stacks of the checker. -/
def state (b : Inside) : Stacks := ⟨b.above ++ b.below, b.frame :: b.outer⟩

/-- The types that branches take along, from the innermost block on. -/
def labels (b : Inside) : List (List ValType) := (b.frame :: b.outer).map Frame.labelTypes

/-- The operands of the block may have the types, the topmost one first. -/
def Allows (b : Inside) (ts : List ValType) : Prop := Covers b.frame.dead b.above ts

/-- Two moments in one block. -/
structure Sibling (b b' : Inside) : Prop where
  below : b'.below = b.below
  frame : ∃ dead, b'.frame = { b.frame with dead := dead }
  outer : b'.outer = b.outer

theorem Sibling.refl (b : Inside) : b.Sibling b := ⟨rfl, ⟨_, rfl⟩, rfl⟩

theorem Sibling.trans {a b c : Inside} (h : a.Sibling b) (k : b.Sibling c) : a.Sibling c := by
  obtain ⟨d, hd⟩ := h.frame
  obtain ⟨e, he⟩ := k.frame
  refine ⟨k.below.trans h.below, ⟨e, ?_⟩, k.outer.trans h.outer⟩
  rw [he, hd]

theorem Sibling.labels {b b' : Inside} (h : b.Sibling b') : b'.labels = b.labels := by
  obtain ⟨d, hd⟩ := h.frame
  unfold Inside.labels
  rw [hd, h.outer]
  rfl

theorem exists_allowed (b : Inside) : ∃ ts, Numeric ts ∧ b.Allows ts := by
  obtain ⟨above, below, frame, outer, height, numeric⟩ := b
  induction above with
  | nil => exact ⟨[], nofun, .nil⟩
  | cons o os ih =>
    obtain ⟨ts, hts, hcovers⟩ := ih (fun t ht => numeric t (.tail _ ht))
    cases o with
    | none =>
      exact ⟨.i32 :: ts, forall_mem_cons.mpr ⟨rfl, hts⟩, .cons nofun hcovers⟩
    | some u =>
      have hu : Numeric (u :: ts) := forall_mem_cons.mpr ⟨numeric _ (.head _), hts⟩
      exact ⟨u :: ts, hu, .cons (fun v hv => (Option.some.inj hv).symm) hcovers⟩

theorem allows_nil {b : Inside} : b.Allows [] ↔ b.above = [] := by
  unfold Inside.Allows
  constructor
  · intro h
    cases hb : b.above with
    | nil => rfl
    | cons o os =>
      rw [hb] at h
      cases h
  · intro h
    rw [h]
    exact .nil

end Inside

variable {ctx : Context} {α β : Type}

/-! ### One operand -/

theorem admits_some {t u : ValType} : Admits (some t) u ↔ t = u := by
  unfold Admits
  simp

theorem covers_cons {dead : Bool} {o : Operand} {t : ValType} {os : List Operand}
    {ts : List ValType} : Covers dead (o :: os) (t :: ts) ↔ Admits o t ∧ Covers dead os ts := by
  constructor
  · intro h
    cases h with
    | cons ho hos => exact ⟨ho, hos⟩
  · rintro ⟨ho, hos⟩
    exact .cons ho hos

section Pop

variable {below : List Operand} {frame : Frame} {outer : List Frame} {height : below.length = frame.height}

theorem take_nil {numeric : ∀ t, some t ∈ ([] : List Operand) → t.isNumeric = true} :
    take ctx (Inside.mk [] below frame outer height numeric).state =
      (if frame.dead then (pure none : Check (Option Operand)) else ctx.fail .underflow)
        (Inside.mk [] below frame outer height numeric).state := by
  cases below with
  | nil => rfl
  | cons v vs =>
    have hlen : ((v :: vs).length == frame.height) = true := by simp [← height]
    show (if ((v :: vs).length == frame.height) = true then _ else _ : Check (Option Operand)) _ = _
    rw [if_pos hlen]

theorem take_cons {v : Operand} {above : List Operand} {numeric : ∀ t, some t ∈ v :: above → t.isNumeric = true}
    (hnum : ∀ t, some t ∈ above → t.isNumeric = true) :
    take ctx (Inside.mk (v :: above) below frame outer height numeric).state =
      .ok (some v, (Inside.mk above below frame outer height hnum).state) := by
  have hne : ((v :: (above ++ below)).length == frame.height) = false := by
    rw [beq_eq_false_iff_ne, ← height, length_cons, length_append]
    omega
  show (if ((v :: (above ++ below)).length == frame.height) = true then _ else _ : Check (Option Operand)) _ = _
  rw [hne]
  rfl

end Pop

theorem pop_of_unknown (expect : Operand) {s s' : Stacks} {v : Option Operand} (h : take ctx s = .ok (v, s'))
    (hv : v = none ∨ v = some none) : pop ctx expect s = .ok (expect, s') := by
  unfold pop
  rw [bind_eq_ok]
  refine ⟨_, _, h, ?_⟩
  rcases hv with rfl | rfl <;> rfl

theorem pop_of_known {expect : Operand} {s s' : Stacks} {u : ValType} (h : take ctx s = .ok (some (some u), s'))
    (hu : Admits expect u) : pop ctx expect s = .ok (some u, s') := by
  unfold pop
  rw [bind_eq_ok]
  refine ⟨_, _, h, ?_⟩
  cases expect with
  | none => rfl
  | some t =>
    cases admits_some.mp hu
    show (if (u == u) = true then _ else _ : Check Operand) _ = _
    rw [if_pos (by simp)]
    rfl

/-- Taking an operand narrows down what is allowed to the lists with such an operand on top. -/
theorem pop_exact (ctx : Context) (expect : Operand) (he : ∀ t, expect = some t → t.isNumeric = true) (b : Inside) :
    (∀ t ts, b.Allows (t :: ts) → Admits expect t → ∃ r s', pop ctx expect b.state = .ok (r, s')) ∧
    ∀ r s', pop ctx expect b.state = .ok (r, s') → ∃ b' : Inside, s' = b'.state ∧ b.Sibling b' ∧
      (∀ t, expect = some t → r = some t) ∧ (∀ t, r = some t → t.isNumeric = true) ∧
      ∀ t ts, b.Allows (t :: ts) ∧ Admits expect t ↔ b'.Allows ts ∧ Admits r t := by
  obtain ⟨above, below, frame, outer, height, numeric⟩ := b
  cases above with
  | nil =>
    have htake : take ctx (Inside.mk [] below frame outer height numeric).state = _ := take_nil
    cases hd : frame.dead with
    | false =>
      rw [hd] at htake
      refine ⟨?_, ?_⟩
      · intro t ts h
        cases h with
        | unknown h =>
          rw [hd] at h
          cases h
      · intro r s' h
        obtain ⟨v, h1, -⟩ := pop_ok h
        rw [htake] at h1
        cases h1
    | true =>
      rw [hd] at htake
      have hpop := pop_of_unknown expect htake (.inl rfl)
      refine ⟨fun t ts _ _ => ⟨_, _, hpop⟩, ?_⟩
      intro r s' h
      rw [hpop] at h
      cases h
      refine ⟨_, rfl, .refl _, fun t ht => ht, he, ?_⟩
      intro t ts
      unfold Inside.Allows
      simp only [hd]
      exact ⟨fun h => ⟨.unknown rfl, h.2⟩, fun h => ⟨.unknown rfl, h.2⟩⟩
  | cons v above =>
    have hnum : ∀ t, some t ∈ above → t.isNumeric = true := fun t ht => numeric t (.tail _ ht)
    have htake : take ctx (Inside.mk (v :: above) below frame outer height numeric).state = _ :=
      take_cons hnum
    have hsib : (Inside.mk (v :: above) below frame outer height numeric).Sibling
        (Inside.mk above below frame outer height hnum) := ⟨rfl, ⟨_, rfl⟩, rfl⟩
    cases v with
    | none =>
      have hpop := pop_of_unknown expect htake (.inr rfl)
      refine ⟨fun t ts _ _ => ⟨_, _, hpop⟩, ?_⟩
      intro r s' h
      rw [hpop] at h
      cases h
      refine ⟨_, rfl, hsib, fun t ht => ht, he, ?_⟩
      intro t ts
      unfold Inside.Allows
      rw [covers_cons]
      exact ⟨fun h => ⟨h.1.2, h.2⟩, fun h => ⟨⟨nofun, h.1⟩, h.2⟩⟩
    | some u =>
      refine ⟨?_, ?_⟩
      · intro t ts h ht
        unfold Inside.Allows at h
        rw [covers_cons, admits_some] at h
        rw [← h.1] at ht
        exact ⟨_, _, pop_of_known htake ht⟩
      · intro r s' h
        have hadmits : Admits expect u := by
          obtain ⟨v, h1, h2⟩ := pop_ok h
          rw [htake] at h1
          cases h1
          rcases h2 with ⟨-, h2 | h2⟩ | ⟨t, h2, -, h3⟩
          · cases h2
          · cases h2
          · cases h2
            rcases h3 with rfl | rfl
            · exact nofun
            · exact admits_some.mpr rfl
        rw [pop_of_known htake hadmits] at h
        cases h
        refine ⟨_, rfl, hsib, ?_, ?_, ?_⟩
        · rintro t rfl
          rw [admits_some.mp hadmits]
        · intro t ht
          cases ht
          exact numeric u (.head _)
        · intro t ts
          unfold Inside.Allows
          rw [covers_cons, admits_some]
          constructor
          · rintro ⟨⟨rfl, h⟩, -⟩
            exact ⟨h, rfl⟩
          · rintro ⟨h, rfl⟩
            exact ⟨⟨rfl, h⟩, hadmits⟩

/-- An operand that is put on the stack may have the types that are known of it. -/
theorem push_allows (o : Operand) (ho : ∀ t, o = some t → t.isNumeric = true) (b : Inside) :
    ∃ b' : Inside, (⟨o :: b.state.vals, b.state.frames⟩ : Stacks) = b'.state ∧ b.Sibling b' ∧
      ∀ ys, b'.Allows ys ↔ ∃ t ts, ys = t :: ts ∧ Admits o t ∧ b.Allows ts := by
  obtain ⟨above, below, frame, outer, height, numeric⟩ := b
  have hnum : ∀ t, some t ∈ o :: above → t.isNumeric = true := by
    intro t ht
    rcases mem_cons.mp ht with ht | ht
    · exact ho t ht.symm
    · exact numeric t ht
  refine ⟨⟨o :: above, below, frame, outer, height, hnum⟩, rfl, ⟨rfl, ⟨_, rfl⟩, rfl⟩, ?_⟩
  intro ys
  constructor
  · intro h
    cases h with
    | cons ht hts => exact ⟨_, _, rfl, ht, hts⟩
  · rintro ⟨t, ts, rfl, ht, hts⟩
    exact .cons ht hts

/-! ### Steps that follow a rule -/

/-- A step of checking inside blocks with some labels does what a rule does, where the rule relates the
types of the operands, the topmost one first, before and after it. -/
def Follows (labels : List (List ValType)) (c : Check α) (rule : List ValType → List ValType → Prop) : Prop :=
  ∀ b : Inside, b.labels = labels → (∀ xs ys, b.Allows xs → rule xs ys → ∃ a s', c b.state = .ok (a, s')) ∧
    ∀ a s', c b.state = .ok (a, s') → ∃ b' : Inside, s' = b'.state ∧ b.Sibling b' ∧
      (∀ xs ys, b.Allows xs → rule xs ys → b'.Allows ys) ∧
      ∀ ys, Numeric ys → b'.Allows ys → ∃ xs, Numeric xs ∧ b.Allows xs ∧ rule xs ys

/-- The rule of code that takes some operands and leaves others, the last one on top. -/
def Effect (ins outs : List ValType) (xs ys : List ValType) : Prop :=
  ∃ below, xs = ins.reverse ++ below ∧ ys = outs.reverse ++ below

theorem effect_push {outs xs ys : List ValType} : Effect [] outs xs ys ↔ ys = outs.reverse ++ xs := by
  simp [Effect]

theorem effect_pop {ins xs ys : List ValType} : Effect ins [] xs ys ↔ xs = ins.reverse ++ ys := by
  simp [Effect]

section Follows

variable {labels : List (List ValType)} {c : Check α}
  {rule rule' : List ValType → List ValType → Prop} {ins outs us : List ValType} {t : ValType}

namespace Follows

section

variable (h : Follows labels c rule)
include h

/-- One rule may stand for another one if the two agree on numeric types. -/
theorem imp (hto : ∀ xs ys, rule' xs ys → rule xs ys)
    (hfrom : ∀ xs ys, Numeric ys → rule xs ys → rule' xs ys) : Follows labels c rule' := by
  intro b hb
  refine ⟨fun xs ys hxs hrule => (h b hb).1 xs ys hxs (hto xs ys hrule), ?_⟩
  intro a s' hc
  obtain ⟨b', hs', hsib, hallows, hexplains⟩ := (h b hb).2 a s' hc
  refine ⟨b', hs', hsib, fun xs ys hxs hrule => hallows xs ys hxs (hto xs ys hrule), ?_⟩
  intro ys hnum hys
  obtain ⟨xs, hxs, hbxs, hrule⟩ := hexplains ys hnum hys
  exact ⟨xs, hxs, hbxs, hfrom xs ys hnum hrule⟩

theorem congr (hrule : ∀ xs ys, rule xs ys ↔ rule' xs ys) : Follows labels c rule' :=
  h.imp (fun xs ys => (hrule xs ys).mpr) (fun xs ys _ => (hrule xs ys).mp)

/-- One step after another follows one rule after the other. -/
theorem bind {k : α → Check β} {c' : Check β} (h' : Follows labels c' rule')
    (hk : ∀ s a s', c s = .ok (a, s') → k a = c') :
    Follows labels (c >>= k) (fun xs zs => ∃ ys, rule xs ys ∧ rule' ys zs) := by
  intro b hb
  refine ⟨?_, ?_⟩
  · rintro xs zs hxs ⟨ys, hrule, hrule'⟩
    obtain ⟨a, s1, h1⟩ := (h b hb).1 xs ys hxs hrule
    obtain ⟨b1, rfl, hsib, hto, -⟩ := (h b hb).2 a s1 h1
    obtain ⟨a2, s2, h2⟩ := (h' b1 (hsib.labels.trans hb)).1 ys zs (hto xs ys hxs hrule) hrule'
    exact ⟨a2, s2, bind_eq_ok.mpr ⟨a, _, h1, by rw [hk _ _ _ h1]; exact h2⟩⟩
  · intro a2 s2 h2
    obtain ⟨a, s1, h1, h2⟩ := bind_eq_ok.mp h2
    rw [hk _ _ _ h1] at h2
    obtain ⟨b1, rfl, hsib, hto, hfrom⟩ := (h b hb).2 a s1 h1
    obtain ⟨b2, rfl, hsib', hto', hfrom'⟩ := (h' b1 (hsib.labels.trans hb)).2 a2 s2 h2
    refine ⟨b2, rfl, hsib.trans hsib', ?_, ?_⟩
    · rintro xs zs hxs ⟨ys, hrule, hrule'⟩
      exact hto' ys zs (hto xs ys hxs hrule) hrule'
    · intro zs hnum hzs
      obtain ⟨ys, hnum, hys, hrule'⟩ := hfrom' zs hnum hzs
      obtain ⟨xs, hnum, hxs, hrule⟩ := hfrom ys hnum hys
      exact ⟨xs, hnum, hxs, ys, hrule, hrule'⟩

end

theorem pure (a : α) : Follows labels (pure a) (fun xs ys => xs = ys) := by
  intro b hb
  refine ⟨fun xs ys _ _ => ⟨_, _, rfl⟩, ?_⟩
  intro a' s' h
  obtain ⟨-, rfl⟩ := pure_eq_ok.mp h
  refine ⟨b, rfl, .refl b, ?_, ?_⟩
  · rintro xs ys hxs rfl
    exact hxs
  · intro ys hnum hys
    exact ⟨ys, hnum, hys, rfl⟩

/-- What a step gives back is of no matter. -/
theorem last (h : Follows labels c rule) (a : β) : Follows labels (c >>= fun _ => Pure.pure a) rule :=
  (h.bind (pure a) (fun _ _ _ _ => rfl)).congr (by simp)

theorem discard (h : Follows labels c rule) : Follows labels (discard c) rule := by
  intro b hb
  refine ⟨?_, ?_⟩
  · intro xs ys hxs hrule
    obtain ⟨a, s', hc⟩ := (h b hb).1 xs ys hxs hrule
    exact ⟨(), s', discard_eq_ok.mpr ⟨a, hc⟩⟩
  · intro a s' hc
    obtain ⟨a', hc⟩ := discard_eq_ok.mp hc
    exact (h b hb).2 a' s' hc

/-- A step that always fails follows a rule that offers nothing. -/
theorem never (hc : ∀ b : Inside, b.labels = labels → ∀ a s', c b.state ≠ .ok (a, s'))
    (hrule : ∀ xs ys, ¬rule xs ys) : Follows labels c rule := by
  intro b hb
  refine ⟨?_, ?_⟩
  · intro xs ys _ h
    exact absurd h (hrule xs ys)
  · intro a s' h
    exact absurd h (hc b hb a s')

end Follows

theorem follows_pop (ht : t.isNumeric = true) : Follows labels (pop ctx (some t)) (Effect [t] []) := by
  intro b _
  obtain ⟨haccepts, hspec⟩ := pop_exact ctx (some t) (by rintro u ⟨⟩; exact ht) b
  refine ⟨?_, ?_⟩
  · intro xs ys hxs hrule
    rw [effect_pop.mp hrule] at hxs
    exact haccepts t _ hxs (admits_some.mpr rfl)
  · intro r s' h
    obtain ⟨b', rfl, hsib, hr, -, hiff⟩ := hspec r s' h
    cases hr t rfl
    refine ⟨b', rfl, hsib, ?_, ?_⟩
    · intro xs ys hxs hrule
      rw [effect_pop.mp hrule] at hxs
      exact ((hiff t _).mp ⟨hxs, admits_some.mpr rfl⟩).1
    · intro ys hnum hys
      have hts : Numeric (t :: ys) := forall_mem_cons.mpr ⟨ht, hnum⟩
      exact ⟨t :: ys, hts, ((hiff t ys).mpr ⟨hys, admits_some.mpr rfl⟩).1, effect_pop.mpr rfl⟩

theorem effect_comp {ins' outs' : List ValType} (xs zs : List ValType) :
    (∃ ys, Effect ins [] xs ys ∧ Effect ins' outs' ys zs) ↔ Effect (ins' ++ ins) outs' xs zs := by
  simp only [effect_pop]
  constructor
  · rintro ⟨ys, rfl, below, rfl, rfl⟩
    exact ⟨below, by simp, rfl⟩
  · rintro ⟨below, rfl, rfl⟩
    exact ⟨ins'.reverse ++ below, by simp, below, rfl, rfl⟩

theorem pop_type {s s' : Stacks} {r : Operand} (h : pop ctx (some t) s = .ok (r, s')) : r = some t := by
  obtain ⟨v, -, ⟨rfl, -⟩ | ⟨u, -, rfl, he | he⟩⟩ := pop_ok h
  · rfl
  · cases he
  · exact he.symm

/-- Taking operands gives back their types. -/
theorem popMany_types {s s' : Stacks} {rs : List Operand} (h : popMany ctx us s = .ok (rs, s')) :
    rs = us.map some := by
  induction us generalizing s s' rs with
  | nil =>
    obtain ⟨rfl, -⟩ := pure_eq_ok.mp h
    rfl
  | cons u us ih =>
    unfold popMany at h
    simp only [bind_eq_ok, pure_eq_ok] at h
    obtain ⟨after, s1, h1, v, s2, h2, rfl, rfl⟩ := h
    rw [ih h1, pop_type h2]
    rfl

theorem follows_popMany (hus : Numeric us) : Follows labels (popMany ctx us) (Effect us []) := by
  induction us with
  | nil =>
    refine (Follows.pure _).congr ?_
    simp [effect_pop]
  | cons u us ih =>
    have hu : u.isNumeric = true := hus u (.head _)
    have hrest := ih (fun t ht => hus t (.tail _ ht))
    have hlast : Follows labels (pop ctx (some u) >>= fun v => Pure.pure (v :: us.map some)) (Effect [u] []) := by
      refine ((follows_pop hu).bind (Follows.pure (some u :: us.map some)) ?_).congr (by simp)
      intro s a s' h
      rw [pop_type h]
    refine (hrest.bind hlast ?_).congr (fun xs ys => effect_comp xs ys)
    intro s a s' h
    rw [popMany_types h]

theorem follows_push (ht : t.isNumeric = true) : Follows labels (push (some t)) (Effect [] [t]) := by
  intro b _
  refine ⟨fun xs ys _ _ => ⟨_, _, rfl⟩, ?_⟩
  intro a s' h
  obtain ⟨b', hb', hsib, hiff⟩ := push_allows (some t) (by rintro u ⟨⟩; exact ht) b
  refine ⟨b', (push_ok h).trans hb', hsib, ?_, ?_⟩
  · intro xs ys hxs hrule
    rw [effect_push.mp hrule]
    exact (hiff _).mpr ⟨t, xs, rfl, admits_some.mpr rfl, hxs⟩
  · intro ys hnum hys
    obtain ⟨u, ts, rfl, hu, hts⟩ := (hiff ys).mp hys
    cases admits_some.mp hu
    exact ⟨ts, fun v hv => hnum v (.tail _ hv), hts, effect_push.mpr rfl⟩

theorem pushTypes_cons (t : ValType) (us : List ValType) :
    pushTypes (t :: us) = push (some t) >>= fun _ => pushTypes us := by
  funext s
  show (Except.ok ((), _) : Except CompileError (Unit × Stacks)) = Except.ok ((), _)
  simp

theorem follows_pushTypes (hus : Numeric us) : Follows labels (pushTypes us) (Effect [] us) := by
  induction us with
  | nil => exact (Follows.pure ()).congr (by simp [effect_push, eq_comm])
  | cons t us ih =>
    have ht : t.isNumeric = true := hus t (.head _)
    have hrest := ih (fun u hu => hus u (.tail _ hu))
    rw [pushTypes_cons]
    refine ((follows_push ht).bind hrest (fun _ _ _ _ => rfl)).congr ?_
    intro xs zs
    simp only [effect_push, exists_eq_left, reverse_cons, reverse_nil, nil_append, cons_append, append_assoc]

theorem effect_join (xs zs : List ValType) :
    (∃ ys, Effect ins [] xs ys ∧ Effect [] outs ys zs) ↔ Effect ins outs xs zs := effect_comp xs zs

theorem follows_applyType {t : FuncType} (hparams : Numeric t.params)
    (hresults : Numeric t.results) : Follows labels (applyType ctx t) (Effect t.params t.results) :=
  ((follows_popMany hparams).discard.bind (follows_pushTypes hresults) (fun _ _ _ _ => rfl)).congr effect_join

theorem Follows.condition (h : Follows labels c rule) : Follows labels (do Functor.discard (pop ctx (some .i32)); c)
    (fun xs ys => ∃ mid, Effect [.i32] [] xs mid ∧ rule mid ys) :=
  (follows_pop rfl).discard.bind h (fun _ _ _ _ => rfl)

/-- Marking the rest of a block as unreachable makes all operands possible. -/
theorem follows_setDead : Follows labels setDead (fun _ _ => True) := by
  intro b _
  refine ⟨fun xs ys _ _ => ⟨_, _, rfl⟩, ?_⟩
  intro a s' h
  have hdrop : (b.above ++ b.below).drop ((b.above ++ b.below).length - b.frame.height) = b.below := by
    rw [← b.height, length_append, Nat.add_sub_cancel, drop_left]
  refine ⟨⟨[], b.below, { b.frame with dead := true }, b.outer, b.height, nofun⟩, ?_, ⟨rfl, ⟨_, rfl⟩, rfl⟩, ?_, ?_⟩
  · rw [modify_eq_ok.mp h]
    show (⟨(b.above ++ b.below).drop ((b.above ++ b.below).length - b.frame.height), _⟩ : Stacks) = _
    rw [hdrop]
    rfl
  · intro xs ys _ _
    exact .unknown rfl
  · intro ys _ _
    obtain ⟨xs, hxs, hallows⟩ := b.exists_allowed
    exact ⟨xs, hxs, hallows, trivial⟩

end Follows

end ScoreWasm.Wasm.Validate
