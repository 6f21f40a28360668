import ScoreWasm.Proofs.Binary.Opcodes
import ScoreWasm.Proofs.Wasm.Principal

/-!
# Instructions and their rules

Checking an instruction that does not enclose others follows its rule.  What the rule looks up is looked up
by checking as well; the rest is taking and leaving operands, put together from single operands.
-/

namespace ScoreWasm.Wasm

open Validate List ScoreWasm.StateT

variable {ctx : Context} {α β γ : Type} {labels : List (List ValType)} {ts us : List ValType}
  {reason : Invalid} {x align d : Int} {a : α}

/-! ### Looking things up -/

theorem nth?_eq {l : List α} {i : Int} (hi : 0 ≤ i) : nth? l i = elementAt? l i := by
  obtain ⟨n, rfl⟩ := Int.eq_ofNat_of_zero_le hi
  exact (elementAt?_ofNat l n).symm

theorem mem_of_nth? {l : List α} (h : nth? l x = some a) : a ∈ l := by
  cases x with
  | ofNat n => exact mem_of_getElem? h
  | negSucc n => cases h

namespace Validate

variable {i l f : Int} {ls : List Int} {types : Option (List ValType)} {t : FuncType}

theorem elementOr_some {l : List α} {other : Check α} (h : elementAt? l i = some a) : elementOr l i other = pure a := by
  unfold elementOr
  rw [h]

theorem bind_ne_ok {c : Check α} {k : α → Check β} {s : Stacks} (h : ∀ a s', c s ≠ .ok (a, s'))
    (b : β) (s' : Stacks) : (c >>= k) s ≠ .ok (b, s') := by
  intro hok
  obtain ⟨a, t, ha, -⟩ := bind_eq_ok.mp hok
  exact h a t ha

theorem labelTypes_inside {b : Inside} (hl : 0 ≤ l) (ts : List ValType) (s' : Stacks) :
    labelTypes ctx l b.state = .ok (ts, s') ↔ nth? b.labels l = some ts ∧ s' = b.state := by
  have hnth : nth? b.labels l = (elementAt? b.state.frames l).map Frame.labelTypes := by
    obtain ⟨n, rfl⟩ := Int.eq_ofNat_of_zero_le hl
    rw [elementAt?_ofNat]
    exact getElem?_map
  rw [labelTypes_eq_ok, hnth, Option.map_eq_some_iff]
  constructor
  · rintro ⟨f, hf, rfl, rfl⟩
    exact ⟨⟨f, hf, rfl⟩, rfl⟩
  · rintro ⟨⟨f, hf, rfl⟩, rfl⟩
    exact ⟨f, hf, rfl, rfl⟩

namespace Follows

variable {rule : List ValType → List ValType → Prop} {k : List ValType → Check β}

theorem label (hl : 0 ≤ l) (h : nth? labels l = some ts) (hk : Follows labels (k ts) rule) :
    Follows labels (labelTypes ctx l >>= k) rule := by
  intro b hb
  have heq : (labelTypes ctx l >>= k) b.state = k ts b.state := by
    have hlabel : labelTypes ctx l b.state = .ok (ts, b.state) :=
      (labelTypes_inside hl ts b.state).mpr ⟨by rw [hb]; exact h, rfl⟩
    show (labelTypes ctx l b.state >>= fun p => k p.1 p.2) = _
    rw [hlabel]
    rfl
  rw [heq]
  exact hk b hb

theorem noLabel (hl : 0 ≤ l) (h : nth? labels l = none) (hrule : ∀ xs ys, ¬rule xs ys) :
    Follows labels (labelTypes ctx l >>= k) rule := by
  refine never ?_ hrule
  intro b hb
  refine bind_ne_ok ?_
  intro ts s' hok
  have := ((labelTypes_inside hl ts s').mp hok).1
  rw [hb, h] at this
  cases this

theorem fail {k : α → Check β} (hrule : ∀ xs ys, ¬rule xs ys) : Follows labels (ctx.fail reason >>= k) rule :=
  never (fun _ _ => bind_ne_ok fun _ _ => fail_eq_ok.mp) hrule

/-- Something is looked up that the rule looks up as well. -/
theorem element {l : List γ} {k : γ → Check β} (hx : 0 ≤ x)
    (hsome : ∀ a, nth? l x = some a → Follows labels (k a) rule) (hnone : nth? l x = none → ∀ xs ys, ¬rule xs ys) :
    Follows labels (elementOr l x (ctx.fail reason) >>= k) rule := by
  cases h : nth? l x with
  | none =>
    refine never (fun b _ => bind_ne_ok fun a s' hok => ?_) (hnone h)
    have := (elementOr_eq_ok.mp hok).1
    rw [← nth?_eq hx, h] at this
    cases this
  | some a =>
    have hk := hsome a h
    rw [nth?_eq hx] at h
    rw [elementOr_some h, pure_bind]
    exact hk

theorem memory {k : Unit → Check β} (hsome : ctx.module.memoryLimits ≠ [] → Follows labels (k ()) rule)
    (hnone : ctx.module.memoryLimits = [] → ∀ xs ys, ¬rule xs ys) : Follows labels (needMemory ctx >>= k) rule := by
  unfold needMemory
  by_cases h : ctx.module.memoryLimits = []
  · rw [if_pos (by simpa using h)]
    exact fail (hnone h)
  · rw [if_neg (by simpa using h), pure_bind]
    exact hsome h

/-- There is a memory, and what is accessed is aligned in it. -/
theorem access {k : Unit → Check β} {size : Nat} (hsize : size ≠ 0) (halign : 0 ≤ align)
    (hyes : ctx.module.memoryLimits ≠ [] → Aligned align size → Follows labels (k ()) rule)
    (hno : ¬(ctx.module.memoryLimits ≠ [] ∧ Aligned align size) → ∀ xs ys, ¬rule xs ys) :
    Follows labels (do needMemory ctx; needAlignment ctx size align >>= k) rule := by
  refine memory (fun hm => ?_) (fun hm => hno fun h => h.1 hm)
  obtain ⟨e, rfl⟩ := Int.eq_ofNat_of_zero_le halign
  have hiff : Aligned e size ↔ ¬size.log2 < e := by
    rw [Nat.not_lt, Nat.le_log2 hsize]
    constructor
    · rintro ⟨e', he, h⟩
      rwa [Int.ofNat_inj.mp he]
    · intro h
      exact ⟨e, rfl, h⟩
  show Follows labels ((if size.log2 < e then ctx.fail .alignment else Pure.pure () : Check Unit) >>= k) rule
  by_cases h : size.log2 < e
  · rw [if_pos h]
    exact fail (hno (fun ha => hiff.mp ha.2 h))
  · rw [if_neg h, pure_bind]
    exact hyes hm (hiff.mpr h)

end Follows

/-! ### Instructions -/

/-- The rule of an instruction for all operands of a block, the topmost one first. -/
def Rule (ctx : Context) (labels : List (List ValType)) (i : Instr) (xs ys : List ValType) : Prop :=
  ∃ ins outs below, FlatType ctx labels i ins outs ∧ xs = (below ++ ins).reverse ∧ ys = (below ++ outs).reverse

section Rule

variable {i : Instr} {ins outs : List ValType}

/-- Whether an instruction passes control on with operands that its immediates tell. -/
def isSteady : Instr → Bool
  | .unreachable _ | .br _ | .brTable _ _ | .ret | .drop | .select _ => false
  | _ => true

theorem FlatType.unique {a b : List ValType} (hi : isSteady i = true)
    (h : FlatType ctx labels i ins outs) (h' : FlatType ctx labels i a b) : a = ins ∧ b = outs := by
  cases h <;> cases h' <;> simp_all [isSteady]

theorem rule_of_effect (h : FlatType ctx labels i ins outs) (hi : isSteady i = true)
    (xs ys : List ValType) : Effect ins outs xs ys ↔ Rule ctx labels i xs ys := by
  constructor
  · rintro ⟨below, rfl, rfl⟩
    exact ⟨ins, outs, below.reverse, h, by simp, by simp⟩
  · rintro ⟨a, b, below, hab, rfl, rfl⟩
    obtain ⟨rfl, rfl⟩ := FlatType.unique hi h hab
    exact ⟨below.reverse, by simp, by simp⟩

theorem Follows.rule {c : Check β} (h : Follows labels c (Effect ins outs)) (hi : FlatType ctx labels i ins outs)
    (hsteady : isSteady i = true) : Follows labels (do let _ ← c; return Note.empty) (Rule ctx labels i) :=
  (h.last Note.empty).congr (rule_of_effect hi hsteady)

/-- An instruction that never falls through takes what it needs and leaves anything. -/
theorem follows_final (hus : Numeric us)
    (hto : ∀ a b, FlatType ctx labels i a b → ∃ below, a = below ++ us)
    (hfrom : ∀ below outs, Numeric outs → FlatType ctx labels i (below ++ us) outs) :
    Follows labels (do discard (popMany ctx us); setDead; return Note.empty) (Rule ctx labels i) := by
  have hpop : Follows labels (popMany ctx us) (Effect us []) := follows_popMany hus
  refine (hpop.discard.bind (follows_setDead.last Note.empty) (fun _ _ _ _ => rfl)).imp ?_ ?_
  · rintro xs ys ⟨a, b, below, hab, rfl, rfl⟩
    obtain ⟨below', rfl⟩ := hto a b hab
    exact ⟨(below ++ below').reverse, effect_pop.mpr (by simp), trivial⟩
  · rintro xs ys hys ⟨mid, hmid, -⟩
    rw [effect_pop.mp hmid]
    refine ⟨mid.reverse ++ us, ys.reverse, [], hfrom _ _ ?_, by simp, by simp⟩
    intro t ht
    exact hys t (mem_reverse.mp ht)

/-- What the rule of an instruction looks up is there. -/
def Finds (ctx : Context) (labels : List (List ValType)) : Instr → Prop
  | .br l | .brIf l | .brTable _ l => nth? labels l ≠ none
  | .call f => ctx.module.funcType? f ≠ none
  | .callIndirect type table => nth? ctx.module.tableLimits table ≠ none ∧ nth? ctx.module.types type ≠ none
  | .select (some ts) => ts.length = 1
  | .localGet x | .localSet x | .localTee x => nth? ctx.locals x ≠ none
  | .globalGet x => nth? ctx.module.globalTypes x ≠ none
  | .globalSet x => ∃ g, nth? ctx.module.globalTypes x = some g ∧ g.isMutable = true
  | .load op arg => ctx.module.memoryLimits ≠ [] ∧ Aligned arg.align op.size
  | .store op arg => ctx.module.memoryLimits ≠ [] ∧ Aligned arg.align op.size
  | .memorySize | .memoryGrow => ctx.module.memoryLimits ≠ []
  | _ => True

theorem not_rule (h : ¬Finds ctx labels i) (xs ys : List ValType) : ¬Rule ctx labels i xs ys := by
  rintro ⟨a, b, below, hab, -, -⟩
  refine h ?_
  cases hab <;> simp_all [Finds]

end Rule

section

variable (hlabels : ∀ ts ∈ labels, Numeric ts)
include hlabels

theorem follows_br (hl : 0 ≤ l) : Follows labels (step ctx (.br l)) (Rule ctx labels (.br l)) := by
  cases h : nth? labels l with
  | none =>
    exact .noLabel hl h (not_rule fun hne => hne h)
  | some ts =>
    refine .label hl h (follows_final (hlabels ts (mem_of_nth? h)) ?_ ?_)
    · intro a b hab
      cases hab with
      | br h' =>
        rw [h] at h'
        cases h'
        exact ⟨_, rfl⟩
    · intro below outs houts
      exact .br h houts

theorem follows_brIf (hl : 0 ≤ l) : Follows labels (step ctx (.brIf l)) (Rule ctx labels (.brIf l)) := by
  cases h : nth? labels l with
  | none =>
    refine (Follows.condition (.noLabel hl h (fun _ _ => id))).congr ?_
    intro xs ys
    simp only [and_false, exists_false, false_iff]
    exact not_rule (i := .brIf l) (fun hne => hne h) xs ys
  | some ts =>
    have hts := hlabels ts (mem_of_nth? h)
    have hagain : Follows labels (do pushMany (← popMany ctx ts); return Note.empty) (Effect ts ts) := by
      refine ((follows_popMany hts).bind ((follows_pushTypes hts).last Note.empty) ?_).congr effect_join
      intro s rs s' hrs
      rw [popMany_types hrs]
      rfl
    refine (Follows.condition (.label hl h hagain)).congr ?_
    intro xs ys
    rw [effect_comp]
    exact rule_of_effect (.brIf h) rfl xs ys

end

/-- The labels of a branch table all find their types on top of the operands, which stay. -/
theorem follows_checkTable (ctx : Context) (arity : Nat) (hlabels : ∀ ts ∈ labels, Numeric ts)
    (hls : ∀ l ∈ ls, 0 ≤ l) : Follows labels (checkTable ctx arity ls) (fun xs ys => xs = ys ∧
      ∀ l ∈ ls, ∃ us below, nth? labels l = some us ∧ us.length = arity ∧ xs = us.reverse ++ below) := by
  induction ls with
  | nil => exact (Follows.pure ()).congr (by simp)
  | cons l ls ih =>
    have hl : 0 ≤ l := hls l (.head _)
    have hrest := ih (fun l hl => hls l (.tail _ hl))
    cases h : nth? labels l with
    | none =>
      refine .noLabel hl h ?_
      rintro xs ys ⟨-, hall⟩
      obtain ⟨us, below, hus, -⟩ := hall l (.head _)
      rw [h] at hus
      cases hus
    | some ts =>
      refine .label hl h ?_
      by_cases harity : ts.length = arity
      · have hts := hlabels ts (mem_of_nth? h)
        rw [if_neg (by simpa using harity)]
        refine ((follows_popMany hts).bind ((follows_pushTypes hts).bind hrest (fun _ _ _ _ => rfl)) ?_).congr ?_
        · intro s rs s' hrs
          rw [popMany_types hrs]
          rfl
        · intro xs ys
          simp only [effect_pop, effect_push, exists_eq_left, forall_mem_cons]
          constructor
          · rintro ⟨mid, rfl, rfl, hall⟩
            exact ⟨rfl, ⟨ts, mid, h, harity, rfl⟩, hall⟩
          · rintro ⟨rfl, ⟨us, mid, hus, -, rfl⟩, hall⟩
            rw [h] at hus
            cases hus
            exact ⟨mid, rfl, rfl, hall⟩
      · rw [if_pos (by simpa using harity)]
        refine .fail ?_
        rintro xs ys ⟨-, hall⟩
        obtain ⟨us, below, hus, hlen, -⟩ := hall l (.head _)
        rw [h] at hus
        cases hus
        exact harity hlen

theorem follows_brTable (hlabels : ∀ ts ∈ labels, Numeric ts) (hls : ∀ l ∈ ls ++ [d], 0 ≤ l) :
    Follows labels (step ctx (.brTable ls d)) (Rule ctx labels (.brTable ls d)) := by
  have hd : 0 ≤ d := hls d (by simp)
  cases h : nth? labels d with
  | none =>
    refine (Follows.condition (.noLabel hd h (fun _ _ => id))).congr ?_
    intro xs ys
    simp only [and_false, exists_false, false_iff]
    exact not_rule (i := .brTable ls d) (fun hne => hne h) xs ys
  | some ts =>
    have hts := hlabels ts (mem_of_nth? h)
    have htable := follows_checkTable ctx ts.length hlabels (fun l hl => hls l (mem_append_left _ hl))
    have hpop : Follows labels (popMany ctx ts) (Effect ts []) := follows_popMany hts
    have hfinal := hpop.discard.bind (follows_setDead.last Note.empty) (fun _ _ _ _ => rfl)
    have hall := htable.bind hfinal (fun _ _ _ _ => rfl)
    refine (Follows.condition (.label hd h hall)).imp ?_ ?_
    · rintro xs ys ⟨a, b, below, hab, rfl, rfl⟩
      cases hab with
      | @brTable _ _ us below' outs h' houts =>
        cases h.symm.trans (h' d (by simp))
        refine ⟨(below ++ below' ++ ts).reverse, effect_pop.mpr (by simp), _, ⟨rfl, ?_⟩,
          (below ++ below').reverse, effect_pop.mpr (by simp), trivial⟩
        intro l hl
        exact ⟨ts, (below ++ below').reverse, h' l (mem_append_left _ hl), rfl, by simp⟩
    · rintro xs ys hys ⟨mid, hmid, _, ⟨rfl, htypes⟩, low, hlow, -⟩
      rw [effect_pop] at hmid hlow
      have heq : ∀ l ∈ ls ++ [d], nth? labels l = some ts := by
        intro l hl
        rcases mem_append.mp hl with hl | hl
        · obtain ⟨us, below, hus, hlen, hmid'⟩ := htypes l hl
          have hrev : us.reverse = ts.reverse :=
            (append_inj (hmid'.symm.trans hlow) (by simp [hlen])).1
          rw [hus, reverse_inj.mp hrev]
        · rw [mem_singleton.mp hl, h]
      refine ⟨low.reverse ++ ts ++ [.i32], ys.reverse, [], .brTable heq ?_, ?_, by simp⟩
      · intro t ht
        exact hys t (mem_reverse.mp ht)
      · rw [hmid, hlow]
        simp

theorem namedType_numeric {os : List Operand} {t : ValType} (ht : t.isNumeric = true)
    (hos : ∀ o ∈ os, Admits o t) : (namedType os).isNumeric = true := by
  unfold namedType
  cases h : (os.filterMap id).find? (fun t => !t.name.isEmpty) with
  | none => rfl
  | some u =>
    have hmem := mem_of_find?_eq_some h
    obtain ⟨o, ho, hu⟩ := mem_filterMap.mp hmem
    rw [hos o ho u hu]
    exact ht

/-- A `select` takes a condition and two operands of a type that it may name, and leaves one of them. -/
theorem follows_checkSelect {expect : Operand} (hexpect : selectType types = some expect)
    (hnum : ∀ t, expect = some t → t.isNumeric = true) :
    Follows labels (checkSelect ctx types) (fun xs ys => ∃ t below, t.isNumeric = true ∧
      Admits expect t ∧ xs = .i32 :: t :: t :: below ∧ ys = t :: below) := by
  intro b hb
  have hcond := pop_exact ctx (some .i32) (by rintro t ⟨⟩; rfl) b
  refine ⟨?_, ?_⟩
  · rintro xs ys hxs ⟨t, below, ht, he, rfl, rfl⟩
    obtain ⟨r, s1, h1⟩ := hcond.1 _ _ hxs (admits_some.mpr rfl)
    obtain ⟨b1, rfl, -, -, -, hiff1⟩ := hcond.2 r s1 h1
    have hb1 := ((hiff1 _ _).mp ⟨hxs, admits_some.mpr rfl⟩).1
    obtain ⟨first, s2, h2⟩ := (pop_exact ctx expect hnum b1).1 _ _ hb1 he
    obtain ⟨b2, rfl, -, -, hfirst, hiff2⟩ := (pop_exact ctx expect hnum b1).2 _ _ h2
    obtain ⟨hb2, hadmits⟩ := (hiff2 _ _).mp ⟨hb1, he⟩
    obtain ⟨second, s3, h3⟩ := (pop_exact ctx first hfirst b2).1 _ _ hb2 hadmits
    obtain ⟨b3, rfl, -, -, -, hiff3⟩ := (pop_exact ctx first hfirst b2).2 _ _ h3
    have hsecond := ((hiff3 _ _).mp ⟨hb2, hadmits⟩).2
    refine ⟨_, _, checkSelect_ok.mpr ⟨r, _, expect, first, _, second, _, h1, hexpect, h2, h3,
      namedType_numeric ht ?_, rfl, rfl⟩⟩
    intro o ho
    simp only [mem_cons, not_mem_nil, or_false] at ho
    rcases ho with rfl | rfl | rfl
    · exact hadmits
    · exact hsecond
    · exact he
  · intro note s' h
    obtain ⟨r, s1, expect', first, s2, second, s3, h1, he, h2, h3, -, -, rfl⟩ := checkSelect_ok.mp h
    cases he.symm.trans hexpect
    obtain ⟨b1, rfl, hsib1, -, -, hiff1⟩ := hcond.2 r s1 h1
    obtain ⟨b2, rfl, hsib2, -, hfirst, hiff2⟩ := (pop_exact ctx expect hnum b1).2 _ _ h2
    obtain ⟨b3, rfl, hsib3, hfound, hsecond, hiff3⟩ := (pop_exact ctx first hfirst b2).2 _ _ h3
    have hboth : ∀ t, Admits (first <|> second) t ↔ Admits first t ∧ Admits second t := by
      intro t
      cases first with
      | none => exact ⟨fun h => ⟨nofun, h⟩, fun h => h.2⟩
      | some u =>
        rw [hfound u rfl]
        exact ⟨fun h => ⟨h, h⟩, fun h => h.1⟩
    have hnumeric : ∀ t, (first <|> second) = some t → t.isNumeric = true := by
      cases first with
      | none => exact hsecond
      | some u => exact hfirst
    obtain ⟨b4, hb4, hsib4, hiff4⟩ := push_allows (first <|> second) hnumeric b3
    refine ⟨b4, hb4, ((hsib1.trans hsib2).trans hsib3).trans hsib4, ?_, ?_⟩
    · rintro xs ys hxs ⟨t, below, ht, he, rfl, rfl⟩
      have hb1 := ((hiff1 _ _).mp ⟨hxs, admits_some.mpr rfl⟩).1
      obtain ⟨hb2, hadmits⟩ := (hiff2 _ _).mp ⟨hb1, he⟩
      obtain ⟨hb3, hadmits'⟩ := (hiff3 _ _).mp ⟨hb2, hadmits⟩
      exact (hiff4 _).mpr ⟨t, below, rfl, (hboth t).mpr ⟨hadmits, hadmits'⟩, hb3⟩
    · intro ys hys hallows
      obtain ⟨t, below, rfl, hadmits, hb3⟩ := (hiff4 ys).mp hallows
      obtain ⟨hadmits1, hadmits2⟩ := (hboth t).mp hadmits
      obtain ⟨hb2, -⟩ := (hiff3 _ _).mpr ⟨hb3, hadmits2⟩
      obtain ⟨hb1, he⟩ := (hiff2 _ _).mpr ⟨hb2, hadmits1⟩
      have ht : t.isNumeric = true := hys t (.head _)
      have htop : Numeric (.i32 :: t :: t :: below) := forall_mem_cons.mpr ⟨rfl, forall_mem_cons.mpr ⟨ht, hys⟩⟩
      refine ⟨.i32 :: t :: t :: below, htop, ?_, t, below, ht, he, rfl, rfl⟩
      have hr : r = some .i32 := pop_type h1
      exact ((hiff1 _ _).mpr ⟨hb1, by rw [hr]; exact admits_some.mpr rfl⟩).1

theorem follows_select (hnum : ∀ ts ∈ types, Numeric ts) (hne : types ≠ some []) :
    Follows labels (step ctx (.select types)) (Rule ctx labels (.select types)) := by
  show Follows labels (checkSelect ctx types) _
  cases types with
  | none =>
    have hexpect : selectType none = some none := rfl
    refine (follows_checkSelect hexpect nofun).congr ?_
    intro xs ys
    constructor
    · rintro ⟨t, below, ht, -, rfl, rfl⟩
      exact ⟨_, _, below.reverse, .select ht, by simp, by simp⟩
    · rintro ⟨a, b, below, hab, rfl, rfl⟩
      cases hab with
      | @select t ht => exact ⟨t, below.reverse, ht, nofun, by simp, by simp⟩
  | some ts =>
    cases ts with
    | nil => exact absurd rfl hne
    | cons u us =>
      cases us with
      | nil =>
        have hu : u.isNumeric = true := hnum [u] rfl u (.head _)
        have hexpect : selectType (some [u]) = some (some u) := rfl
        refine (follows_checkSelect hexpect (by rintro t ⟨⟩; exact hu)).congr ?_
        intro xs ys
        constructor
        · rintro ⟨t, below, ht, he, rfl, rfl⟩
          cases admits_some.mp he
          exact ⟨_, _, below.reverse, .selectTyped ht, by simp, by simp⟩
        · rintro ⟨a, b, below, hab, rfl, rfl⟩
          cases hab with
          | selectTyped ht => exact ⟨u, below.reverse, ht, admits_some.mpr rfl, by simp, by simp⟩
      | cons v vs =>
        refine .never ?_ (not_rule (by simp [Finds]))
        intro b _ a s' hok
        obtain ⟨_, _, expect, _, _, _, _, -, he, -⟩ := checkSelect_ok.mp hok
        cases he

theorem follows_drop : Follows labels (step ctx .drop) (Rule ctx labels .drop) := by
  intro b hb
  obtain ⟨haccepts, hspec⟩ := pop_exact ctx none nofun b
  unfold step
  refine ⟨?_, ?_⟩
  · rintro xs ys hxs ⟨a, b, below, hab, rfl, rfl⟩
    cases hab with
    | @drop t ht =>
      obtain ⟨r, s', h⟩ := haccepts t below.reverse (by simpa using hxs) nofun
      exact ⟨_, _, bind_eq_ok.mpr ⟨r, s', h, rfl⟩⟩
  · intro note s' h
    simp only [bind_eq_ok, pure_eq_ok] at h
    obtain ⟨r, s1, h1, -, rfl⟩ := h
    obtain ⟨b', rfl, hsib, -, hnum, hiff⟩ := hspec r s1 h1
    refine ⟨b', rfl, hsib, ?_, ?_⟩
    · rintro xs ys hxs ⟨a, b, below, hab, rfl, rfl⟩
      cases hab with
      | @drop t ht =>
        have := ((hiff t below.reverse).mp ⟨by simpa using hxs, nofun⟩).1
        simpa using this
    · intro ys hys hallows
      obtain ⟨t, ht, hadmits⟩ : ∃ t, t.isNumeric = true ∧ Admits r t := by
        cases r with
        | none => exact ⟨.i32, rfl, nofun⟩
        | some u => exact ⟨u, hnum u rfl, admits_some.mpr rfl⟩
      have hts : Numeric (t :: ys) := forall_mem_cons.mpr ⟨ht, hys⟩
      exact ⟨t :: ys, hts, ((hiff t ys).mpr ⟨hallows, hadmits⟩).1, [t], [], ys.reverse, .drop ht, by simp, by simp⟩

theorem follows_applyCall (hparams : Numeric t.params) (hresults : Numeric t.results) :
    Follows labels (applyCall ctx t false) (Effect t.params t.results) ∧
      Follows labels (applyCall ctx t true) (Effect (t.params ++ [.i32]) t.results) := by
  have happly : ∀ note : Note, Follows labels (do applyType ctx t; return note)
      (Effect t.params t.results) := fun note => (follows_applyType hparams hresults).last note
  refine ⟨?_, ?_⟩
  · intro b hb
    exact happly { Note.empty with stack := some b.state.vals.reverse } b hb
  · intro b hb
    exact ((happly { Note.empty with stack := some b.state.vals.reverse }).condition.congr effect_comp) b hb

theorem Context.Standard.funcType (hctx : ctx.Standard) (h : ctx.module.funcType? f = some t) :
    Numeric t.params ∧ Numeric t.results := by
  obtain ⟨i, -, hi⟩ := Option.bind_eq_some_iff.mp h
  obtain ⟨n, -, hn⟩ := Option.bind_eq_some_iff.mp hi
  exact hctx.types t (mem_of_getElem? hn)

theorem lt_funcCount {m : Module} (hf : 0 ≤ f) (h : m.funcType? f = some t) : f < m.funcCount := by
  obtain ⟨n, rfl⟩ := Int.eq_ofNat_of_zero_le hf
  obtain ⟨i, hi, -⟩ := Option.bind_eq_some_iff.mp h
  unfold Module.typeIndex? Module.isImport at hi
  unfold Module.funcCount
  by_cases himp : (n : Int) < m.importCount
  · omega
  · rw [if_neg (by simpa using himp)] at hi
    obtain ⟨fn, hfn, -⟩ := Option.map_eq_some_iff.mp hi
    have := (List.getElem?_eq_some_iff.mp hfn).1
    omega

theorem follows_call (hctx : ctx.Standard) (hf : 0 ≤ f) :
    Follows labels (step ctx (.call f)) (Rule ctx labels (.call f)) := by
  cases h : ctx.module.funcType? f with
  | none =>
    refine .never ?_ (not_rule fun hne => hne h)
    intro b _ a s' hok
    obtain ⟨-, -, t, ht, -⟩ := step_call_eq_ok.mp hok
    cases h.symm.trans ht
  | some t =>
    have hcall : step ctx (.call f) = applyCall ctx t false := by
      have hlt := lt_funcCount hf h
      have hin : ¬(decide (f < 0) || decide ((ctx.module.funcCount : Int) ≤ f)) = true := by
        simp
        omega
      simp only [step, if_neg hin, h]
    obtain ⟨hparams, hresults⟩ := hctx.funcType h
    rw [hcall]
    refine (follows_applyCall hparams hresults).1.congr (rule_of_effect (.call hf h) rfl)

theorem follows_callIndirect {type table : Int} (hctx : ctx.Standard) (htype : 0 ≤ type) (htable : 0 ≤ table) :
    Follows labels (step ctx (.callIndirect type table)) (Rule ctx labels (.callIndirect type table)) := by
  obtain ⟨n, rfl⟩ := Int.eq_ofNat_of_zero_le htable
  simp only [step]
  by_cases hn : n < ctx.module.tableLimits.length
  · have hlimits : nth? ctx.module.tableLimits n = some ctx.module.tableLimits[n] :=
      getElem?_eq_getElem hn
    rw [if_neg (by omega)]
    refine .element htype (fun t ht => ?_) (fun ht => not_rule fun hne => hne.2 ht)
    obtain ⟨hparams, hresults⟩ := hctx.types t (mem_of_nth? ht)
    exact (follows_applyCall hparams hresults).2.congr (rule_of_effect (.callIndirect hlimits ht) rfl)
  · rw [if_pos (by omega)]
    refine .fail (not_rule fun hne => hne.1 ?_)
    exact getElem?_eq_none (Nat.le_of_not_lt hn)

theorem Width.int_numeric (w : Width) : w.int.isNumeric = true := by cases w <;> rfl

theorem Width.float_numeric (w : Width) : w.float.isNumeric = true := by cases w <;> rfl

theorem Narrow.type_numeric (n : Narrow) : n.type.isNumeric = true := by cases n <;> rfl

theorem NumOp.type_numeric (op : NumOp) : Numeric op.type.params ∧ Numeric op.type.results := by
  have h32 : ValType.i32.isNumeric = true := rfl
  have h64 : ValType.i64.isNumeric = true := rfl
  have f32 : ValType.f32.isNumeric = true := rfl
  have f64 : ValType.f64.isNumeric = true := rfl
  cases op <;> simp [NumOp.type, Numeric, Width.int_numeric, Width.float_numeric,
    Narrow.type_numeric, h32, h64, f32, f64]

/-- **Every instruction that does not enclose others is checked by its rule.** -/
theorem step_follows {i : Instr} (hctx : ctx.Standard) (hlabels : ∀ ts ∈ labels, Numeric ts) (hflat : isFlat i = true)
    (hi : i.isStandard = true) (hselect : i ≠ .select (some [])) : Follows labels (step ctx i) (Rule ctx labels i) := by
  cases i with
  | block _ | loop _ | if_ _ | else_ | end_ => cases hflat
  | unreachable kind =>
    have hnil : Follows labels (do discard (popMany ctx []); setDead; return Note.empty)
        (Rule ctx labels (.unreachable kind)) := by
      refine follows_final nofun (fun a b _ => ⟨a, by simp⟩) ?_
      intro below outs houts
      exact .unreachable houts
    exact hnil
  | nop =>
    refine (Follows.pure _).congr ?_
    intro xs ys
    rw [← rule_of_effect .nop rfl xs ys, effect_pop]
    rfl
  | br l => exact follows_br hlabels (by simpa [Instr.isStandard] using hi)
  | brIf l => exact follows_brIf hlabels (by simpa [Instr.isStandard] using hi)
  | brTable ls d =>
    refine follows_brTable hlabels ?_
    intro l hl
    simpa using all_eq_true.mp hi l hl
  | ret =>
    refine follows_final hctx.results ?_ (fun below outs houts => .ret houts)
    intro a b hab
    cases hab with
    | ret _ => exact ⟨_, rfl⟩
  | call f => exact follows_call hctx (by simpa [Instr.isStandard] using hi)
  | callIndirect type table =>
    obtain ⟨htype, htable⟩ : 0 ≤ type ∧ 0 ≤ table := by simpa [Instr.isStandard] using hi
    exact follows_callIndirect hctx htype htable
  | drop => exact follows_drop
  | select types =>
    refine follows_select ?_ (fun h => hselect (by rw [h]))
    rintro ts rfl
    intro t ht
    exact all_eq_true.mp hi t ht
  | localGet x =>
    refine .element (by simpa [Instr.isStandard] using hi) (fun t ht => ?_) (fun h => not_rule fun hne => hne h)
    exact (follows_push (hctx.locals t (mem_of_nth? ht))).rule (.localGet ht) rfl
  | localSet x =>
    refine .element (by simpa [Instr.isStandard] using hi) (fun t ht => ?_) (fun h => not_rule fun hne => hne h)
    exact (follows_pop (hctx.locals t (mem_of_nth? ht))).discard.rule (.localSet ht) rfl
  | localTee x =>
    refine .element (by simpa [Instr.isStandard] using hi) (fun t ht => ?_) (fun h => not_rule fun hne => hne h)
    have hnum := hctx.locals t (mem_of_nth? ht)
    exact (((follows_pop hnum).discard.bind ((follows_push hnum).last Note.empty)
      (fun _ _ _ _ => rfl)).congr effect_join).congr (rule_of_effect (.localTee ht) rfl)
  | globalGet x =>
    refine .element (by simpa [Instr.isStandard] using hi) (fun g hg => ?_) (fun h => not_rule fun hne => hne h)
    exact (follows_push (hctx.globals g (mem_of_nth? hg))).rule (.globalGet hg) rfl
  | globalSet x =>
    refine .element (by simpa [Instr.isStandard] using hi) (fun g hg => ?_) (fun h => not_rule (by simp [Finds, h]))
    cases hmut : g.isMutable with
    | false =>
      exact .fail (not_rule (by simp [Finds, hg, hmut]))
    | true =>
      exact (follows_pop (hctx.globals g (mem_of_nth? hg))).discard.rule (.globalSet hg hmut) rfl
  | load op arg =>
    obtain ⟨halign, hnum⟩ : 0 ≤ arg.align ∧ op.type.isNumeric = true := by
      simpa [Instr.isStandard] using hi
    refine .access (Nat.ne_of_gt op.size_pos) halign (fun hm ha => ?_) (fun h => not_rule h)
    refine (follows_applyType ?_ ?_).rule (.load hm ha) rfl
    · simp [Numeric]
      rfl
    · simpa [Numeric] using hnum
  | store op arg =>
    obtain ⟨halign, hnum⟩ : 0 ≤ arg.align ∧ op.type.isNumeric = true := by
      simpa [Instr.isStandard] using hi
    refine .access (Nat.ne_of_gt op.size_pos) halign (fun hm ha => ?_) (fun h => not_rule h)
    refine (follows_applyType ?_ ?_).rule (.store hm ha) rfl
    · simpa [Numeric] using ⟨rfl, hnum⟩
    · exact nofun
  | memorySize =>
    refine .memory (fun hm => ?_) (fun hm => not_rule fun hne => hne hm)
    exact (follows_push rfl).rule (.memorySize hm) rfl
  | memoryGrow =>
    refine .memory (fun hm => ?_) (fun hm => not_rule fun hne => hne hm)
    exact (follows_applyType (by decide) (by decide)).rule (.memoryGrow hm) rfl
  | const t v =>
    refine (follows_push hi).rule .const rfl
  | num op =>
    obtain ⟨hparams, hresults⟩ := NumOp.type_numeric op
    refine (follows_applyType hparams hresults).rule .num rfl

end Validate

end ScoreWasm.Wasm
