import ScoreWasm.Proofs.Emit.Scripts
import ScoreWasm.Proofs.Machine.View
import ScoreWasm.Proofs.Number.Bytes

/-!
# What scripts do

One rule for each shape that scripts are put together from: what it does to the registers and the storages
of a view, and that the rest of the script goes on from there.  Code made of these shapes is then followed
line by line.
-/

namespace ScoreWasm.Machine.View

open Emit Word

variable {p : Program} {v v' : View} {r a : Reg} {i x : Int} {c : Command} {control : Control}
  {clauses : List Clause} {range : Range} {s : PathStep} {rest place : Path} {id line : String}

/-! ### Single commands -/

/-- A command is carried out on every world that shows a view. -/
def Acts (p : Program) (c : Command) (v : View) (control : Control) (v' : View) : Prop :=
  ∀ ⦃w⦄ (line : String), Shows w v → ∃ x w', exec p line c w = .ok ⟨x, control⟩ w' ∧ Shows w' v'

/-- A command on scores that sets a register. -/
theorem acts_put (hv : v.Live)
    (h : ∀ b : Scoreboard, (∀ s, b.get? s = v.scores s) → calculate b c = (b.put? r.score i).map (.next, ·)) :
    Acts p c v .next (v.put r (wrap32 i)) := by
  intro w line hw
  obtain ⟨x, hx⟩ := exec_calculate ((h w.scores hw.scores).trans (by rw [hw.put? hv]; rfl))
  exact ⟨x, _, hx, hw.put r i⟩

/-- A command on scores that sets none. -/
theorem acts_same (h : ∀ b : Scoreboard, (∀ s, b.get? s = v.scores s) → calculate b c = some (control, b)) :
    Acts p c v control v := by
  intro w line hw
  obtain ⟨x, hx⟩ := exec_calculate (h w.scores hw.scores)
  exact ⟨x, w, hx, hw⟩

theorem assigned?_operate_eq {y z : Int} {op : ScoreOp} (hx : v.reg a = some x) (hy : v.reg r = some y)
    (hop : ScoreOp.outcome? op x y = some z) (b : Scoreboard) (hb : ∀ s, b.get? s = v.scores s) :
    assigned? b (.operate a.score op r.score) = b.put? a.score z := by
  have hassign : op ≠ .assign := by rintro rfl; cases hop
  rw [assigned?.eq_4 _ _ _ _ hassign, hb, hb, scores_of_reg hx, scores_of_reg hy]
  simp only [Option.bind_some, hop]

/-- Conditions come out in a way. -/
def Tests (clauses : List Clause) (v : View) (q : Bool) : Prop :=
  ∀ b : Scoreboard, (∀ s, b.get? s = v.scores s) → met? b clauses = some q

theorem tests_holds (h : v.reg r = some x) : Tests [.holds (.within r.score range)] v (range.contains x) := by
  intro b hb
  simp [met?, holds?, hb, scores_of_reg h]

theorem tests_fails (h : v.reg r = some x) : Tests [.fails (.within r.score range)] v (!range.contains x) := by
  intro b hb
  simp [met?, holds?, hb, scores_of_reg h]

theorem tests_is (h : v.reg r = some x) (i : Int) : Tests [is r i] v (decide (x = i)) := by
  rw [← contains_exactly]
  exact tests_holds h

theorem tests_isNot (h : v.reg r = some x) (i : Int) : Tests [isNot r i] v (decide (x ≠ i)) := by
  rw [decide_not, ← contains_exactly]
  exact tests_fails h

/-- A command whose result is kept. -/
theorem exec_store {w u u' : World} {y : Option Int} {store : Store}
    (hbody : execWithin p line (bodyLimit - 1) c w = .ok ⟨y, .next⟩ u) (hstore : applyStore p.strict y store u = .ok () u') :
    exec p line (.execute [.store store] c) w = .ok ⟨y, .next⟩ u' := by
  have hclauses : evalClauses p.strict [.store store] [] w = .ok ([store], true) w := rfl
  have hdepth : (bodyLimit == 0) = false := rfl
  rw [exec, execWithin, bind_ok hclauses]
  simp only [hdepth, Bool.false_eq_true, if_false, if_true]
  rw [bind_ok hbody]
  show ((applyStore p.strict y store >>= _) >>= _) u = _
  rw [bind_assoc, bind_ok hstore]
  rfl

/-- A register is written to a place of a storage. -/
theorem acts_writeData {σ : Storages} (hx : v.reg r = some x) (hx' : IsWord x)
    (hput : v.stores.assign id place (.int x) = (true, σ)) :
    Acts p (.execute [.store ⟨.result, .data id place .int Binary64.one⟩] (.getScore r.score)) v .next (v.withStores σ) := by
  intro w line hw
  obtain ⟨w', hrun, hholds, hod⟩ := (hw.holds.with_int x).writeData id place
  rw [hput] at hrun hholds
  refine ⟨some x, w', exec_store (u := w) ?_ ?_, hw.data hod hholds⟩
  · rw [execWithin, bind_ok (readScore_some ((hw.scores _).trans (scores_of_reg hx)))]
    rfl
  · show (scaled x Binary64.one >>= _) w = _
    rw [bind_ok (scaled_word hx' w)]
    show (floorOf (Binary64.exact x) >>= _) w = _
    rw [bind_ok (floorOf_word hx' w)]
    rw [pure_bind, show x.bmod (2 ^ 32) = x from wrap32_of_isWord hx']
    exact bind_ok hrun

/-- A place of a storage is read into a register. -/
theorem acts_readData (hv : v.Live) (hfind : v.stores.find? id (s :: rest) = some (.int x)) (hx : IsWord x) :
    Acts p (.execute [storeIn r] (.getData id (s :: rest) Binary64.one)) v .next (v.put r x) := by
  intro w line hw
  obtain ⟨d, B, hd, hs⟩ := hw.find? hfind
  cases hs
  have hput := hw.put r x
  rw [wrap32_of_isWord hx] at hput
  refine ⟨some x, _, exec_store ?_ (writeScore_put (hw.put? hv r x)), hput⟩
  rw [execWithin, bind_get, hd]
  show ((scaled x Binary64.one >>= floorOf) >>= _) w = _
  rw [bind_assoc, bind_ok (scaled_word hx w), bind_ok (floorOf_word hx w)]
  rfl

end ScoreWasm.Machine.View

namespace ScoreWasm.Machine

open Emit Word

namespace View

variable {v : View} {r b : Reg} {x z i n : Int} {path storage : String} {a : PathStep}
  {place : Path} {es : List (String × Nbt)} {segments : List Segment} {c : Command} {w : World}

theorem outcome?_div {y : Int} (hx : IsWord x) (hy : 0 < y) : ScoreOp.outcome? .div x y = some (x / y) := by
  have hne : (y == 0) = false := beq_eq_false_iff_ne.mpr hy.ne'
  simp only [ScoreOp.outcome?, hne, Bool.false_eq_true, if_false]
  rw [Int.fdiv_eq_ediv_of_nonneg _ hy.le, wrap32_of_isWord (isWord_ediv hx hy)]

theorem outcome?_mod {y : Int} (hy : 0 < y) : ScoreOp.outcome? .mod x y = some (x % y) := by
  have hne : (y == 0) = false := beq_eq_false_iff_ne.mpr hy.ne'
  simp only [ScoreOp.outcome?, hne, Bool.false_eq_true, if_false]
  rw [Int.fmod_eq_emod_of_nonneg _ hy.le]

/-- A world shows a sane view with a property. -/
def Shown (Q : View → Prop) (w : World) : Prop := ∃ v, Shows w v ∧ v.Sane ∧ Q v

/-- A script is carried out on every world that shows a sane view, within a number of commands, and leaves a sane view
with a property. -/
def Will (p : Program) (k : Nat) (s : Script) (v : View) (Q : View → Prop) : Prop :=
  v.Sane → ∀ ⦃w⦄, Shows w v → ∀ name rest,
    Runs p [⟨name, s.steps ++ rest, none, []⟩] [⟨name, rest, none, []⟩] w k (Shown Q)

/-- A script is carried out as a whole function. -/
def Whole (p : Program) (k : Nat) (s : Script) (v : View) (Q : View → Prop) : Prop :=
  v.Sane → ∀ ⦃w⦄, Shows w v → Ends p none s.steps w k (Shown Q)

theorem Shown.mono {Q R : View → Prop} (h : Shown R w) (hQ : ∀ v, R v → Q v) : Shown Q w := by
  obtain ⟨v, hw, hv, hR⟩ := h
  exact ⟨v, hw, hv, hQ v hR⟩

variable {p : Program} {ns : String} {v' : View} {s t : Script} {k l : Nat} {Q R : View → Prop}

namespace Will

variable {scripts : List Script} {op : ScoreOp} {y : Int} {clauses : List Clause}

theorem mono (h : Will p k s v R) (hk : k ≤ l := by omega) (hQ : ∀ v', R v' → Q v' := by exact fun _ h => h) : Will p l s v Q :=
  fun hv _ hw name rest => (h hv hw name rest).mono hk fun _ h => h.mono hQ

theorem imp (h : Will p k s v R) (hQ : ∀ v', R v' → Q v') : Will p k s v Q := h.mono (Nat.le_refl k) hQ

theorem empty (h : Q v) : Will p 0 .empty v Q := fun hv _ hw _ _ => .refl ⟨v, hw, hv, h⟩

theorem append (h : Will p k s v (fun v' => Will p l t v' Q)) : Will p (l + k) (s ++ t) v Q := by
  intro hv w hw name rest
  rw [Script.steps_append, List.append_assoc, Nat.add_comm]
  exact (h hv hw name _).trans fun w' ⟨v', hw', hv', hnext⟩ => hnext hv' hw' name rest

theorem nil (h : Q v) : Will p 0 (.join []) v Q := empty h

theorem cons (h : Will p k s v (fun v' => Will p l (.join scripts) v' Q)) :
    Will p (l + k) (.join (s :: scripts)) v Q := by
  exact append h

/-- A script that takes one command, and others after it. -/
theorem step (h : Will p 1 s v (fun v' => Will p l (.join scripts) v' Q)) :
    Will p (l + 1) (.join (s :: scripts)) v Q := cons h

theorem join_append {more : List Script} (h : Will p k (.join scripts) v (fun v' => Will p l (.join more) v' Q)) :
    Will p (l + k) (.join (scripts ++ more)) v Q := by
  have hjoin : Script.join (scripts ++ more) = Script.join scripts ++ Script.join more := by
    unfold Script.join
    rw [List.flatMap_append, List.flatMap_append]
    rfl
  rw [hjoin]
  exact append h

/-- Scripts for the first numbers, each of which keeps up an invariant. -/
theorem loop {g : Nat → Script} {I : Nat → View → Prop} {c count : Nat}
    (hstep : ∀ i < count, ∀ u, I i u → Will p c (g i) u (I (i + 1))) (h : I 0 v) :
    Will p (count * c) (.join ((List.range count).map g)) v (I count) := by
  induction count with
  | zero =>
    rw [Nat.zero_mul]
    exact nil h
  | succ count ih =>
    rw [List.range_succ, List.map_append, Nat.succ_mul, Nat.add_comm]
    refine join_append ((ih fun i hi => hstep i (by omega)).imp fun u hu => ?_)
    exact (cons ((hstep count (Nat.lt_succ_self count) u hu).imp fun u' hu' => nil hu')).mono

theorem single (hs : s.lines = [.command c]) (hc : v.Sane → Acts p c v .next v' ∧ v'.Sane)
    (h : Q v') : Will p 1 s v Q := by
  intro hv w hw name rest
  obtain ⟨hacts, hv'⟩ := hc hv
  obtain ⟨x, w', hexec, hw'⟩ := hacts c.render hw.counted
  rw [Script.steps, hs]
  exact .next fetches_command hexec ⟨v', hw', hv', h⟩

theorem assigns (hs : s.lines = [.command c])
    (hc : ∀ b : Scoreboard, (∀ s, b.get? s = v.scores s) → calculate b c = (b.put? r.score i).map (.next, ·))
    (h : Q (v.put r (wrap32 i))) : Will p 1 s v Q :=
  single hs (fun hv => ⟨acts_put hv.live hc, hv.put r (isWord_wrap32 i)⟩) h

section

variable {a : Reg} (hx : v.reg a = some x) (hy : v.reg b = some y)
include hx hy

theorem operate
    (hop : ScoreOp.outcome? op x y = some z) (h : Q (v.put a (wrap32 z))) : Will p 1 (Emit.operate a op b) v Q :=
  assigns rfl (fun β hβ => congrArg (Option.map _) (assigned?_operate_eq hx hy hop β hβ)) h

theorem sum (h : Q (v.put a (wrap32 (x + y)))) : Will p 1 (Emit.operate a .add b) v Q :=
  operate hx hy rfl (by rwa [wrap32_wrap32])

theorem difference (h : Q (v.put a (wrap32 (x - y)))) : Will p 1 (Emit.operate a .sub b) v Q :=
  operate hx hy rfl (by rwa [wrap32_wrap32])

theorem product (h : Q (v.put a (wrap32 (x * y)))) : Will p 1 (Emit.operate a .mul b) v Q :=
  operate hx hy rfl (by rwa [wrap32_wrap32])

/-- The quotient by a positive number, rounded down. -/
theorem quotient (hpos : 0 < y) (h : Q (v.put a (x / y))) : Will p 1 (Emit.operate a .div b) v Q := by
  intro hv
  refine operate hx hy (outcome?_div (hv.reg hx) hpos) ?_ hv
  rwa [wrap32_of_isWord (isWord_ediv (hv.reg hx) hpos)]

/-- The remainder of a division by a positive number. -/
theorem remainder (hpos : 0 < y) (h : Q (v.put a (x % y))) : Will p 1 (Emit.operate a .mod b) v Q := by
  intro hv
  refine operate hx hy (outcome?_mod hpos) ?_ hv
  rwa [wrap32_of_isWord (isWord_emod hpos (hv.reg hy))]

end

theorem copy {a : Reg} (hy : v.reg b = some y) (h : Q (v.put a y)) : Will p 1 (copy a b) v Q := by
  intro hv
  unfold Emit.copy
  split
  case isTrue heq =>
    have hab : a = b := eq_of_beq heq
    rw [hab, put_self hy] at h
    exact (empty h).mono (Nat.zero_le 1) (fun _ h => h) hv
  case isFalse _ =>
    rw [← wrap32_of_isWord (hv.reg hy)] at h
    refine assigns rfl (fun β hβ => congrArg (Option.map _) ?_) h hv
    rw [assigned?, hβ, scores_of_reg hy]
    rfl

theorem set (h : Q (v.put r (wrap32 i))) : Will p 1 (Emit.set r i) v Q :=
  assigns rfl (fun _ _ => rfl) (by rwa [wrap32_wrap32])

/-- Adding a number that is a word, except for the least one. -/
theorem add (hn : IsWord n) (hmin : n ≠ minInt) (hx : v.reg r = some x)
    (h : Q (v.put r (wrap32 (x + n)))) : Will p 1 (add r n) v Q := by
  intro hv
  unfold Emit.add
  simp only [wrap32_of_isWord hn]
  split
  case isTrue hzero =>
    have hn : n = 0 := eq_of_beq hzero
    rw [hn, Int.add_zero, wrap32_of_isWord (hv.reg hx), put_self hx] at h
    exact (empty h).mono (Nat.zero_le 1) (fun _ h => h) hv
  case isFalse _ =>
    rw [if_neg (by simpa using hmin)]
    refine assigns rfl (fun b hb => congrArg (Option.map _) ?_) h hv
    rw [assigned?, hb, scores_of_reg hx]
    rfl

theorem writeData {place : Path} {σ : Storages} (hx : v.reg r = some x)
    (hput : v.stores.assign (inNamespace ns storage) place (.int x) = (true, σ)) (h : Q (v.withStores σ)) :
    Will p 1 (Emit.writeData ns storage place r) v Q :=
  single rfl (fun hv => ⟨acts_writeData hx (hv.reg hx) hput, hv.withStores σ⟩) h

/-- A command under a condition that is not met. -/
theorem given_false (hs : s.lines = [.command c]) (htest : Tests clauses v false) (h : Q v) :
    Will p 1 (given clauses s) v Q :=
  single (c := .execute clauses c) (by simp [given, hs])
    (fun hv => ⟨acts_same fun b hb => by rw [calculate, htest b hb]; rfl, hv⟩) h

/-- An operation under a condition that is met. -/
theorem given_operate {a : Reg} (htest : Tests clauses v true) (hx : v.reg a = some x)
    (hy : v.reg r = some y) (hop : ScoreOp.outcome? op x y = some z) (h : Q (v.put a (wrap32 z))) :
    Will p 1 (given clauses (Emit.operate a op r)) v Q := by
  refine assigns rfl (fun b hb => ?_) h
  rw [calculate, htest b hb]
  exact congrArg (Option.map _) (assigned?_operate_eq hx hy hop b hb)

end Will

namespace Whole

variable {scripts : List Script} {clauses : List Clause}

theorem of_will (h : Will p k s v Q) : Whole p k s v Q := by
  intro hv w hw name
  have := (h hv hw name []).trans fun _ hQ => .ended hQ
  rwa [List.append_nil] at this

theorem mono (h : Whole p k s v R) (hk : k ≤ l := by omega) (hQ : ∀ v', R v' → Q v' := by exact fun _ h => h) : Whole p l s v Q :=
  fun hv _ hw name => (h hv hw name).mono hk fun _ h => h.mono hQ

theorem cons (h : Will p k s v (fun v' => Whole p l (.join scripts) v' Q)) :
    Whole p (l + k) (.join (s :: scripts)) v Q := by
  intro hv w hw name
  rw [Script.steps_join_cons, Nat.add_comm]
  exact (h hv hw name _).trans fun w' ⟨v', hw', hv', hnext⟩ => hnext hv' hw' name

/-- A script without placeholders is entered by its name. -/
theorem enters (h : Whole p k s (v.entering (inNamespace ns path)) Q) (hp : p.Has ns path s) (hplain : s.Plain) (hv : v.Sane)
    (hw : Shows w v) : Enters p (inNamespace ns path) none w k (Shown Q) :=
  ⟨_, hp, hplain.needsNoArguments, h (hv.entering _) (hw.entering _)⟩

theorem given_jump (htest : Tests clauses v true) (hp : p.Has ns path s) (hplain : s.Plain)
    (h : Whole p k s (v.entering (inNamespace ns path)) Q) :
    Whole p (k + 1) (.join (given clauses (jump ns path) :: scripts)) v Q := by
  intro hv w hw name
  have hacts : Acts p (.execute clauses (goto ns path)) v (.invoke ⟨inNamespace ns path, none, true, []⟩) v :=
    acts_same fun b hb => by rw [calculate, htest b hb]; rfl
  obtain ⟨x, w', hexec, hw'⟩ := hacts _ hw.counted
  exact .jump hexec (h.enters hp hplain hv hw')

end Whole

/-- A script of one command that calls a function. -/
theorem Will.invokes (ht : t.lines = [.command c])
    (hc : Acts p c v (.invoke ⟨inNamespace ns path, none, false, []⟩) v) (hp : p.Has ns path s) (hplain : s.Plain)
    (h : Whole p k s (v.entering (inNamespace ns path)) Q) : Will p (k + 1) t v Q := by
  intro hv w hw name rest
  obtain ⟨x, w', hexec, hw'⟩ := hc c.render hw.counted
  rw [Script.steps, ht]
  exact .call hexec (h.enters hp hplain hv hw')

theorem Will.call (hp : p.Has ns path s) (hplain : s.Plain)
    (h : Whole p k s (v.entering (inNamespace ns path)) Q) : Will p (k + 1) (Emit.call ns path) v Q :=
  invokes rfl (acts_same fun _ _ => rfl) hp hplain h

/-- The function under a path is carried out within a number of commands. -/
def Performs (p : Program) (ns path : String) (k : Nat) (v : View) (Q : View → Prop) : Prop :=
  ∃ body, p.Has ns path body ∧ body.Plain ∧ Whole p k body (v.entering (inNamespace ns path)) Q

theorem Performs.will (h : Performs p ns path k v Q) : Will p (k + 1) (Emit.call ns path) v Q := by
  obtain ⟨body, hp, hplain, hbody⟩ := h
  exact .call hp hplain hbody

theorem Performs.mono (h : Performs p ns path k v R) (hk : k ≤ l := by omega)
    (hQ : ∀ v', R v' → Q v' := by exact fun _ h => h) : Performs p ns path l v Q := by
  obtain ⟨body, hp, hplain, hbody⟩ := h
  exact ⟨body, hp, hplain, hbody.mono hk hQ⟩

/-- **What a function performs on a view it performs on every world that shows the view.** -/
theorem Performs.run (hw : Shows w v) (hv : v.Sane) (hk : k ≤ p.maxCommands.toNat)
    (h : Performs p ns path k v Q) : ∃ x w', runFunction p (inNamespace ns path) none w = .ok x w' ∧ Shown Q w' := by
  obtain ⟨body, hp, hplain, hbody⟩ := h
  exact (hbody.enters hp hplain hv hw).run hk

/-- A function of one line with placeholders is called, with arguments at a place of a storage. -/
theorem Will.callWith {line : String} (hp : p.Has ns path (template segments))
    (hargs : v.stores.find? (inNamespace ns storage) (a :: place) = some (.compound es))
    (hfill : filled? es segments "" = some line) (hparse : parseCommand line = .ok c)
    (hc : v.Sane → Acts p c (v.entering (inNamespace ns path)) .next v' ∧ v'.Sane) (h : Q v') :
    Will p 2 (callWith ns path storage (a :: place)) v Q := by
  intro hv w hw name rest
  obtain ⟨hacts, hv'⟩ := hc hv
  obtain ⟨d, B, hd, hs⟩ := hw.counted.find? hargs
  cases id hs with
  | @compound _ address _ _ _ _ hget =>
    obtain ⟨x, w', hexec, hw'⟩ := hacts line (hw.counted.entering _).counted
    refine Runs.call (x := none) (a := some (.stored address)) (u := w.counted) ?_ ⟨_, hp, rfl, fun callee => ?_⟩
    · show (get >>= _ : Run Outcome) w.counted = _
      rw [bind_get, hd]
      simp only [hget]
      rfl
    · have hline := fillTemplate_eq (w := w.counted.entering (inNamespace ns path)) hs hfill callee
      exact (Runs.next (fetches_template hline hparse) hexec ⟨v', hw', hv', h⟩).trans fun _ h => .ended h

end View

end ScoreWasm.Machine
