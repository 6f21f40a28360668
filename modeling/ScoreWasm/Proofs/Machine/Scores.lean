import ScoreWasm.Proofs.Machine.Storage

/-!
# Commands on scores

What a command that touches nothing but scores does is a function of the scoreboard, whatever else the world holds and
however strict the program is: `calculate` says what, and `exec_calculate` that it does so.
-/

namespace ScoreWasm.Machine

open Word

variable {b : Scoreboard} {w : World} {p : Program} {s : Score} {i x : Int} {strict r : Bool} {clauses : List Clause}

theorem Scoreboard.get?_set (b : Scoreboard) (s r : Score) (i : Int) :
    (b.set s i).get? r = if s = r then some (wrap32 i) else b.get? r := by
  simp only [set, get?, Std.HashMap.getElem?_insert, beq_iff_eq]

theorem contains_exactly (i x : Int) : (Range.exactly i).contains x = decide (x = i) := by
  simp only [Range.contains, Range.exactly, ← Bool.decide_and]
  congr 1
  rw [eq_iff_iff]
  omega

@[simp] theorem contains_atMost (i x : Int) : (Range.atMost i).contains x = decide (x ≤ i) := by
  simp [Range.contains, Range.atMost]

@[simp] theorem contains_atLeast (i x : Int) : (Range.atLeast i).contains x = decide (i ≤ x) := by
  simp [Range.contains, Range.atLeast]

/-- Whether a test of scores holds. -/
def holds? (b : Scoreboard) : Test → Option Bool
  | .within s range => (b.get? s).map range.contains
  | .compare s op t => (b.get? s).bind fun x => (b.get? t).bind (Comparison.holds? op x)
  | _ => none

/-- Whether all the tests are met. -/
def met? (b : Scoreboard) : List Clause → Option Bool
  | [] => some true
  | .holds t :: rest => (holds? b t).bind fun r => (met? b rest).map (r && ·)
  | .fails t :: rest => (holds? b t).bind fun r => (met? b rest).map (!r && ·)
  | .store _ :: _ => none

/-- Sets a score of an objective that exists. -/
def Scoreboard.put? (b : Scoreboard) (s : Score) (i : Int) : Option Scoreboard :=
  if b.has s.objective then some (b.set s i) else none

/-- The scores after a command that sets one of them. -/
def assigned? (b : Scoreboard) : Command → Option Scoreboard
  | .setScore s i => b.put? s i
  | .addScore s n => (b.get? s).bind fun x => b.put? s (x + n)
  | .operate s .assign t => (b.get? t).bind (b.put? s)
  | .operate s op t => (b.get? t).bind fun y => (b.get? s).bind fun x => (ScoreOp.outcome? op x y).bind (b.put? s)
  | .check (.store ⟨.result, .score s⟩ :: clauses) => (met? b clauses).bind fun r => b.put? s (if r then 1 else 0)
  | _ => none

/-- What a command without conditions makes of the scores, and what comes next. -/
def simple (b : Scoreboard) : Command → Option (Control × Scoreboard)
  | .function name none => some (.invoke ⟨name, none, false, []⟩, b)
  | .retRun (.function name none) => some (.invoke ⟨name, none, true, []⟩, b)
  | .ret x => some (.ret x, b)
  | c => (assigned? b c).map (.next, ·)

/-- Runs a command that only needs the scores. -/
def calculate (b : Scoreboard) : Command → Option (Control × Scoreboard)
  | .execute clauses c => (met? b clauses).bind fun r => if r then simple b c else some (.next, b)
  | c => simple b c

/-- The scores a command may write. -/
def target : Command → List Score
  | .setScore s _ | .addScore s _ | .operate s _ _ | .check (.store ⟨_, .score s⟩ :: _) => [s]
  | .execute _ c => target c
  | _ => []

theorem readScore_some (h : w.scores.get? s = some x) : readScore strict s w = .ok (some x) w := by
  simp [readScore, h, get, getThe, MonadStateOf.get, EStateM.get, bind, EStateM.bind, pure, EStateM.pure]

theorem evalTest_some {test : Test} (h : holds? w.scores test = some r) : evalTest strict test w = .ok r w := by
  cases test with
  | within s range =>
    obtain ⟨x, hx, rfl⟩ := Option.map_eq_some_iff.mp h
    rw [evalTest, bind_ok (readScore_some hx)]
    rfl
  | compare s op t =>
    obtain ⟨x, hx, h⟩ := Option.bind_eq_some_iff.mp h
    obtain ⟨y, hy, h⟩ := Option.bind_eq_some_iff.mp h
    rw [evalTest, bind_ok (readScore_some hx), bind_ok (readScore_some hy)]
    simp only [h]
    rfl
  | block | data => cases h

theorem evalClauses_some (h : met? w.scores clauses = some r) (stores : List Store) :
    evalClauses strict clauses stores w = .ok (stores.reverse, r) w := by
  induction clauses generalizing r with
  | nil =>
    cases h
    rfl
  | cons c rest ih =>
    cases c with
    | store s => cases h
    | holds test | fails test =>
      obtain ⟨q, hq, h⟩ := Option.bind_eq_some_iff.mp h
      obtain ⟨r', hr', rfl⟩ := Option.map_eq_some_iff.mp h
      rw [evalClauses, bind_ok (evalTest_some hq)]
      cases q with
      | false | true => first | rfl | exact ih hr'

theorem writeScore_put (h : w.scores.put? s i = some b) : writeScore s i w = .ok () { w with scores := b } := by
  unfold Scoreboard.put? at h
  split at h
  next hlive =>
    cases h
    simp [writeScore, hlive, get, getThe, MonadStateOf.get, EStateM.get, bind, EStateM.bind, modify, modifyGet, MonadStateOf.modifyGet, EStateM.modifyGet]
  next => cases h

section Commands

variable {c : Command} {control : Control} {l : String} {d : Nat}

theorem execWithin_assigned (h : assigned? w.scores c = some b) :
    ∃ x, execWithin p l d c w = .ok ⟨x, .next⟩ { w with scores := b } := by
  unfold assigned? at h
  split at h
  next s i =>
    refine ⟨some (wrap32 i), ?_⟩
    rw [execWithin, bind_ok (writeScore_put h)]
    rfl
  next s n =>
    obtain ⟨x, hx, h⟩ := Option.bind_eq_some_iff.mp h
    refine ⟨some (wrap32 (x + n)), ?_⟩
    rw [execWithin, bind_ok (readScore_some hx), Option.getD_some, bind_ok (writeScore_put h)]
    rfl
  next s t =>
    obtain ⟨y, hy, h⟩ := Option.bind_eq_some_iff.mp h
    refine ⟨some y, ?_⟩
    rw [execWithin, operate, bind_assoc, bind_ok (readScore_some hy)]
    simp only [Option.getD_some, BEq.rfl, if_true, bind_assoc]
    rw [bind_ok (writeScore_put h)]
    rfl
  next s op t hassign =>
    obtain ⟨y, hy, h⟩ := Option.bind_eq_some_iff.mp h
    obtain ⟨x, hx, h⟩ := Option.bind_eq_some_iff.mp h
    obtain ⟨z, hz, h⟩ := Option.bind_eq_some_iff.mp h
    refine ⟨some z, ?_⟩
    have hswap : (op == .swap) = false := by cases op <;> first | rfl | cases hz
    have hassign : (op == .assign) = false := by cases op <;> first | rfl | cases hz
    rw [execWithin, operate, bind_assoc, bind_ok (readScore_some hy)]
    simp only [Option.getD_some, hassign, hswap, Bool.false_eq_true, if_false, bind_assoc]
    rw [bind_ok (readScore_some hx)]
    simp only [Option.getD_some, hz, bind_assoc]
    rw [bind_ok (writeScore_put h)]
    rfl
  next s clauses =>
    obtain ⟨r, hr, h⟩ := Option.bind_eq_some_iff.mp h
    have hkept : ((if r = true then some 1 else none : Option Int).getD 0) = if r = true then 1 else 0 := by cases r <;> rfl
    rw [← hkept] at h
    refine ⟨if r then some 1 else none, ?_⟩
    rw [execWithin, evalClauses, bind_ok (evalClauses_some hr _)]
    show (writeScore s _ >>= _ >>= _) w = _
    rw [bind_assoc, bind_ok (writeScore_put h)]
    rfl
  next => cases h

theorem execWithin_simple (p : Program) (line : String) (d : Nat) (h : simple w.scores c = some (control, b)) :
    (∃ x, execWithin p line (d + 1) c w = .ok ⟨x, control⟩ { w with scores := b }) ∧
      ∀ call, control = .invoke call → call.stores = [] := by
  unfold simple at h
  split at h
  case h_4 =>
    obtain ⟨b', hb', h⟩ := Option.map_eq_some_iff.mp h
    cases h
    exact ⟨execWithin_assigned hb', nofun⟩
  all_goals
    cases h
    exact ⟨⟨_, rfl⟩, by rintro _ ⟨⟩ <;> rfl⟩

theorem exec_calculate (h : calculate w.scores c = some (control, b)) :
    ∃ x, exec p l c w = .ok ⟨x, control⟩ { w with scores := b } := by
  unfold calculate at h
  split at h
  next clauses c =>
    obtain ⟨r, hr, h⟩ := Option.bind_eq_some_iff.mp h
    rw [exec, execWithin, bind_ok (evalClauses_some hr _)]
    cases r with
    | false =>
      cases h
      exact ⟨none, rfl⟩
    | true =>
      obtain ⟨⟨x, hx⟩, hstores⟩ := execWithin_simple p l 491 h
      refine ⟨x, ?_⟩
      have hdepth : (bodyLimit == 0) = false := rfl
      simp only [hdepth, Bool.false_eq_true, if_false, if_true]
      rw [bind_ok (show execWithin p l (bodyLimit - 1) c w = _ from hx)]
      cases control with
      | next | ret => rfl
      | invoke call =>
        obtain ⟨name, args, tail, stores⟩ := call
        obtain rfl : stores = [] := hstores _ rfl
        cases tail <;> rfl
  next => exact (execWithin_simple p l 492 h).1

end Commands

end ScoreWasm.Machine
