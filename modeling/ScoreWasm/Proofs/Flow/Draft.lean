import ScoreWasm.Proofs.Monad
import ScoreWasm.Flow.Build

/-!
# Graphs under construction

What the steps of the construction do to a graph, and what stays true of it.  Blocks are only added, an
open block only gets longer, and a block with a terminator never changes again.  The blocks that open
constructs wait for, those after their ends and those of second arms, stay empty and open until the
construction enters them, and no two constructs wait for the same one.
-/

namespace ScoreWasm.Flow

open Wasm List Option
open ScoreWasm.StateT (bind_eq_ok get_eq_ok ite_eq_ok modify_eq_ok pure_eq_ok throw_eq_ok)

/-! ### The contents of blocks -/

namespace Draft

/-- The instruction at a place in a block. -/
def instrAt (d : Draft) (b n : Nat) : Option BlockInstr := (d.blocks[b]?).bind (fun B => B.instrs[n]?)

/-- The terminator of a block, if its instructions are so many. -/
def termAt (d : Draft) (b n : Nat) : Option Terminator :=
  (d.blocks[b]?).bind (fun B => if B.instrs.size = n then B.term else none)

/-- A block that has no terminator, with so many instructions. -/
def Open (d : Draft) (b n : Nat) : Prop :=
  ∃ B : OpenBlock, d.blocks[b]? = some B ∧ B.instrs.size = n ∧ B.term = none

variable {d d' e f : Draft} {b c n : Nat}

theorem Open.there (h : d.Open b n) : ∃ B, d.blocks[b]? = some B := h.imp fun _ h => h.1

/-- A block that exists and one that does not are different. -/
theorem Open.ne_of_fresh (h : d.Open b n) (hc : d.blocks[c]? = none) : b ≠ c := by
  rintro rfl
  obtain ⟨B, hB⟩ := h.there
  rw [hc] at hB
  cases hB

/-- Blocks have been added, and open ones have got longer or been ended. -/
def Grows (d d' : Draft) : Prop :=
  ∀ (b : Nat) (B : OpenBlock), d.blocks[b]? = some B → ∃ B' : OpenBlock, d'.blocks[b]? = some B' ∧
    (∃ more, B'.instrs = B.instrs ++ more) ∧ B'.height = B.height ∧ (B.term.isSome → B' = B)

theorem Grows.refl (d : Draft) : Grows d d := by
  intro b B hB
  exact ⟨B, hB, ⟨#[], by simp⟩, rfl, fun _ => rfl⟩

theorem Grows.trans (h : Grows d e) (k : Grows e f) : Grows d f := by
  intro b B hB
  obtain ⟨B1, hB1, ⟨m1, h1⟩, e1, t1⟩ := h b B hB
  obtain ⟨B2, hB2, ⟨m2, h2⟩, e2, t2⟩ := k b B1 hB1
  refine ⟨B2, hB2, ⟨m1 ++ m2, by rw [h2, h1, Array.append_assoc]⟩, e2.trans e1, ?_⟩
  intro ht
  have e1 := t1 ht
  rw [← e1] at ht
  rw [t2 ht, e1]

theorem Grows.instrAt (h : Grows d d') {i : BlockInstr} (hi : d.instrAt b n = some i) : d'.instrAt b n = some i := by
  obtain ⟨B, hB, hn⟩ := bind_eq_some_iff.mp hi
  obtain ⟨B', hB', ⟨more, hm⟩, -⟩ := h b B hB
  have hlt : n < B.instrs.size := (Array.getElem?_eq_some_iff.mp hn).1
  unfold Draft.instrAt
  rw [hB', bind_some, hm, Array.getElem?_append_left hlt]
  exact hn

theorem Grows.termAt (h : Grows d d') {t : Terminator} (ht : d.termAt b n = some t) : d'.termAt b n = some t := by
  obtain ⟨B, hB, hn⟩ := bind_eq_some_iff.mp ht
  obtain ⟨B', hB', -, -, hsame⟩ := h b B hB
  split at hn
  · rename_i hsize
    rw [hn] at hsame
    unfold Draft.termAt
    rw [hB', hsame rfl, bind_some, if_pos hsize, hn]
  · cases hn

theorem Grows.of_blocks (h : d'.blocks = d.blocks) : Grows d d' := by
  intro b B hB
  exact ⟨B, by rw [h]; exact hB, ⟨#[], by simp⟩, rfl, fun _ => rfl⟩

end Draft

/-! ### Constructs -/

/-- The same construct, whose target may have been made in between. -/
structure Scope.Le (s s' : Scope) : Prop where
  kind : s'.kind = s.kind
  type : s'.type = s.type
  base : s'.base = s.base
  elseBlock : s'.elseBlock = s.elseBlock
  target : ∀ b, s.target = some b → s'.target = some b
  loop : s.kind = .loop → s'.target = s.target

theorem Scope.Le.refl (s : Scope) : s.Le s := ⟨rfl, rfl, rfl, rfl, fun _ h => h, fun _ => rfl⟩

theorem Scope.Le.trans {s t u : Scope} (h : s.Le t) (k : t.Le u) : s.Le u := by
  refine ⟨k.kind.trans h.kind, k.type.trans h.type, k.base.trans h.base,
    k.elseBlock.trans h.elseBlock, fun b hb => k.target b (h.target b hb), ?_⟩
  intro hl
  rw [k.loop (h.kind.trans hl), h.loop hl]

theorem Scope.Le.labelTypes {s s' : Scope} (h : s.Le s') : s'.labelTypes = s.labelTypes := by
  unfold Scope.labelTypes
  rw [h.kind, h.type]

/-- The same constructs, some of whose targets may have been made in between. -/
def Fills : List Scope → List Scope → Prop
  | [], [] => True
  | s :: ss, s' :: ss' => s.Le s' ∧ Fills ss ss'
  | _, _ => False

namespace Fills

variable {ss ts : List Scope} {n : Nat} {s s' t : Scope}

theorem refl : ∀ ss : List Scope, Fills ss ss
  | [] => trivial
  | s :: ss => ⟨Scope.Le.refl s, refl ss⟩

theorem of_eq (h : ts = ss) : Fills ss ts := h ▸ refl ts

theorem trans : ∀ {ss ts us : List Scope}, Fills ss ts → Fills ts us → Fills ss us
  | [], [], [], _, _ => trivial
  | _ :: _, _ :: _, _ :: _, h, k => ⟨h.1.trans k.1, h.2.trans k.2⟩

theorem length : ∀ {ss ts : List Scope}, Fills ss ts → ts.length = ss.length
  | [], [], _ => rfl
  | _ :: _, _ :: _, h => by simp only [length_cons, length h.2]

theorem drop : ∀ {ss ts : List Scope} (n : Nat), Fills ss ts → Fills (ss.drop n) (ts.drop n)
  | _, _, 0, h | [], [], _ + 1, h => h
  | _ :: _, _ :: _, n + 1, h => drop n h.2

theorem get : ∀ {ss ts : List Scope} {n : Nat} {s : Scope}, Fills ss ts → ss[n]? = some s →
    ∃ t, ts[n]? = some t ∧ s.Le t
  | s :: _, t :: _, 0, _, h, hs => by
    cases hs
    exact ⟨t, rfl, h.1⟩
  | _ :: _, _ :: _, n + 1, _, h, hs => get (n := n) h.2 (by simpa using hs)

theorem get_rev (h : Fills ss ts) (ht : ts[n]? = some t) :
    ∃ s, ss[n]? = some s ∧ s.Le t := by
  have hlt : n < ss.length := by
    rw [← h.length]
    exact (List.getElem?_eq_some_iff.mp ht).1
  obtain ⟨t', ht', hle⟩ := h.get (List.getElem?_eq_getElem hlt)
  rw [ht] at ht'
  cases ht'
  exact ⟨_, getElem?_eq_getElem hlt, hle⟩

theorem set : ∀ {ss : List Scope} {n : Nat}, ss[n]? = some s → s.Le s' → Fills ss (ss.set n s')
  | t :: ss, 0, h, hle => by
    cases h
    exact ⟨hle, refl ss⟩
  | t :: ss, n + 1, h, hle => ⟨Scope.Le.refl t, set (by simpa using h) hle⟩

end Fills

/-- The blocks that an open construct waits for. -/
def Scope.awaits (s : Scope) : List Nat :=
  if s.kind = .loop then []
  else s.target.toList ++ (if s.kind = .if_ then s.elseBlock.toList else [])

/-- The blocks that open constructs wait for. -/
def awaited (ss : List Scope) : List Nat := ss.flatMap Scope.awaits

/-- The blocks that open constructs wait for are empty and each waited for once, and none of them is the
one being filled. -/
structure Draft.Reserved (d : Draft) : Prop where
  empty : ∀ b ∈ awaited d.scopes, d.Open b 0
  nodup : (awaited d.scopes).Nodup
  away : d.current ∉ awaited d.scopes
  there : ∃ B, d.blocks[d.current]? = some B

namespace Build

variable {site : Site} {d d' : Draft} {b c n depth : Nat} {label height : Int}
  {r : Option BlockInstr × Terminator} {t : Terminator} {u : Unit} {s s' : Scope}

/-! ### Changes to one block -/

/-- One block has been added, made longer or ended. -/
structure Touches (b : Nat) (d d' : Draft) : Prop where
  grows : d.Grows d'
  current : d'.current = d.current
  scopes : d'.scopes = d.scopes
  same : ∀ c, c ≠ b → d'.blocks[c]? = d.blocks[c]?

theorem Touches.open_of_ne (h : Touches b d d') (hne : c ≠ b) : d'.Open c n ↔ d.Open c n := by
  unfold Draft.Open
  rw [h.same c hne]

/-- A change to a block that nothing waits for. -/
theorem Touches.reserved (h : Touches b d d') (hb : b ∉ awaited d.scopes) (hd : d.Reserved) : d'.Reserved := by
  refine ⟨?_, by rw [h.scopes]; exact hd.nodup, by rw [h.scopes, h.current]; exact hd.away, ?_⟩
  · intro c hc
    rw [h.scopes] at hc
    have hne : c ≠ b := by
      rintro rfl
      exact hb hc
    exact (h.open_of_ne hne).mpr (hd.empty c hc)
  · obtain ⟨B, hB⟩ := hd.there
    obtain ⟨B', hB', -⟩ := h.grows _ B hB
    rw [h.current]
    exact ⟨B', hB'⟩

/-- A block that does not exist yet is not waited for. -/
theorem not_awaited_of_fresh (hd : d.Reserved) (hb : d.blocks[b]? = none) : b ∉ awaited d.scopes :=
  fun hmem => (hd.empty b hmem).ne_of_fresh hb rfl

theorem newBlock_ok {kind : BlockKind} (h : newBlock site kind height d = .ok (b, d')) :
    Touches b d d' ∧ d.blocks[b]? = none ∧ d'.Open b 0 := by
  unfold newBlock at h
  simp only [bind_eq_ok, get_eq_ok, ite_eq_ok, throw_eq_ok,
    modify_eq_ok, pure_eq_ok, false_and, and_false, exists_false, false_or] at h
  obtain ⟨_, _, ⟨rfl, rfl⟩, -, _, _, rfl, rfl, rfl⟩ := h
  rename_i d _
  have hold : ∀ c, c ≠ d.blocks.size → (d.blocks.push ⟨kind, height, #[], none⟩)[c]? = d.blocks[c]? := by
    intro c hc
    rw [Array.getElem?_push, if_neg hc]
  refine ⟨⟨?_, rfl, rfl, hold⟩, by simp, ⟨⟨kind, height, #[], none⟩, by simp, rfl, rfl⟩⟩
  intro b B hB
  have hne : b ≠ d.blocks.size := by
    rintro rfl
    simp at hB
  exact ⟨B, by rw [hold b hne]; exact hB, ⟨#[], by simp⟩, rfl, fun _ => rfl⟩

/-- Changing an open block in place: longer or ended. -/
theorem touches_modify {f : OpenBlock → OpenBlock} (ho : d.Open b n)
    (hf : ∀ B, (∃ more, (f B).instrs = B.instrs ++ more) ∧ (f B).height = B.height) :
    Touches b d { d with blocks := d.blocks.modify b f } := by
  have hold : ∀ c, c ≠ b → (d.blocks.modify b f)[c]? = d.blocks[c]? := by
    intro c hc
    rw [Array.getElem?_modify, if_neg (Ne.symm hc)]
  refine ⟨?_, rfl, rfl, hold⟩
  intro c B hB
  by_cases hc : c = b
  · subst hc
    obtain ⟨B', hB', -, ht⟩ := ho
    rw [hB] at hB'
    cases hB'
    refine ⟨f B, ?_, (hf B).1, (hf B).2, ?_⟩
    · show (d.blocks.modify c f)[c]? = some (f B)
      rw [Array.getElem?_modify, if_pos rfl, hB]
      rfl
    · rw [ht]
      intro h
      cases h
  · exact ⟨B, by rw [← hB]; exact hold c hc, ⟨#[], by simp⟩, rfl, fun _ => rfl⟩

theorem append_ok {i : BlockInstr} (ho : d.Open b n) (h : append b i d = .ok (u, d')) :
    Touches b d d' ∧ d'.Open b (n + 1) ∧ d'.instrAt b n = some i := by
  obtain rfl := modify_eq_ok.mp h
  refine ⟨touches_modify ho (fun B => ⟨⟨#[i], by simp⟩, rfl⟩), ?_⟩
  obtain ⟨B, hB, hn, ht⟩ := ho
  have hB' : (d.blocks.modify b (fun b => { b with instrs := b.instrs.push i }))[b]? =
      some { B with instrs := B.instrs.push i } := by
    rw [Array.getElem?_modify, if_pos rfl, hB]
    rfl
  refine ⟨⟨_, hB', by simp [hn], ht⟩, ?_⟩
  unfold Draft.instrAt
  rw [hB', bind_some]
  simp [← hn]

theorem setTerm_ok (ho : d.Open b n) (h : setTerm b t d = .ok (u, d')) : Touches b d d' ∧ d'.termAt b n = some t := by
  obtain rfl := modify_eq_ok.mp h
  refine ⟨touches_modify ho (fun B => ⟨⟨#[], by simp⟩, rfl⟩), ?_⟩
  obtain ⟨B, hB, hn, ht⟩ := ho
  unfold Draft.termAt
  simp only [Array.getElem?_modify, if_pos, hB, map_some, bind_some, hn]

theorem terminate_ok (ho : d.Open d.current n) (h : terminate t d = .ok (u, d')) :
    Touches d.current d d' ∧ d'.termAt d.current n = some t := by
  unfold terminate at h
  simp only [bind_eq_ok, get_eq_ok, ite_eq_ok, throw_eq_ok, false_and, and_false, exists_false, false_or] at h
  obtain ⟨_, _, ⟨rfl, rfl⟩, -, h⟩ := h
  exact setTerm_ok ho h

theorem enter_ok (h : enter b d = .ok (u, d')) : d' = { d with current := b } := modify_eq_ok.mp h

/-! ### Work aside from the current block -/

/-- Blocks and targets have been added, and the block being filled is as it was. -/
structure Aside (d d' : Draft) : Prop where
  grows : d.Grows d'
  fills : Fills d.scopes d'.scopes
  current : d'.current = d.current
  here : ∀ n, d.Open d.current n → d'.Open d.current n
  reserved : d.Reserved → d'.Reserved

namespace Aside

theorem refl (d : Draft) : Aside d d :=
  ⟨Draft.Grows.refl d, Fills.refl _, rfl, fun _ h => h, fun h => h⟩

theorem trans {d e f : Draft} (h : Aside d e) (k : Aside e f) : Aside d f := by
  refine ⟨h.grows.trans k.grows, h.fills.trans k.fills, k.current.trans h.current, ?_,
    fun hd => k.reserved (h.reserved hd)⟩
  intro n hn
  have := h.here n hn
  rw [← h.current] at this ⊢
  exact k.here n this

theorem opened (h : Aside d d') (ho : d.Open d.current n) : d'.Open d'.current n := by
  rw [h.current]
  exact h.here n ho

/-- Filling a block that did not exist before. -/
theorem of_touches (h : Touches b d d') (hb : d.blocks[b]? = none) : Aside d d' :=
  ⟨h.grows, .of_eq h.scopes, h.current, fun _ hn => (h.open_of_ne (hn.ne_of_fresh hb)).mpr hn,
    fun hd => h.reserved (not_awaited_of_fresh hd hb) hd⟩

end Aside

theorem Touches.trans {e f : Draft} (h : Touches b d e) (k : Touches b e f) : Touches b d f :=
  ⟨h.grows.trans k.grows, k.current.trans h.current, k.scopes.trans h.scopes,
    fun c hc => (k.same c hc).trans (h.same c hc)⟩

/-! ### Targets -/

/-- Giving a construct its target adds just that block to the ones that are waited for. -/
theorem awaited_set_perm (ht : s.target = none) (hk : s.kind ≠ .loop) {ss : List Scope}
    (h : ss[n]? = some s) : (awaited (ss.set n { s with target := some b })).Perm (b :: awaited ss) := by
  induction ss generalizing n with
  | nil =>
    simp at h
  | cons t ss ih =>
    cases n with
    | zero =>
      cases h
      have : Scope.awaits { s with target := some b } = b :: s.awaits := by
        simp [Scope.awaits, hk, ht]
      show (Scope.awaits { s with target := some b } ++ awaited ss).Perm _
      rw [this]
      exact List.Perm.refl _
    | succ n =>
      have h : ss[n]? = some s := by simpa using h
      exact ((ih h).append_left t.awaits).trans perm_middle

theorem mergeOf_ok (hs : d.scopes[depth]? = some s) (hk : s.kind ≠ .loop) (h : mergeOf site depth s d = .ok (b, d')) :
    Aside d d' ∧ ∃ s', d'.scopes[depth]? = some s' ∧ s.Le s' ∧ s'.target = some b := by
  unfold mergeOf at h
  cases ht : s.target with
  | some c =>
    rw [ht] at h
    obtain ⟨rfl, rfl⟩ := pure_eq_ok.mp h
    exact ⟨Aside.refl d, s, hs, Scope.Le.refl s, ht⟩
  | none =>
    rw [ht] at h
    simp only [bind_eq_ok, modify_eq_ok, pure_eq_ok] at h
    obtain ⟨c, d1, h1, _, _, rfl, rfl, rfl⟩ := h
    obtain ⟨ht1, hfresh, hopen⟩ := newBlock_ok h1
    have hs1 : d1.scopes[depth]? = some s := by rw [ht1.scopes]; exact hs
    have hle : s.Le { s with target := some c } := by
      refine ⟨rfl, rfl, rfl, rfl, ?_, fun hl => absurd hl hk⟩
      intro b hb
      rw [ht] at hb
      cases hb
    have hlt : depth < d1.scopes.length := (List.getElem?_eq_some_iff.mp hs1).1
    have a1 := Aside.of_touches ht1 hfresh
    have hperm := awaited_set_perm (b := c) ht hk hs1
    refine ⟨⟨a1.grows.trans (.of_blocks rfl), ?_, a1.current, a1.here, ?_⟩,
      { s with target := some c }, by simp [hlt], hle, rfl⟩
    · exact a1.fills.trans (Fills.set hs1 hle)
    · intro hd
      have hd1 := a1.reserved hd
      have hc : c ∉ awaited d1.scopes := by
        rw [ht1.scopes]
        exact not_awaited_of_fresh hd hfresh
      refine ⟨?_, hperm.nodup_iff.mpr (nodup_cons.mpr ⟨hc, hd1.nodup⟩), ?_, hd1.there⟩
      · intro e he
        rcases mem_cons.mp (hperm.mem_iff.mp he) with rfl | he
        · exact hopen
        · exact hd1.empty e he
      · intro hmem
        rcases mem_cons.mp (hperm.mem_iff.mp hmem) with hcur | hmem
        · -- The new block cannot be the current one, which existed before.
          obtain ⟨B, hB⟩ := hd.there
          rw [← ht1.current, show d1.current = c from hcur, hfresh] at hB
          cases hB
        · exact hd1.away hmem

/-! ### Branches -/

/-- How a branch to a construct goes on from a height: the move it makes, if one is needed, and the
terminator it ends with. -/
def JumpsTo (site : Site) (s : Scope) (height : Int) (r : Option BlockInstr × Terminator) : Prop :=
  if s.kind = .function then r = (none, .ret (height - site.type.results.length))
  else ∃ b, s.target = some b ∧ r = (if !s.labelTypes.isEmpty && height - s.labelTypes.length != s.base then
        some (.move (height - s.labelTypes.length) s.base s.labelTypes) else none,
      .jump b (s.kind == .loop))

theorem JumpsTo.mono (h : JumpsTo site s height r) (hle : s.Le s') : JumpsTo site s' height r := by
  unfold JumpsTo at h ⊢
  rw [hle.kind, hle.labelTypes, hle.base]
  split
  · rename_i hf
    rwa [if_pos hf] at h
  · rename_i hf
    rw [if_neg hf] at h
    obtain ⟨b, hb, hr⟩ := h
    exact ⟨b, hle.target b hb, hr⟩

/-- How a branch to a label goes on from a height, where the label exists. -/
def Branches (site : Site) (ss : List Scope) (label height : Int) (r : Option BlockInstr × Terminator) : Prop :=
  ∀ depth s, position? ss.length label = some depth → ss[depth]? = some s → JumpsTo site s height r

theorem Branches.mono {ss ss' : List Scope} (h : Branches site ss label height r)
    (hf : Fills ss ss') : Branches site ss' label height r := by
  intro depth s' hpos hs'
  rw [hf.length] at hpos
  obtain ⟨s, hs, hle⟩ := hf.get_rev hs'
  exact (h depth s hpos hs).mono hle

/-- Constructs that are entered at once have their targets from the start. -/
def Formed (ss : List Scope) : Prop :=
  ∀ s ∈ ss, s.kind ≠ .function → s.kind ≠ .block → s.target.isSome

theorem Formed.mono {ss ss' : List Scope} (h : Formed ss) (hf : Fills ss ss') : Formed ss' := by
  intro t ht hkf hkb
  obtain ⟨n, hn⟩ := getElem?_of_mem ht
  obtain ⟨s, hs, hle⟩ := hf.get_rev hn
  rw [hle.kind] at hkf hkb
  obtain ⟨b, hb⟩ := isSome_iff_exists.mp (h s (mem_of_getElem? hs) hkf hkb)
  rw [hle.target b hb]
  rfl

theorem resolve_ok (hform : Formed d.scopes) (h : resolve site label height d = .ok (r, d')) :
    Aside d d' ∧ Branches site d'.scopes label height r := by
  unfold resolve at h
  simp only [bind_eq_ok, get_eq_ok] at h
  obtain ⟨_, _, ⟨rfl, rfl⟩, h⟩ := h
  rename_i d
  cases hs : d.scopes[(position? d.scopes.length label).getD d.scopes.length]? with
  | none =>
    rw [hs] at h
    obtain ⟨-, rfl⟩ := pure_eq_ok.mp h
    refine ⟨Aside.refl d, ?_⟩
    intro depth s hpos hdepth
    rw [hpos, getD_some, hdepth] at hs
    cases hs
  | some s =>
    rw [hs] at h
    simp only [ite_eq_ok, bind_eq_ok, pure_eq_ok, beq_iff_eq] at h
    -- The label stands for the construct that was found.
    have found : ∀ {e : Draft} {s' : Scope}, Fills d.scopes e.scopes →
        e.scopes[(position? d.scopes.length label).getD d.scopes.length]? = some s' →
        JumpsTo site s' height r → Branches site e.scopes label height r := by
      intro e s' hf hs' hj depth t hpos ht
      rw [hf.length] at hpos
      rw [hpos, getD_some, ht] at hs'
      cases hs'
      exact hj
    rcases h with ⟨hk, rfl, rfl⟩ | ⟨hk, ⟨hl, rfl, rfl⟩ | ⟨hl, b, d1, h1, rfl, rfl⟩⟩
    · refine ⟨Aside.refl d, found (Fills.refl _) hs ?_⟩
      unfold JumpsTo
      rw [if_pos hk]
    · refine ⟨Aside.refl d, found (Fills.refl _) hs ?_⟩
      have hmem : s ∈ d.scopes := mem_of_getElem? hs
      obtain ⟨b, hb⟩ := isSome_iff_exists.mp (hform s hmem hk (by rw [hl]; decide))
      unfold JumpsTo
      rw [if_neg hk]
      exact ⟨b, hb, by simp [hb, hl]⟩
    · obtain ⟨a1, s', hs', hle, hb⟩ := mergeOf_ok hs hl h1
      refine ⟨a1, found a1.fills hs' ?_⟩
      unfold JumpsTo
      rw [hle.kind, if_neg hk, hle.labelTypes, hle.base]
      exact ⟨b, hb, by simp [hl]⟩

/-- From a place in a block, a branch is carried out. -/
def Runs (d : Draft) (b n : Nat) (r : Option BlockInstr × Terminator) : Prop :=
  match r.1 with
  | none => d.termAt b n = some r.2
  | some i => d.instrAt b n = some i ∧ d.termAt b (n + 1) = some r.2

theorem Runs.mono (h : Runs d b n r) (hg : d.Grows d') : Runs d' b n r := by
  obtain ⟨move, term⟩ := r
  cases move with
  | none => exact hg.termAt h
  | some i => exact ⟨hg.instrAt h.1, hg.termAt h.2⟩

/-- Entering a block amounts to a branch to a label. -/
def Edge (site : Site) (d : Draft) (label height : Int) (b : Nat) : Prop :=
  ∃ r, Branches site d.scopes label height r ∧ (r = (none, .jump b false) ∨ Runs d b 0 r)

theorem Edge.mono (h : Edge site d label height b) (hg : d.Grows d')
    (hf : Fills d.scopes d'.scopes) : Edge site d' label height b := by
  obtain ⟨r, hr, hb⟩ := h
  exact ⟨r, hr.mono hf, hb.imp id (fun hb => hb.mono hg)⟩

/-- A block of its own for a branch. -/
def between (site : Site) (height : Int) (r : Option BlockInstr × Terminator) : Build Nat := do
  let b ← newBlock site .edge height
  match r.1 with
  | some i => append b i
  | none => pure ()
  setTerm b r.2
  return b

theorem between_ok (h : between site height r d = .ok (b, d')) : Aside d d' ∧ d'.scopes = d.scopes ∧ Runs d' b 0 r := by
  obtain ⟨move, term⟩ := r
  unfold between at h
  cases move with
  | none =>
    simp only [bind_eq_ok, pure_eq_ok] at h
    obtain ⟨b, d1, h1, _, d2, h2, rfl, rfl⟩ := h
    obtain ⟨t1, hfresh, ho⟩ := newBlock_ok h1
    obtain ⟨t2, hterm⟩ := setTerm_ok ho h2
    have t := t1.trans t2
    exact ⟨Aside.of_touches t hfresh, t.scopes, hterm⟩
  | some i =>
    simp only [bind_eq_ok, pure_eq_ok] at h
    obtain ⟨b, d1, h1, _, d2, h2, _, d3, h3, rfl, rfl⟩ := h
    obtain ⟨t1, hfresh, ho⟩ := newBlock_ok h1
    obtain ⟨t2, ho2, hi⟩ := append_ok ho h2
    obtain ⟨t3, hterm⟩ := setTerm_ok ho2 h3
    have t := (t1.trans t2).trans t3
    exact ⟨Aside.of_touches t hfresh, t.scopes, t3.grows.instrAt hi, hterm⟩

theorem edge_ok (hform : Formed d.scopes) (h : edge site label height d = .ok (b, d')) :
    Aside d d' ∧ Edge site d' label height b := by
  unfold edge at h
  rw [bind_eq_ok] at h
  obtain ⟨⟨move, term⟩, d1, h1, h⟩ := h
  obtain ⟨a1, hr⟩ := resolve_ok hform h1
  have between (h : between site height (move, term) d1 = .ok (b, d')) : Aside d d' ∧ Edge site d' label height b := by
    obtain ⟨a2, hss, hruns⟩ := between_ok h
    exact ⟨a1.trans a2, (move, term), hss ▸ hr, .inr hruns⟩
  match move, term with
  | none, .jump target false =>
    obtain ⟨rfl, rfl⟩ := pure_eq_ok.mp h
    exact ⟨a1, _, hr, .inl rfl⟩
  | none, .jump _ true | some _, _ => exact between h
  | none, .fallthrough _ | none, .branchIf .. | none, .branchTable .. | none, .ret _
  | none, .unreachable _ | none, .call .. | none, .callIndirect .. => exact between h

/-- Each label of a branch table has got a block that amounts to a branch to it. -/
theorem tableEdges_ok {labels : List Int} {known : List (Int × Nat)} {d d' : Draft} {bs : List Nat}
    (hform : Formed d.scopes) (hknown : (∀ label b, known.lookup label = some b → Edge site d label height b))
    (h : tableEdges site height known labels d = .ok (bs, d')) :
    Aside d d' ∧ bs.length = labels.length ∧ ∀ (n : Nat) (label : Int) (b : Nat),
      labels[n]? = some label → bs[n]? = some b → Edge site d' label height b := by
  induction labels generalizing known d d' bs with
  | nil =>
    obtain ⟨rfl, rfl⟩ := pure_eq_ok.mp h
    exact ⟨Aside.refl d, rfl, fun n label b hl => by simp at hl⟩
  | cons label labels ih =>
    unfold tableEdges at h
    -- The block of the first label is there; the rest keeps what it amounts to.
    have close : ∀ {e : Draft} {known : List (Int × Nat)} {b : Nat} {rest : List Nat}, Aside d e →
        Edge site e label height b →
        (∀ label b, known.lookup label = some b → Edge site e label height b) →
        tableEdges site height known labels e = .ok (rest, d') → b :: rest = bs →
        Aside d d' ∧ bs.length = (label :: labels).length ∧
          ∀ (n : Nat) (l : Int) (b : Nat), (label :: labels)[n]? = some l → bs[n]? = some b → Edge site d' l height b := by
      intro e known b rest ae hb hknown hrest hbs
      obtain ⟨a2, hlen, hall⟩ := ih (hform.mono ae.fills) hknown hrest
      subst hbs
      refine ⟨ae.trans a2, by simp [hlen], ?_⟩
      intro n l c hl hc
      cases n with
      | zero =>
        cases hl
        cases hc
        exact hb.mono a2.grows a2.fills
      | succ n => exact hall n l c (by simpa using hl) (by simpa using hc)
    cases hlook : known.lookup label with
    | some b =>
      rw [hlook] at h
      simp only [bind_eq_ok, pure_eq_ok] at h
      obtain ⟨rest, d1, h1, hbs, rfl⟩ := h
      exact close (Aside.refl d) (hknown label b hlook) hknown h1 hbs
    | none =>
      rw [hlook] at h
      simp only [bind_eq_ok, pure_eq_ok] at h
      obtain ⟨b, d1, h1, rest, d2, h2, hbs, rfl⟩ := h
      obtain ⟨a1, hb⟩ := edge_ok hform h1
      refine close a1 hb ?_ h2 hbs
      intro l c hl
      rw [lookup_cons] at hl
      split at hl
      · rename_i heq
        cases hl
        rw [beq_iff_eq.mp heq]
        exact hb
      · exact (hknown l c hl).mono a1.grows a1.fills

end Build

end ScoreWasm.Flow
