import ScoreWasm.Proofs.Flow.Draft

/-!
# The construction, instruction by instruction

For each instruction, what the construction adds to the graph and where it goes on.  Every step keeps
the graph well formed, only adds to it, and leaves the open constructs as they are unless the
instruction opens or closes one.
-/

namespace ScoreWasm.Flow

open Wasm List
open ScoreWasm.StateT (bind_eq_ok get_eq_ok ite_eq_ok map_eq_ok modify_eq_ok pure_eq_ok)

/-- A graph under construction is well formed: the blocks that constructs wait for are there, and the
block being filled is open as long as a construct is. -/
structure Draft.WF (d : Draft) : Prop where
  reserved : d.Reserved
  formed : Build.Formed d.scopes
  opened : d.scopes ≠ [] → ∃ n, d.Open d.current n

namespace Build

variable {site : Site} {d d' : Draft} {n : Nat}

variable {b merge : Nat} {t : Terminator} {d1 d2 : Draft} {u v : Unit} {kind : BlockKind}
  {height l f : Int} {s : Scope} {ss : List Scope} {bt : BlockType} {other : Option Nat}

/-- A step within the open constructs: the graph has grown, and it is well formed. -/
structure Within (d d' : Draft) : Prop where
  grows : d.Grows d'
  fills : Fills d.scopes d'.scopes
  wf : d'.WF

/-! ### Going on in another block -/

/-- Ending the current block and entering one that nothing waits for. -/
theorem terminate_enter_ok {k : Nat} (hd : d.Reserved) (ho : d.Open d.current n) (hb : d.Open b k) (hne : b ≠ d.current)
    (hfree : b ∉ awaited d.scopes) (h1 : terminate t d = .ok (u, d1)) (h2 : enter b d1 = .ok (v, d')) :
    d.Grows d' ∧ d'.scopes = d.scopes ∧ d'.Reserved ∧ d'.current = b ∧ d'.Open b k ∧
      d'.termAt d.current n = some t := by
  obtain ⟨t1, hterm⟩ := terminate_ok ho h1
  obtain rfl := enter_ok h2
  have hd1 := t1.reserved hd.away hd
  have hb1 : d1.Open b k := (t1.open_of_ne hne).mpr hb
  refine ⟨t1.grows.trans (.of_blocks rfl), t1.scopes, ⟨hd1.empty, hd1.nodup, ?_, hb1.there⟩, rfl, hb1, hterm⟩
  rw [t1.scopes]
  exact hfree

theorem newBlock_terminate_enter_ok (hd : d.Reserved) (ho : d.Open d.current n)
    (h1 : newBlock site kind height d = .ok (b, d1)) (h2 : terminate t d1 = .ok (u, d2)) (h3 : enter b d2 = .ok (v, d'))
    : d.Grows d' ∧ d'.scopes = d.scopes ∧ d'.Reserved ∧ d'.current = b ∧ d'.Open b 0 ∧
      d'.termAt d.current n = some t ∧ d.blocks[b]? = none := by
  obtain ⟨t1, hfresh, hb⟩ := newBlock_ok h1
  have a1 := Aside.of_touches t1 hfresh
  have hne : b ≠ d1.current := by
    rw [a1.current]
    exact (ho.ne_of_fresh hfresh).symm
  have hfree : b ∉ awaited d1.scopes := by
    rw [t1.scopes]
    exact not_awaited_of_fresh hd hfresh
  obtain ⟨g, hss, hr, hcur, hopen, hterm⟩ :=
    terminate_enter_ok (a1.reserved hd) (a1.opened ho) hb hne hfree h2 h3
  rw [a1.current] at hterm
  exact ⟨a1.grows.trans g, hss.trans t1.scopes, hr, hcur, hopen, hterm, hfresh⟩

/-- What the steps that stay within the open constructs have in common. -/
theorem Within.of_reserved (hd : d.WF) (hg : d.Grows d') (hf : Fills d.scopes d'.scopes)
    (hr : d'.Reserved) (ho : ∃ k, d'.Open d'.current k) : Within d d' :=
  ⟨hg, hf, hr, hd.formed.mono hf, fun _ => ho⟩

/-- Ending the current block and going on in a new one that nothing leads to. -/
theorem terminate_enterDead_ok (hd : d.WF) (hg : d.Grows d1) (hf : Fills d.scopes d1.scopes) (hr : d1.Reserved)
    (ho : d1.Open d1.current n) (h1 : terminate t d1 = .ok (u, d2)) (h2 : enterDead site height d2 = .ok (v, d')) :
    Within d d' ∧ d1.Grows d' ∧ d'.scopes = d1.scopes ∧ d'.termAt d1.current n = some t := by
  unfold enterDead at h2
  rw [bind_eq_ok] at h2
  obtain ⟨b, d3, h2, h3⟩ := h2
  obtain ⟨t1, hterm⟩ := terminate_ok ho h1
  obtain ⟨t2, hfresh, hb⟩ := newBlock_ok h2
  obtain rfl := enter_ok h3
  have hr1 := t1.reserved hr.away hr
  have hr2 := (Aside.of_touches t2 hfresh).reserved hr1
  have hfree : b ∉ awaited d3.scopes := by
    rw [t2.scopes]
    exact not_awaited_of_fresh hr1 hfresh
  have g : d1.Grows { d3 with current := b } := (t1.grows.trans t2.grows).trans (.of_blocks rfl)
  have hss : d3.scopes = d1.scopes := t2.scopes.trans t1.scopes
  exact ⟨.of_reserved hd (hg.trans g) (hf.trans (.of_eq hss)) ⟨hr2.empty, hr2.nodup, hfree, hb.there⟩ ⟨0, hb⟩, g, hss,
    t2.grows.termAt hterm⟩

/-! ### Instructions that stay within a block -/

variable {hasElse : Bool} {c : Checked}

/-- An instruction becomes the next one of the current block. -/
structure Placed (c : Checked) (n : Nat) (d d' : Draft) : Prop where
  within : Within d d'
  current : d'.current = d.current
  here : d'.Open d'.current (n + 1)
  instr : d'.instrAt d.current n = some (.plain c)

theorem append_placed (hd : d.WF) (ho : d.Open d.current n)
    (h : append d.current (.plain c) d = .ok (u, d')) : Placed c n d d' := by
  obtain ⟨t, ho', hi⟩ := append_ok ho h
  have here : d'.Open d'.current (n + 1) := by
    rw [t.current]
    exact ho'
  exact ⟨.of_reserved hd t.grows (.of_eq t.scopes) (t.reserved hd.reserved.away hd.reserved) ⟨_, here⟩,
    t.current, here, hi⟩

/-- The instructions that a block holds as they are: those without control flow. -/
def isPlain : Instr → Bool
  | .drop | .select _ | .localGet _ | .localSet _ | .localTee _ | .globalGet _ | .globalSet _
  | .load _ _ | .store _ _ | .memorySize | .memoryGrow | .const _ _ | .num _ => true
  | _ => false

theorem step_nop (h : step site hasElse c d = .ok (u, d')) (hi : c.instr = .nop) : d' = d := by
  unfold step at h
  rw [hi] at h
  exact (pure_eq_ok.mp h).2.symm

section Step

variable (hd : d.WF) (ho : d.Open d.current n) (h : step site hasElse c d = .ok (u, d'))

include hd ho h

theorem step_plain (hi : isPlain c.instr = true) : Placed c n d d' := by
  have h : append d.current (.plain c) d = .ok (u, d') := by
    unfold step at h
    cases hc : c.instr <;> rw [hc] at h hi <;> first | exact h | cases hi
  exact append_placed hd ho h

/-! ### Branches and returns -/

theorem step_br (hi : c.instr = .br l) :
    Within d d' ∧ ∃ r, Branches site d'.scopes l c.height r ∧ Runs d' d.current n r := by
  unfold step at h
  rw [hi] at h
  simp only [bind_eq_ok] at h
  obtain ⟨⟨move, term⟩, d1, h1, h⟩ := h
  obtain ⟨a1, hr⟩ := resolve_ok hd.formed h1
  have hr1 := a1.reserved hd.reserved
  have ho1 := a1.opened ho
  cases move with
  | none =>
    simp only [bind_eq_ok] at h
    obtain ⟨_, d2, h2, h3⟩ := h
    obtain ⟨hwithin, -, hss, hterm⟩ := terminate_enterDead_ok hd a1.grows a1.fills hr1 ho1 h2 h3
    refine ⟨hwithin, (none, term), hss ▸ hr, ?_⟩
    rw [← a1.current]
    exact hterm
  | some i =>
    simp only [bind_eq_ok, get_eq_ok] at h
    obtain ⟨_, _, ⟨rfl, rfl⟩, _, d2, h2, _, d3, h3, h4⟩ := h
    obtain ⟨t2, ho2, hinstr⟩ := append_ok ho1 h2
    rw [← t2.current] at ho2
    obtain ⟨hwithin, g, hss, hterm⟩ := terminate_enterDead_ok hd (a1.grows.trans t2.grows)
      (a1.fills.trans (.of_eq t2.scopes)) (t2.reserved hr1.away hr1) ho2 h3 h4
    refine ⟨hwithin, (some i, term), ?_, ?_⟩
    · rw [hss, t2.scopes]
      exact hr
    · rw [t2.current] at hterm
      rw [← a1.current]
      exact ⟨g.instrAt hinstr, hterm⟩

theorem step_brIf (hi : c.instr = .brIf l) :
    Within d d' ∧ d'.Open d'.current 0 ∧ ∃ taken, Edge site d' l (c.height - 1) taken ∧
      d'.termAt d.current n = some (.branchIf (c.height - 1) taken d'.current) := by
  unfold step at h
  rw [hi] at h
  simp only [bind_eq_ok] at h
  obtain ⟨taken, d1, h1, b, d2, h2, _, d3, h3, h4⟩ := h
  obtain ⟨a1, hedge⟩ := edge_ok hd.formed h1
  obtain ⟨g, hss, hres, hcur, hopen, hterm, -⟩ :=
    newBlock_terminate_enter_ok (a1.reserved hd.reserved) (a1.opened ho) h2 h3 h4
  have hf : Fills d1.scopes d'.scopes := .of_eq hss
  rw [← hcur] at hopen hterm
  refine ⟨.of_reserved hd (a1.grows.trans g) (a1.fills.trans hf) hres ⟨0, hopen⟩, hopen, taken, hedge.mono g hf, ?_⟩
  rw [← a1.current]
  exact hterm

theorem step_brTable {ls : List Int} (hi : c.instr = .brTable ls l) :
    Within d d' ∧ ∃ bs : List Nat, bs.length = (ls ++ [l]).length ∧
      (∀ (k : Nat) (label : Int) (b : Nat), (ls ++ [l])[k]? = some label → bs[k]? = some b →
        Edge site d' label (c.height - 1) b) ∧
      d'.termAt d.current n = some (.branchTable (c.height - 1) bs.dropLast (bs.getLastD 0)) := by
  unfold step at h
  rw [hi] at h
  simp only [bind_eq_ok] at h
  obtain ⟨bs, d1, h1, _, d2, h2, h3⟩ := h
  obtain ⟨a1, hlen, hedges⟩ := tableEdges_ok hd.formed (by simp) h1
  obtain ⟨hwithin, g, hss, hterm⟩ :=
    terminate_enterDead_ok hd a1.grows a1.fills (a1.reserved hd.reserved) (a1.opened ho) h2 h3
  refine ⟨hwithin, bs, hlen, ?_, ?_⟩
  · intro k label b hl hb
    exact (hedges k label b hl hb).mono g (.of_eq hss)
  · rw [← a1.current]
    exact hterm

omit h in
/-- Ending the current block where nothing follows. -/
theorem stop_within (h : (do terminate t; enterDead site height : Build Unit) d = .ok (u, d')) :
    Within d d' ∧ d'.termAt d.current n = some t := by
  simp only [bind_eq_ok] at h
  obtain ⟨_, d1, h1, h2⟩ := h
  obtain ⟨hwithin, -, -, hterm⟩ := terminate_enterDead_ok hd (.refl d) (.refl _) hd.reserved ho h1 h2
  exact ⟨hwithin, hterm⟩

theorem step_ret (hi : c.instr = .ret) :
    Within d d' ∧ d'.termAt d.current n = some (.ret (c.height - site.type.results.length)) := by
  unfold step at h
  rw [hi] at h
  exact stop_within hd ho h

theorem step_unreachable {kind : Option Trap} (hi : c.instr = .unreachable kind) :
    Within d d' ∧ d'.termAt d.current n = some (.unreachable (kind.getD .unreachable)) := by
  unfold step at h
  rw [hi] at h
  exact stop_within hd ho h

/-! ### Calls -/

/-- A call ends its block, and the next one starts by bringing back what the call has saved. -/
structure Called (live results : List ValType) (base : Int) (term : Nat → Terminator) (n : Nat)
    (d d' : Draft) : Prop where
  within : Within d d'
  here : d'.Open d'.current 1
  term : d'.termAt d.current n = some (term d'.current)
  resume : d'.instrAt d'.current 0 = some (.resume live results base)

omit h in
theorem callThen_ok {base : Int} {live : List ValType} {callee : FuncType} {term : Nat → Terminator}
    (h : callThen site base live callee term d = .ok (u, d')) : Called live callee.results base term n d d' := by
  unfold callThen at h
  simp only [bind_eq_ok] at h
  obtain ⟨b, d1, h1, _, d2, h2, _, d3, h3, h4⟩ := h
  obtain ⟨t1, hfresh, hb⟩ := newBlock_ok h1
  have a1 := Aside.of_touches t1 hfresh
  have hr1 := a1.reserved hd.reserved
  obtain ⟨t2, hterm⟩ := terminate_ok (a1.opened ho) h2
  have hne : b ≠ d1.current := by
    rw [a1.current]
    exact (ho.ne_of_fresh hfresh).symm
  obtain ⟨t3, hb3, hinstr⟩ := append_ok ((t2.open_of_ne hne).mpr hb) h3
  obtain rfl := enter_ok h4
  have hfree : b ∉ awaited d.scopes := not_awaited_of_fresh hd.reserved hfresh
  have hr2 := t2.reserved hr1.away hr1
  have hr3 := t3.reserved (by rw [t2.scopes, t1.scopes]; exact hfree) hr2
  have hss : d3.scopes = d.scopes := t3.scopes.trans (t2.scopes.trans t1.scopes)
  refine ⟨.of_reserved hd (((t1.grows.trans t2.grows).trans t3.grows).trans (.of_blocks rfl)) (.of_eq hss)
    ⟨hr3.empty, hr3.nodup, ?_, hb3.there⟩ ⟨1, hb3⟩, hb3, ?_, hinstr⟩
  · show b ∉ awaited d3.scopes
    rw [hss]
    exact hfree
  · rw [← a1.current]
    exact t3.grows.termAt hterm

theorem step_call_import (hi : c.instr = .call f) (himp : site.module.isImport f = true) : Placed c n d d' := by
  have h : append d.current (.plain c) d = .ok (u, d') := by
    unfold step at h
    rw [hi] at h
    simp only [himp, if_true] at h
    exact h
  exact append_placed hd ho h

theorem step_call (hi : c.instr = .call f) (himp : site.module.isImport f = false) :
    let callee := site.module.funcType f
    let base := (c.height : Int) - callee.params.length
    let live := operandsBelow base (c.stack.getD [])
    Called live callee.results base (fun cont => .call f cont base live callee.params callee.results) n d d' := by
  unfold step at h
  rw [hi] at h
  simp only [himp, Bool.false_eq_true, if_false] at h
  exact callThen_ok hd ho h

theorem step_callIndirect {type table : Int} (hi : c.instr = .callIndirect type table) :
    let callee := (site.module.typeAt? type).getD ⟨[], []⟩
    let base := (c.height : Int) - 1 - callee.params.length
    let live := operandsBelow base (c.stack.getD [])
    Called live callee.results base
      (fun cont => .callIndirect type table cont base live callee.params callee.results) n d d' := by
  unfold step at h
  rw [hi] at h
  exact callThen_ok hd ho h

/-! ### Opening constructs -/

/-- A construct has been opened. -/
structure Opens (s : Scope) (d d' : Draft) : Prop where
  grows : d.Grows d'
  scopes : d'.scopes = s :: d.scopes
  wf : d'.WF

omit hd ho h in
theorem Opens.scope (h : Opens s d d') : d'.scopes[0]? = some s := by
  rw [h.scopes]
  rfl

omit hd ho h in
theorem formed_cons (hs : s.kind = .block ∨ s.target.isSome) (h : Formed ss) : Formed (s :: ss) := by
  intro t ht hf hb
  rcases mem_cons.mp ht with rfl | ht
  · exact hs.resolve_left hb
  · exact h t ht hf hb

theorem step_block {t : FuncType} (hi : c.instr = .block bt) (ht : c.blockType = some t) :
    Opens ⟨.block, t, c.height - t.params.length, none, none⟩ d d' ∧ d'.current = d.current ∧ d'.Open d'.current n := by
  unfold step at h
  rw [hi, ht] at h
  obtain rfl := modify_eq_ok.mp h
  refine ⟨⟨.of_blocks rfl, rfl, ⟨hd.reserved.empty, hd.reserved.nodup, hd.reserved.away,
    hd.reserved.there⟩, formed_cons (.inl rfl) hd.formed, fun _ => ⟨n, ho⟩⟩, rfl, ho⟩

theorem step_loop {t : FuncType} (hi : c.instr = .loop bt) (ht : c.blockType = some t) :
    Opens ⟨.loop, t, c.height - t.params.length, some d'.current, none⟩ d d' ∧
      d'.termAt d.current n = some (.fallthrough d'.current) ∧ d'.Open d'.current 0 := by
  unfold step at h
  rw [hi, ht] at h
  simp only [bind_eq_ok] at h
  obtain ⟨b, d1, h1, _, d2, h2, _, d3, h3, h4⟩ := h
  obtain ⟨g, hss, hr, hcur, hopen, hterm, -⟩ :=
    newBlock_terminate_enter_ok hd.reserved ho h1 h2 h3
  obtain rfl := modify_eq_ok.mp h4
  subst hcur
  refine ⟨⟨g.trans (.of_blocks rfl), ?_, ⟨hr.empty, hr.nodup, hr.away, hr.there⟩, ?_,
    fun _ => ⟨0, hopen⟩⟩, hterm, hopen⟩
  · show _ :: d3.scopes = _ :: d.scopes
    rw [hss]
    rfl
  · show Formed (_ :: d3.scopes)
    rw [hss]
    exact formed_cons (.inr rfl) hd.formed

/-- Blocks have been added, each of them empty, and all the others are as they were. -/
structure Adds (new : List Nat) (d d' : Draft) : Prop where
  aside : Aside d d'
  scopes : d'.scopes = d.scopes
  keeps : ∀ b k, d.Open b k → d'.Open b k
  nodup : new.Nodup
  fresh : ∀ b ∈ new, d.blocks[b]? = none ∧ d'.Open b 0

omit hd ho h in
theorem Adds.append {new more : List Nat} (h : Adds new d d1) (k : Adds more d1 d2) : Adds (new ++ more) d d2 := by
  refine ⟨h.aside.trans k.aside, k.scopes.trans h.scopes,
    fun b n hb => k.keeps b n (h.keeps b n hb), nodup_append.mpr ⟨h.nodup, k.nodup, ?_⟩, ?_⟩
  · rintro x hx y hy rfl
    exact (h.fresh x hx).2.ne_of_fresh (k.fresh x hy).1 rfl
  · intro x hx
    rcases mem_append.mp hx with hx | hx
    · exact ⟨(h.fresh x hx).1, k.keeps x 0 (h.fresh x hx).2⟩
    · refine ⟨?_, (k.fresh x hx).2⟩
      cases hB : d.blocks[x]? with
      | none => rfl
      | some B =>
        obtain ⟨B', hB', -⟩ := h.aside.grows x B hB
        rw [(k.fresh x hx).1] at hB'
        cases hB'

omit hd ho h in
theorem newBlock_adds (h : newBlock site kind height d = .ok (b, d')) : Adds [b] d d' := by
  obtain ⟨t, hfresh, hb⟩ := newBlock_ok h
  exact ⟨.of_touches t hfresh, t.scopes, fun c k hc => (t.open_of_ne (hc.ne_of_fresh hfresh)).mpr hc,
    by simp, fun x hx => by rw [mem_singleton.mp hx]; exact ⟨hfresh, hb⟩⟩

omit hd ho h in
/-- The second arm of an `if` gets a block if there is such an arm. -/
theorem elseBlock_ok
    (h : hasElse = true ∧ (∃ b, newBlock site .else_ height d = .ok (b, d') ∧ some b = other) ∨ ¬hasElse = true ∧ none = other ∧ d = d') :
    Adds other.toList d d' ∧ other.isSome = hasElse := by
  rcases h with ⟨he, b, h1, rfl⟩ | ⟨he, rfl, rfl⟩
  · exact ⟨newBlock_adds h1, by simp [he]⟩
  · exact ⟨⟨.refl _, rfl, fun _ _ h => h, nodup_nil, nofun⟩, by simpa using he⟩

omit hd ho h in
/-- A new construct waits for blocks that were added for it, and one more of these is filled from now on. -/
theorem Adds.reserved {new : List Nat} (h : Adds new d d1) (hnew : (b :: s.awaits).Perm new)
    (hd : d.Reserved) (hscopes : d'.scopes = s :: d.scopes) (hcur : d'.current = b)
    (hsame : ∀ x, x ≠ d.current → d'.blocks[x]? = d1.blocks[x]?) : d'.Reserved := by
  have hopen : ∀ x, x ≠ d.current → d1.Open x 0 → d'.Open x 0 := by
    intro x hx hx1
    unfold Draft.Open
    rw [hsame x hx]
    exact hx1
  -- What was not there before is neither the block being filled nor waited for.
  have hfresh : ∀ x ∈ b :: s.awaits, d'.Open x 0 ∧ x ∉ awaited d.scopes := by
    intro x hx
    obtain ⟨hnone, hx1⟩ := h.fresh x (hnew.mem_iff.mp hx)
    refine ⟨hopen x ?_ hx1, not_awaited_of_fresh hd hnone⟩
    rintro rfl
    obtain ⟨B, hB⟩ := hd.there
    rw [hnone] at hB
    cases hB
  have hawaited : awaited d'.scopes = s.awaits ++ awaited d.scopes := by
    rw [hscopes]
    rfl
  obtain ⟨hb, hnodup⟩ := nodup_cons.mp (hnew.nodup_iff.mpr h.nodup)
  refine ⟨?_, ?_, ?_, ?_⟩
  · intro x hx
    rw [hawaited] at hx
    rcases mem_append.mp hx with hx | hx
    · exact (hfresh x (mem_cons_of_mem b hx)).1
    · refine hopen x ?_ (h.keeps x 0 (hd.empty x hx))
      rintro rfl
      exact hd.away hx
  · rw [hawaited]
    refine nodup_append.mpr ⟨hnodup, hd.nodup, ?_⟩
    rintro x hx y hy rfl
    exact (hfresh x (mem_cons_of_mem b hx)).2 hy
  · rw [hcur, hawaited]
    exact fun hx => (mem_append.mp hx).elim hb (hfresh b mem_cons_self).2
  · rw [hcur]
    exact (hfresh b mem_cons_self).1.there

/-- At an `if` there are blocks for the first arm, for the second one if there is one, and for what
follows; the last two are waited for. -/
theorem step_if {t : FuncType} (hi : c.instr = .if_ bt) (ht : c.blockType = some t) :
    ∃ merge other, other.isSome = hasElse ∧ Opens ⟨.if_, t, c.height - 1 - t.params.length, some merge, other⟩ d d' ∧
      d'.termAt d.current n = some (.branchIf (c.height - 1) d'.current (other.getD merge)) ∧ d'.Open d'.current 0 := by
  unfold step at h
  rw [hi, ht] at h
  simp only [bind_eq_ok] at h
  obtain ⟨b, d1, h1, h⟩ := h
  obtain ⟨other, d2, merge, d3, d4, h2, h3, h4, hd'⟩ : ∃ other d2 merge d3 d4,
      (hasElse = true ∧ (∃ b, newBlock site .else_ (c.height - 1) d1 = .ok (b, d2) ∧
        some b = other) ∨ ¬hasElse = true ∧ none = other ∧ d1 = d2) ∧
      newBlock site .merge (c.height - 1 - t.params.length + t.results.length) d2 = .ok (merge, d3) ∧
      terminate (.branchIf (c.height - 1) b (other.getD merge)) d3 = .ok ((), d4) ∧
      d' = ⟨d4.blocks, b, ⟨.if_, t, c.height - 1 - t.params.length, some merge, other⟩ :: d4.scopes⟩ := by
    simp only [ite_eq_ok, bind_eq_ok, map_eq_ok, pure_eq_ok] at h
    rcases h with ⟨he, other, d2, ⟨x, h2, rfl⟩, merge, d3, h3, _, d4, h4, _, d5, h5, h6⟩ |
      ⟨he, other, d2, ⟨rfl, rfl⟩, merge, d3, h3, _, d4, h4, _, d5, h5, h6⟩
    · obtain rfl := modify_eq_ok.mp h5
      exact ⟨some x, d2, merge, d3, d4, .inl ⟨he, x, h2, rfl⟩, h3, h4, enter_ok h6⟩
    · obtain rfl := modify_eq_ok.mp h5
      exact ⟨none, d1, merge, d3, d4, .inr ⟨he, rfl, rfl⟩, h3, h4, enter_ok h6⟩
  obtain ⟨a2, hsome⟩ := elseBlock_ok h2
  have a : Adds (b :: (other.toList ++ [merge])) d d3 := (newBlock_adds h1).append (a2.append (newBlock_adds h3))
  obtain ⟨t4, hterm⟩ := terminate_ok (a.aside.opened ho) h4
  rw [a.aside.current] at t4 hterm
  have hscopes : d4.scopes = d.scopes := t4.scopes.trans a.scopes
  obtain ⟨hfresh, hb⟩ := a.fresh b mem_cons_self
  have hb4 : d4.Open b 0 := (t4.open_of_ne (ho.ne_of_fresh hfresh).symm).mpr hb
  subst hd'
  refine ⟨merge, other, hsome, ⟨(a.aside.grows.trans t4.grows).trans (.of_blocks rfl), ?_, ?_, ?_, ?_⟩, hterm, hb4⟩
  · rw [hscopes]
  · exact a.reserved ((perm_append_singleton merge other.toList).symm.cons b) hd.reserved (by rw [hscopes]) rfl t4.same
  · rw [hscopes]
    exact formed_cons (.inr rfl) hd.formed
  · exact fun _ => ⟨0, hb4⟩

/-! ### Second arms and ends -/

omit hd ho h in
theorem awaited_cons (hss : d.scopes = s :: ss) : awaited d.scopes = s.awaits ++ awaited ss := by
  rw [hss]
  rfl

omit ho h in
/-- What is waited for without the innermost construct. -/
theorem reserved_tail (hss : d.scopes = s :: ss) : Draft.Reserved { d with scopes := ss } ∧ Formed ss := by
  have hr := hd.reserved
  have hawaited := awaited_cons hss
  refine ⟨⟨?_, ?_, ?_, hr.there⟩, ?_⟩
  · intro x hx
    exact hr.empty x (by rw [hawaited]; exact mem_append_right _ hx)
  · have := hr.nodup
    rw [hawaited] at this
    exact (nodup_append.mp this).2.1
  · intro hx
    exact hr.away (by rw [hawaited]; exact mem_append_right _ hx)
  · intro t ht
    exact hd.formed t (by rw [hss]; exact mem_cons_of_mem _ ht)

/-- At an `else` the first arm goes on behind the construct, and the second one is filled from now on. -/
theorem step_else {other : Nat} (hi : c.instr = .else_) (hss : d.scopes = s :: ss)
    (hk : s.kind = .if_) (hmerge : s.target = some merge) (hother : s.elseBlock = some other) :
    d.Grows d' ∧ d'.WF ∧ d'.scopes = { s with kind := .else_ } :: ss ∧ d'.current = other ∧
      d'.Open other 0 ∧ d'.termAt d.current n = some (.fallthrough merge) := by
  unfold step at h
  rw [hi] at h
  unfold turnElse at h
  simp only [bind_eq_ok, get_eq_ok] at h
  obtain ⟨_, _, ⟨rfl, rfl⟩, h⟩ := h
  rename_i d
  rw [hss] at h
  simp only [bind_eq_ok] at h
  obtain ⟨_, d1, h1, _, d2, h2, h3⟩ := h
  rw [hmerge, Option.getD_some] at h1
  rw [hother, Option.getD_some] at h3
  obtain ⟨t1, hterm⟩ := terminate_ok ho h1
  obtain rfl := modify_eq_ok.mp h2
  obtain rfl := enter_ok h3
  have hr := hd.reserved
  have hawaits : s.awaits = [merge, other] := by
    simp [Scope.awaits, hk, hmerge, hother]
  have hawaited : awaited d.scopes = merge :: other :: awaited ss := by
    rw [awaited_cons hss, hawaits]
    rfl
  have hawaited' : awaited ({ s with kind := .else_ } :: ss) = merge :: awaited ss := by
    show Scope.awaits { s with kind := .else_ } ++ awaited ss = _
    simp [Scope.awaits, hmerge]
  have hr1 := t1.reserved hr.away hr
  have hmem : ∀ x ∈ merge :: awaited ss, x ∈ awaited d1.scopes := by
    intro x hx
    rw [t1.scopes, hawaited]
    rcases mem_cons.mp hx with rfl | hx
    · simp
    · simp [hx]
  have hnodup := hr.nodup
  rw [hawaited] at hnodup
  obtain ⟨hm, hnodup⟩ := nodup_cons.mp hnodup
  obtain ⟨hx, hnodup⟩ := nodup_cons.mp hnodup
  have hopen : d1.Open other 0 := hr1.empty other (by rw [t1.scopes, hawaited]; simp)
  refine ⟨t1.grows.trans (.of_blocks rfl), ⟨⟨?_, ?_, ?_, hopen.there⟩,
    formed_cons (.inr (by rw [hmerge]; rfl)) (reserved_tail hd hss).2, fun _ => ⟨0, hopen⟩⟩, rfl, rfl, hopen, hterm⟩
  · intro x hx
    rw [hawaited'] at hx
    exact hr1.empty x (hmem x hx)
  · rw [hawaited']
    exact nodup_cons.mpr ⟨fun h => hm (mem_cons_of_mem _ h), hnodup⟩
  · show other ∉ awaited ({ s with kind := .else_ } :: ss)
    rw [hawaited']
    intro h
    rcases mem_cons.mp h with h | h
    · exact hm (by rw [h]; simp)
    · exact hx h

omit hd ho h in
theorem closeScope_eq (hss : d.scopes = s :: ss) : closeScope d = (match s.kind, s.target with
      | .function, _ => terminate (.ret 0)
      | .loop, _ | _, none => return ()
      | _, some target => do
        terminate (.fallthrough target)
        enter target : Build Unit) { d with scopes := ss } := by
  cases d
  cases hss
  rfl

omit hd in
theorem step_end_function (hi : c.instr = .end_) (hss : d.scopes = s :: ss) (hk : s.kind = .function) :
    d.Grows d' ∧ d'.scopes = ss ∧ (ss = [] → d'.WF) ∧ d'.termAt d.current n = some (.ret 0) := by
  unfold step at h
  rw [hi] at h
  simp only [closeScope_eq hss, hk] at h
  obtain ⟨t, hterm⟩ := terminate_ok (d := { d with scopes := ss }) ho h
  have hscopes : d'.scopes = ss := t.scopes
  refine ⟨t.grows, hscopes, ?_, hterm⟩
  rintro rfl
  obtain ⟨B, hB, -⟩ := ho
  obtain ⟨B', hB', -⟩ := t.grows _ B hB
  have hcur : d'.current = d.current := t.current
  refine ⟨⟨?_, ?_, ?_, B', by rw [hcur]; exact hB'⟩, ?_, ?_⟩ <;> rw [hscopes] <;> simp [awaited, Formed]

/-- The end of a construct that nothing has branched to leads on to the next instruction. -/
theorem step_end_on (hi : c.instr = .end_) (hss : d.scopes = s :: ss) (hk : s.kind ≠ .function)
    (ht : s.kind = .loop ∨ s.target = none) : d' = { d with scopes := ss } ∧ d'.WF := by
  unfold step at h
  rw [hi] at h
  simp only [closeScope_eq hss] at h
  have hd' : d' = { d with scopes := ss } := by
    rcases ht with ht | ht
    · rw [ht] at h
      exact (pure_eq_ok.mp h).2.symm
    · rw [ht] at h
      cases hkind : s.kind <;> rw [hkind] at h hk
      · exact absurd rfl hk
      all_goals exact (pure_eq_ok.mp h).2.symm
  subst hd'
  obtain ⟨hr, hf⟩ := reserved_tail hd hss
  exact ⟨rfl, hr, hf, fun _ => ⟨n, ho⟩⟩

/-- The end of another construct leads to the block that was waited for. -/
theorem step_end_merge (hi : c.instr = .end_) (hss : d.scopes = s :: ss) (hk : s.kind ≠ .function) (hl : s.kind ≠ .loop)
    (ht : s.target = some merge) : d.Grows d' ∧ d'.WF ∧ d'.scopes = ss ∧ d'.current = merge ∧
      d'.Open merge 0 ∧ d'.termAt d.current n = some (.fallthrough merge) := by
  unfold step at h
  rw [hi] at h
  simp only [closeScope_eq hss] at h
  have h : (do terminate (.fallthrough merge); enter merge : Build Unit) { d with scopes := ss } = .ok (u, d') := by
    rw [ht] at h
    cases hkind : s.kind <;> rw [hkind] at h hk hl
    · exact absurd rfl hk
    · exact h
    · exact absurd rfl hl
    all_goals exact h
  rw [bind_eq_ok] at h
  obtain ⟨_, d1, h1, h2⟩ := h
  obtain ⟨hr, hf⟩ := reserved_tail hd hss
  have hawaits : merge ∈ s.awaits := by
    simp [Scope.awaits, hl, ht]
  have hawaited := awaited_cons hss
  have hmem : merge ∈ awaited d.scopes := by
    rw [hawaited]
    exact mem_append_left _ hawaits
  have hne : merge ≠ d.current := by
    rintro rfl
    exact hd.reserved.away hmem
  have hfree : merge ∉ awaited ss := by
    intro hx
    have := hd.reserved.nodup
    rw [hawaited] at this
    exact (nodup_append.mp this).2.2 merge hawaits merge hx rfl
  obtain ⟨g, hscopes, hr', hcur, hopen, hterm⟩ := terminate_enter_ok
    hr ho (hd.reserved.empty merge hmem) hne hfree h1 h2
  refine ⟨g, ⟨hr', ?_, fun _ => ⟨0, ?_⟩⟩, hscopes, hcur, hopen, hterm⟩
  · rw [hscopes]
    exact hf
  · rw [hcur]
    exact hopen

end Step

end Build

end ScoreWasm.Flow
