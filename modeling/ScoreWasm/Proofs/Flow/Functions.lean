import ScoreWasm.Proofs.Flow.Reading
import ScoreWasm.Proofs.Wasm.Tracking

/-!
# The functions of a checked module

Every function that a checked module defines has been read as a whole, and the blocks of its graph are
those that the construction has ended with.
-/

namespace ScoreWasm.Flow

open Wasm List
open Wasm.Validate (firstStacks)

variable {final : Draft} {cs : List Checked} {g : Graph} {m : Module} {f : Nat}

/-! ### Second arms -/

/-- Looking from the back, what is known of the constructs still open to the left. -/
theorem elseStep_enclosing (body : List Checked) (n : Nat) :
    ((body.foldr elseStep ([], [])).1.getD n false) = (afterElse? n (body.map Checked.instr)).isSome := by
  induction body generalizing n with
  | nil =>
    simp [afterElse?]
  | cons c rest ih =>
    rw [foldr_cons, map_cons]
    generalize rest.foldr elseStep ([], []) = state at ih
    obtain ⟨enclosing, flags⟩ := state
    have htail : ∀ k, enclosing.tail.getD k false = enclosing.getD (k + 1) false := by
      intro k
      simp [getD_eq_getElem?_getD, getElem?_tail]
    unfold elseStep
    cases hc : c.instr with
    | end_ =>
      cases n with
      | zero => rfl
      | succ n => exact ih n
    | else_ =>
      cases n with
      | zero => rfl
      | succ n => exact (htail n).trans (ih (n + 1))
    | block _ | loop _ | if_ _ => exact (htail n).trans (ih (n + 1))
    | _ => exact ih n

theorem elseFlags_cons (c : Checked) (rest : List Checked) : ∃ flag, elseFlags (c :: rest) = flag :: elseFlags rest ∧
      ∀ bt, c.instr = .if_ bt → flag = (afterElse? 0 (rest.map Checked.instr)).isSome := by
  unfold elseFlags
  rw [foldr_cons]
  have hhead := elseStep_enclosing rest 0
  generalize rest.foldr elseStep ([], []) = state at hhead
  obtain ⟨enclosing, flags⟩ := state
  unfold elseStep
  cases hc : c.instr with
  | if_ bt =>
    refine ⟨_, rfl, ?_⟩
    intro _ _
    rw [← hhead]
    cases enclosing <;> rfl
  | _ => exact ⟨false, rfl, fun bt h => by cases h⟩

/-! ### Whole bodies -/

theorem builds_of_forM {site : Site} : ∀ {cs : List Checked} {d : Draft} {u : Unit},
    ((cs.zip (elseFlags cs)).forM (fun (c, e) => Build.step site e c) : Build Unit) d = .ok (u, final) →
    Builds site final cs d
  | [], d, u, hb => by
    obtain ⟨-, rfl⟩ := StateT.pure_eq_ok.mp hb
    exact .done
  | c :: cs, d, u, hb => by
    obtain ⟨flag, hflags, hif⟩ := elseFlags_cons c cs
    rw [hflags, zip_cons_cons] at hb
    have hb : (Build.step site flag c >>= fun _ =>
        (cs.zip (elseFlags cs)).forM (fun (c, e) => Build.step site e c) : Build Unit) d = .ok (u, final) := hb
    obtain ⟨_, d', h1, h2⟩ := StateT.bind_eq_ok.mp hb
    exact .step hif h1 (builds_of_forM h2)

/-! ### Finished graphs -/

/-- The blocks of a graph are those of a draft, each with its terminator. -/
def Shows (g : Graph) (final : Draft) : Prop :=
  ∀ (b : Nat) (B : OpenBlock), final.blocks[b]? = some B → ∃ t, B.term = some t ∧
    g.blocks[b]? = some ⟨B.kind, B.height, B.instrs.toList, t⟩

theorem Shows.instr (h : Shows g final) {b n : Nat} {i : BlockInstr} (hi : final.instrAt b n = some i) :
    ∃ block, g.blocks[b]? = some block ∧ block.instrs[n]? = some i := by
  obtain ⟨B, hB, hn⟩ := Option.bind_eq_some_iff.mp hi
  obtain ⟨t, -, hb⟩ := h b B hB
  exact ⟨_, hb, by simpa using hn⟩

theorem Shows.term (h : Shows g final) {b n : Nat} {t : Terminator} (ht : final.termAt b n = some t) :
    ∃ block, g.blocks[b]? = some block ∧ block.instrs[n]? = none ∧ block.term = t := by
  obtain ⟨B, hB, hn⟩ := Option.bind_eq_some_iff.mp ht
  obtain ⟨t', ht', hb⟩ := h b B hB
  split at hn
  · rename_i hsize
    rw [hn] at ht'
    cases ht'
    refine ⟨_, hb, ?_, rfl⟩
    simp [← hsize]
  · cases hn

/-- The graph before the first instruction of a function. -/
def firstDraft (t : FuncType) : Draft :=
  ⟨#[⟨.entry, 0, #[], none⟩], 0, [⟨.function, ⟨[], t.results⟩, 0, none, none⟩]⟩

theorem firstDraft_open (t : FuncType) : (firstDraft t).Open 0 0 :=
  ⟨⟨.entry, 0, #[], none⟩, rfl, rfl, rfl⟩

theorem firstDraft_wf (t : FuncType) : (firstDraft t).WF := by
  have hnone : awaited (firstDraft t).scopes = [] := rfl
  refine ⟨⟨?_, ?_, ?_, ⟨_, rfl⟩⟩, ?_, fun _ => ⟨0, firstDraft_open t⟩⟩
  · rw [hnone]
    intro b hb
    cases hb
  · rw [hnone]
    exact nodup_nil
  · rw [hnone]
    exact not_mem_nil
  · intro s hs hf _
    rcases mem_singleton.mp hs with rfl
    exact absurd rfl hf

theorem sideBySide_first (code : List Instr) (t : FuncType) : SideBySide code (firstStacks t) (firstDraft t) := by
  refine ⟨firstDraft_wf _, ⟨rfl, rfl, fun _ => rfl, fun _ => rfl, trivial⟩, ?_⟩
  intro k s hs hk
  cases k with
  | zero =>
    cases hs
    cases hk
  | succ k => cases hs

theorem ofBody_ok (h : Graph.ofBody m f cs = .ok g) : g.type = m.funcType f ∧ ∃ final,
    Shows g final ∧ Builds ⟨m, f, m.funcType f⟩ final cs (firstDraft (m.funcType f)) := by
  unfold Graph.ofBody at h
  simp only [Except.bind_eq_ok] at h
  obtain ⟨⟨_, final⟩, hrun, blocks, hblocks, h⟩ := h
  cases h
  refine ⟨rfl, final, ?_, builds_of_forM hrun⟩
  intro b B hB
  obtain ⟨block, hb, hclose⟩ := Except.mapIdxM_eq_ok hblocks hB
  unfold closeBlock at hclose
  cases ht : B.term with
  | none =>
    rw [ht] at hclose
    cases hclose
  | some t =>
    rw [ht] at hclose
    cases hclose
    exact ⟨t, rfl, hb⟩

/-- **Every function that a checked module defines has been read as a whole.** -/
theorem function_read {v : Validated} {graphs : List Graph} (hv : validate m = .ok v)
    (hg : Graph.ofModule v = .ok graphs) {fn : Function} (hf : m.defined? f = some fn) :
    ∃ (k : Wasm.Source m v.bodies f) (g : Graph) (final : Draft), k.fn = fn ∧
      graphs[f - m.importCount]? = some g ∧ g.type = k.type ∧ Shows g final ∧
      At k final (fn.body.map Wasm.Placed.instr) (firstStacks k.type) (firstDraft k.type) := by
  obtain ⟨k, rfl, hplace⟩ := covered_of_validate hv f fn hf
  obtain ⟨t, cs, ht, hcs, hchecked⟩ := function_checked hv hf
  cases k.funcType.symm.trans ht
  cases k.checked.symm.trans hcs
  obtain ⟨-, hm, -⟩ := validate_module hv
  have hge : m.importCount ≤ f := by
    unfold Module.defined? at hf
    split at hf
    · cases hf
    · omega
  obtain ⟨-, hgraphs⟩ := Except.mapM_eq_ok hg
  have hpair : ((List.range v.bodies.length).zip v.bodies)[f - m.importCount]? = some (f - m.importCount, k.body) := by
    rw [getElem?_zip_eq_some]
    refine ⟨?_, hcs⟩
    rw [List.getElem?_range]
    exact (List.getElem?_eq_some_iff.mp hcs).1
  obtain ⟨g, hgi, hbody⟩ := hgraphs _ _ hpair
  simp only at hbody
  rw [hm, Nat.add_sub_cancel' hge] at hbody
  obtain ⟨hgt, final, hshows, hbuilds⟩ := ofBody_ok hbody
  rw [funcType_eq ht] at hgt hbuilds
  exact ⟨k, g, final, rfl, hgi, hgt, hshows, sideBySide_first _ _, hplace, 0, rfl, hchecked.instrs, hbuilds⟩

end ScoreWasm.Flow
