import ScoreWasm.Proofs.Emit.Fitting
import ScoreWasm.Proofs.Library.Access
import ScoreWasm.Proofs.Pack.Compilation
import ScoreWasm.Proofs.Pack.Names

/-!
# Functions of a compiled program

A program has every function under its name; of two functions with one name it has the later one.  The
functions that are made after the library have names of their own, so a program has the library.
-/

namespace ScoreWasm.Pack

open Std Wasm Emit Machine List HashMap Library

variable {m : Module} {ns : String} {o : Options} {registry : Host.Registry} {pk : Pack}

/-! ### Functions by name -/

section ByName

variable {α : Type} {pre post l : List (String × α)} {k : String} {a : α}

/-- The last of the functions with a name counts. -/
theorem getElem?_ofList_of_last (h : k ∉ post.map Prod.fst) :
    (ofList (pre ++ (k, a) :: post))[k]? = some a := by
  have hcontains : (post.map Prod.fst).contains k = false := by simpa using h
  rw [ofList_eq_insertMany_empty, insertMany_append, ← singleton_append, insertMany_append,
    getElem?_insertMany_list_of_contains_eq_false hcontains, insertMany_list_singleton,
    getElem?_insert_self]

theorem perm_sortBy (key : String × α → String) (l : List (String × α)) : (Text.sortBy key l).Perm l := by
  have h := (mergeSort_perm (l.map (fun x => (Text.codes (key x), x))) (fun a b => decide (a.1 ≤ b.1))).map Prod.snd
  rwa [map_map, show Prod.snd ∘ (fun x : String × α => (Text.codes (key x), x)) = id from rfl, map_id] at h

theorem mem_byName : (k, a) ∈ byName l ↔ (ofList l)[k]? = some a := by
  unfold byName
  rw [(perm_sortBy _ _).mem_iff, mem_toList_iff_getElem?_eq_some]

theorem distinct_byName : (byName l).Pairwise (fun a b => (a.1 == b.1) = false) := by
  have hsymm : Std.Symm (fun a b : String × α => (a.1 == b.1) = false) := ⟨fun a b h => by rwa [BEq.comm]⟩
  exact (List.Perm.pairwise_iff (fun h => hsymm.symm _ _ h) (perm_sortBy _ _)).mpr distinct_keys_toList

end ByName

namespace Draft

variable {d : Draft} {k : String} {lines : List Line}

theorem program_getElem? (h : (ofList d.functions)[k]? = some lines) :
    d.pack.program.functions[k]? = some (Function.ofLines lines) := by
  have hmem : (k, lines) ∈ byName d.functions := mem_byName.mpr h
  refine getElem?_ofList_of_mem BEq.rfl ?_ (mem_map.mpr ⟨(k, lines), hmem, rfl⟩)
  rw [pairwise_map]
  exact distinct_byName

end Draft

/-! ### Names of what is made after the library -/

theorem fits_indirectScripts {H : Home} {tables : List (List Int)} {c : IndirectCall} :
    ∀ s ∈ indirectScripts H.ns m tables c, Body s.1 ∧ s.2.Fits H 5 := by
  have hcases : ∀ {l : List Nat}, ∀ c ∈ l.map fun f : Nat => (⟨f, f, goto H.ns (blockPath f 0)⟩ : Case Command),
      c.body.Fits H 5 false := forall_mem_map.mpr fun f _ => fits_goto.mpr (body_blockPath f 0).level.le
  obtain ⟨hlines, hextra⟩ := fits_dispatch
    (fits_goto.mpr (level_trapPath .typeMismatch).le) (body_indirectPath c.table c.type) hcases
  exact forall_mem_append.mpr ⟨forall_mem_map.mpr hextra,
    forall_mem_singleton.mpr ⟨body_indirectPath c.table c.type, hlines⟩⟩

theorem exportEntries_functions {exports : List Export} {used : List String} {entries : List ExportEntry}
    (h : exportEntries ns m used exports = .ok entries) (e) (he : e ∈ entries) :
    ∃ path, e.function = inNamespace ns ("export/" ++ path) := by
  induction exports generalizing used entries with
  | nil =>
    cases h
    cases he
  | cons x rest ih =>
    unfold exportEntries at h
    split at h
    · exact ih h he
    split at h
    · cases h
    · obtain ⟨entries', hrest, h⟩ := Except.bind_eq_ok.mp h
      cases h
      rcases mem_cons.mp he with rfl | he
      · exact ⟨_, rfl⟩
      · exact ih hrest he

/-- A path that no function made after the library has. -/
structure Early (path : String) : Prop where
  body : ∀ a ∈ ["f", "rt/icall/"], ¬ a.toList <+: path.toList
  exported : ¬ "export/".toList <+: path.toList
  start : path ≠ "rt/start"
  init : path ≠ "init"

instance (path : String) : Decidable (Early path) :=
  decidable_of_iff ((∀ a ∈ ["f", "rt/icall/"], ¬ a.toList <+: path.toList) ∧ ¬ "export/".toList <+: path.toList ∧
    path ≠ "rt/start" ∧ path ≠ "init") ⟨fun ⟨h1, h2, h3, h4⟩ => ⟨h1, h2, h3, h4⟩, fun ⟨h1, h2, h3, h4⟩ => ⟨h1, h2, h3, h4⟩⟩

theorem early_tablePath (i : Nat) : Early (tablePath i) := by
  have hbegins : ∀ {s : String}, s.toList <+: (tablePath i).toList → s.toList.length ≤ 10 → s.toList <+: "rt/table/t".toList := by
    intro s hs hlen
    rw [tablePath, String.toList_append] at hs
    exact prefix_of_prefix_length_le hs (prefix_append ..) hlen
  have hlong : 10 ≤ (tablePath i).toList.length := by
    rw [tablePath, String.toList_append, length_append]
    exact Nat.le_add_right _ _
  have hbody : ∀ a ∈ ["f", "rt/icall/"], a.toList.length ≤ 10 ∧ ¬ a.toList <+: "rt/table/t".toList := by decide
  refine ⟨fun a ha h => (hbody a ha).2 (hbegins h (hbody a ha).1),
    fun h => absurd (hbegins h (by decide)) (by decide), fun h => ?_, fun h => ?_⟩
  · rw [h] at hlong
    exact absurd hlong (by decide)
  · rw [h] at hlong
    exact absurd hlong (by decide)

/-- No function made after the library has the path of one in it. -/
theorem early_routines (ns : String) (budget : Option Int) (tables : Nat) :
    ∀ r ∈ routines ns budget tables, Early r.1 :=
  forall_routines ns budget (by decide +kernel) fun i _ => early_tablePath i

/-- **A compiled program has the functions of the library.** -/
theorem has_library (h : compile m o registry = .ok pk) :
    ∃ tables : Nat, ∀ r ∈ routines pk.ns o.budget tables, pk.program.Has pk.ns r.1 r.2 := by
  obtain ⟨d, u, hosts, words, rfl, rfl, -, -, -, -, -, -, -, -, hexports, -, -, -⟩ := compile_eq_ok h
  refine ⟨d.tables.length, fun r hr => Draft.program_getElem? ?_⟩
  have hearly := early_routines _ _ _ r hr
  have hnodup := nodup_routines d.options.ns d.options.budget d.tables.length
  change r ∈ routines d.options.ns d.options.budget d.tables.length at hr
  obtain ⟨pre, post, hlib⟩ := append_of_mem hr
  have hpost : r.1 ∉ post.map Prod.fst := by
    rw [hlib, map_append, map_cons] at hnodup
    exact (nodup_cons.mp (nodup_append.mp hnodup).2.1).1
  have hsplit : d.functions = d.named (d.blocks ++ pre) ++
      (inNamespace d.options.ns r.1, r.2.lines) :: (d.named (post ++ d.indirect)
        ++ d.exports.map (fun e => (e.function, (startScript d.options.ns d.source.module e.index true).lines))
        ++ d.named (d.start ++ [("init", d.init)])) := by
    unfold Draft.functions Draft.named
    rw [show d.library = pre ++ r :: post from hlib]
    simp
  rw [hsplit]
  apply getElem?_ofList_of_last
  intro hmem
  simp only [map_append, mem_append, Draft.named, map_map, mem_map, Function.comp] at hmem
  rcases hmem with ((⟨x, hx, heq⟩ | ⟨x, hx, heq⟩) | ⟨e, he, heq⟩) | ⟨x, hx, heq⟩ | ⟨x, hx, heq⟩
  · exact hpost (mem_map.mpr ⟨x, hx, inNamespace_inj.mp heq⟩)
  · obtain ⟨c, -, hx⟩ := mem_flatMap.mp hx
    obtain ⟨⟨-, a, ha, b, hpath⟩, -⟩ := fits_indirectScripts (H := ⟨d.options.ns, true⟩) x hx
    apply hearly.body a ha
    rw [← inNamespace_inj.mp heq, hpath, String.toList_append]
    exact prefix_append ..
  · obtain ⟨q, hq⟩ := exportEntries_functions hexports e he
    rw [hq] at heq
    apply hearly.exported
    rw [← inNamespace_inj.mp heq, String.toList_append]
    exact prefix_append ..
  · unfold Draft.start at hx
    split at hx
    · rcases mem_singleton.mp hx with rfl
      exact hearly.start (inNamespace_inj.mp heq).symm
    · cases hx
  · rcases mem_singleton.mp hx with rfl
    exact hearly.init (inNamespace_inj.mp heq).symm

/-- A namespace has no other characters, but may have a line feed at its end. -/
theorem mem_namespace (h : checkNamespace ns = .ok ()) {c : Char} (hc : c ∈ ns.toList) :
    isNamespaceChar c = true ∨ c = '\n' := by
  unfold checkNamespace at h
  split at h
  case isFalse => cases h
  case isTrue hns =>
    simp only [isNamespace, Bool.and_eq_true, all_eq_true] at hns
    by_cases hlast : ns.toList.getLast? = some '\n'
    · obtain ⟨init, hinit⟩ := getLast?_eq_some_iff.mp hlast
      rw [hinit, mem_append, mem_singleton] at hc
      refine hc.imp (fun hc => hns.2 c ?_) id
      rwa [dropLineFeed, hinit, getLast?_concat, BEq.rfl, if_pos rfl, dropLast_concat]
    · refine .inl (hns.2 c ?_)
      rwa [dropLineFeed, if_neg (by simpa using hlast)]

theorem lacks_blank (h : checkNamespace ns = .ok ()) : Text.Lacks ' ' ns :=
  fun hblank => (mem_namespace h hblank).elim (by decide) (by decide)

/-- **A compiled program has the routines that load and store.** -/
theorem hasMemory (h : compile m o registry = .ok pk) : Library.HasMemory pk.program pk.ns := by
  obtain ⟨tables, hlibrary⟩ := has_library h
  refine ⟨?_, fun r hr => hlibrary r ?_⟩
  · obtain ⟨d, u, hosts, words, rfl, rfl, hns, -⟩ := compile_eq_ok h
    exact lacks_blank hns
  · simp only [mem_append] at hr
    simp only [routines, mem_append]
    tauto

end ScoreWasm.Pack
