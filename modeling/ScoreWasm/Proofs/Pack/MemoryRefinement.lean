import ScoreWasm.Proofs.Pack.Fitting
import ScoreWasm.Proofs.Pack.Loading

/-!
# Linear memory is an array of bytes

The memory routines of a compiled module, run one after the other in any order, read and write single bytes:
what a load gives and what reading memory gives afterwards is what an array of bytes would give.
-/

namespace ScoreWasm.Pack

open Std Wasm Emit Machine Machine.View Word Library List

/-- **Linear memory refines an array of bytes.**  In a world that keeps bytes as linear memory, reading memory
gives those bytes; any sequence of loads and stores runs to its end; every load gives the number at its
address and changes no byte, and every store changes the addressed bytes alone. -/
theorem linear_memory_refines_bytes {m : Module} {o : Options} {registry : Host.Registry} {pk : Pack}
    (hc : compile m o registry = .ok pk) {p : Program} (hfunctions : p.functions = pk.program.functions)
    (hns : p.namespaceName = pk.ns) (hmax : 293 ≤ p.maxCommands) {n : Nat} (hn : n ≤ maxPages) {bytes : Nat → UInt8}
    {w : World} (hm : KeepsMemory pk.ns n bytes w) :
    ReadsAs p n bytes w ∧
      ∀ accesses : List Access, (∀ x ∈ accesses, x.Fits n) → Behaves p pk.ns n accesses bytes w := by
  have hp : HasMemory p pk.ns := by
    obtain ⟨hblank, hroutine⟩ := hasMemory hc
    refine ⟨hblank, fun r hr => ?_⟩
    unfold Program.Has
    rw [hfunctions]
    exact hroutine r hr
  exact ⟨readMemory_eq hns hm, fun accesses hfits => behaves hp hns hn hmax hm hfits⟩

/-! ### A module with nothing but memory -/

/-- A module with a memory of two pages. -/
def twoPages : Module := { Module.empty with memories := [⟨2, none⟩] }

theorem memoryWords_twoPages : memoryWords twoPages (some ⟨2, 32767⟩) = .ok [] := by
  show (pure ((((∅ : Words).toList).filter (fun w => w.2 != 0)).mergeSort (fun a b => a.1 ≤ b.1))
    : Except CompileError _) = _
  rw [HashMap.toList_empty, filter_nil, mergeSort_nil]
  rfl

theorem allCalls_nil : allCalls [] = [] := by
  show (List.mergeSort [] _).eraseReps = []
  rw [mergeSort_nil]
  rfl

/-- It is compiled: all its functions are those of the library and the one that prepares everything. -/
theorem compile_twoPages (registry : Host.Registry := []) :
    ∃ pk, compile twoPages .default registry = .ok pk ∧ pk.hasStart = false ∧ pk.memory = some ⟨2, 32767⟩ := by
  have hnamed : Named "wasm" := ⟨by decide, by decide, by decide⟩
  let H : Home := ⟨"wasm", true⟩
  obtain ⟨init, hinit⟩ : ∃ init, initScript "wasm" twoPages
      ((([] : List Routine) ++ Library.routines "wasm" (some 32) 0).flatMap (fun r => r.2.constants))
      (some ⟨2, 32767⟩) [] [] = .ok init := ⟨_, rfl⟩
  let d : Draft := ⟨.default, ⟨twoPages, []⟩, some ⟨2, 32767⟩, [], [], [], init⟩
  have hall : d.functions = d.named (Library.routines "wasm" (some 32) 0 ++ [("init", init)]) := by
    show d.named (([] ++ Library.routines "wasm" (some 32) 0) ++ (allCalls []).flatMap _) ++ []
      ++ d.named ([] ++ [("init", init)]) = _
    rw [allCalls_nil, flatMap_nil, append_nil, append_nil, nil_append, nil_append]
    exact map_append.symm
  have hfunctions : ∀ f ∈ d.functions, checkFunctionName f.1 = .ok () ∧ ∀ l ∈ f.2, l.HasBytes := by
    intro f hf
    rw [hall] at hf
    obtain ⟨r, hr, rfl⟩ := mem_map.mp hf
    rcases mem_append.mp hr with hr | hr
    · exact ⟨checkFunctionName_inNamespace hnamed (reaches_routines _ _ (by decide) r hr),
        fun l hl => (sound_routines (H := H) hnamed.isPlain (by decide) (fun _ => rfl) 0 r hr l hl).2⟩
    · rcases mem_singleton.mp hr with rfl
      obtain ⟨front, last, hlines, hfront, hlast, -⟩ := initScript_eq_ok (H := H) hinit
      refine ⟨checkFunctionName_inNamespace hnamed (by decide), ?_⟩
      show ∀ l ∈ init.lines, l.HasBytes
      rw [hlines]
      exact forall_mem_append.mpr ⟨hfront.hasBytes, hlast.hasBytes⟩
  refine ⟨d.pack, compile_of_steps rfl rfl rfl rfl rfl rfl memoryWords_twoPages
    rfl rfl rfl rfl hinit ?_ ?_, rfl, rfl⟩
  · exact Except.forM_eq_ok.mpr fun f hf => (hfunctions f hf).1
  · exact checkLines_byName fun f hf => (hfunctions f hf).2

/-- Accesses that are not aligned and cross the border of the two pages. -/
def crossingAccesses : List Access :=
  [.store .double 65533 (-2) 5, .load .double 65533, .load .half 65535, .store .byte 65536 (-1) 0,
    .load .word 65533, .store .word 131068 7 0, .load .byte 131071]

theorem linear_memory_refines_bytes_twoPages :
    ∃ pk p bytes w, compile twoPages .default [] = .ok pk ∧ p.functions = pk.program.functions ∧ reload p .fresh = .ok () w
      ∧ ReadsAs p 2 bytes w ∧ Behaves p pk.ns 2 crossingAccesses bytes w := by
  obtain ⟨pk, hc, hstart, hmemory⟩ := compile_twoPages
  have hpages : ∀ l, pk.memory = some l → 0 ≤ l.pages := by
    intro l hl
    rw [hmemory] at hl
    cases hl
    decide
  obtain ⟨k, hk⟩ := reload_keepsMemory hc hstart hpages
  let p : Program := { pk.program with maxCommands := max k 293 }
  obtain ⟨w, bytes, hload, hm⟩ := hk p rfl rfl (by simp [p])
  rw [hmemory] at hm
  obtain ⟨hreads, hbehaves⟩ := linear_memory_refines_bytes hc (p := p) rfl rfl (by simp [p]) (show 2 ≤ maxPages by decide) hm
  exact ⟨pk, p, bytes, w, hc, rfl, hload, hreads, hbehaves crossingAccesses (by decide)⟩

end ScoreWasm.Pack
