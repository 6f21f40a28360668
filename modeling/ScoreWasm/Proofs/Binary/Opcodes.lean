import ScoreWasm.Wasm.Binary.Decode

/-!
# Opcodes and their bytes

Every opcode of the format has a byte of its own, and none of these bytes announces a feature beyond the
format.
-/

namespace ScoreWasm.Wasm

open List

theorem LoadOp.size_pos (op : LoadOp) : 0 < op.size := by
  cases op with
  | whole t => cases t <;> simp [LoadOp.size, ValType.size, ValType.isWide]
  | part n signed => cases n <;> simp [LoadOp.size, Narrow.bits]

theorem StoreOp.size_pos (op : StoreOp) : 0 < op.size := by
  cases op with
  | whole t => cases t <;> simp [StoreOp.size, ValType.size, ValType.isWide]
  | part n => cases n <;> simp [StoreOp.size, Narrow.bits]

namespace Opcode

variable {o : Opcode} {b : UInt8}

/-- The opcode has a byte. -/
def Listed (o : Opcode) : Prop := ∃ b, (b, o) ∈ table

theorem listed_iff : o.Listed ↔ o ∈ control.map Prod.snd ++ LoadOp.all.map load ++
    StoreOp.all.map store ++ NumOp.all.map num := by
  have hmap {α : Type} (f : Nat → α → UInt8) (g : α → Opcode) (l : List α) :
      (l.mapIdx fun i a => (f i a, g a)).map Prod.snd = l.map g := by
    apply ext_getElem <;> simp
  have hlisted : o.Listed ↔ o ∈ table.map Prod.snd := by simp [Listed]
  rw [hlisted]
  simp only [table, map_append, hmap]

theorem Listed.mem (h : o.Listed) : (o.byte, o) ∈ table := by
  obtain ⟨b, hb⟩ := h
  unfold Opcode.byte
  cases hf : table.find? (fun e => e.2 == o) with
  | none => exact absurd (find?_eq_none.mp hf _ hb) (by simp)
  | some e =>
    have ho : e.2 = o := by simpa using find?_some hf
    exact ho ▸ mem_of_find?_eq_some hf

theorem mem_of_ofByte? (h : Opcode.ofByte? b = some o) : (b, o) ∈ table := by
  obtain ⟨e, he, rfl⟩ := Option.map_eq_some_iff.mp h
  have hb : e.1 = b := by simpa using find?_some he
  exact hb ▸ mem_of_find?_eq_some he

theorem find?_of_nodup {l : List (UInt8 × Opcode)} {e : UInt8 × Opcode} (hmem : e ∈ l) :
    (l.map (fun e => e.1.toNat)).Nodup → l.find? (fun x => x.1 == e.1) = some e := by
  induction l with
  | nil => cases hmem
  | cons x l ih =>
    intro h
    rw [map_cons, nodup_cons] at h
    rcases mem_cons.mp hmem with rfl | hmem
    · simp
    · have hne : (x.1 == e.1) = false := by
        rw [beq_eq_false_iff_ne]
        intro heq
        exact h.1 (mem_map.mpr ⟨e, hmem, by rw [heq]⟩)
      rw [find?_cons, hne]
      exact ih hmem h.2

theorem listed_control (h : control.any (fun e => e.2 == o) = true) : o.Listed := by
  simp only [any_eq_true, beq_iff_eq] at h
  exact listed_iff.mpr (by simp [mem_map.mpr h])

theorem listed_load {op : LoadOp} : (load op).Listed ↔ op ∈ LoadOp.all := by simp [listed_iff, control]

theorem listed_store {op : StoreOp} : (store op).Listed ↔ op ∈ StoreOp.all := by simp [listed_iff, control]

theorem not_listed_const_other (name : String) : ¬(const (.other name)).Listed := by
  simp [listed_iff, control]

/-- Different opcodes have different bytes. -/
theorem table_nodup : (table.map (fun e => e.1.toNat)).Nodup := by
  decide +kernel

theorem ofByte?_of_mem (h : (b, o) ∈ table) : Opcode.ofByte? b = some o := by
  unfold Opcode.ofByte?
  rw [find?_of_nodup h table_nodup]
  rfl

/-- No opcode announces a feature beyond the format. -/
theorem table_noFeature : ∀ e ∈ table, Binary.prefixFeature? e.1 = none ∧ Binary.laterFeature? e.1 = none := by
  decide +kernel

theorem Listed.ofByte? (h : o.Listed) : Opcode.ofByte? o.byte = some o ∧
    Binary.prefixFeature? o.byte = none ∧ Binary.laterFeature? o.byte = none :=
  ⟨ofByte?_of_mem h.mem, table_noFeature _ h.mem⟩

end Opcode

theorem NumOp.mem_all (op : NumOp) : op ∈ NumOp.all := by
  have hrel : ∀ r : IntRel, r ∈ IntRel.all := by intro r; cases r <;> decide
  have hfrel : ∀ r : FloatRel, r ∈ FloatRel.all := by intro r; cases r <;> decide
  have hun : ∀ r : IntUn, r ∈ IntUn.all := by intro r; cases r <;> decide
  have hbin : ∀ r : IntBin, r ∈ IntBin.all := by intro r; cases r <;> decide
  have hfun : ∀ r : FloatUn, r ∈ FloatUn.all := by intro r; cases r <;> decide
  have hfbin : ∀ r : FloatBin, r ∈ FloatBin.all := by intro r; cases r <;> decide
  cases op with
  | eqz w => cases w <;> simp [NumOp.all]
  | intRel w r => cases w <;> simp [NumOp.all, hrel]
  | floatRel w r => cases w <;> simp [NumOp.all, hfrel]
  | intUn w r => cases w <;> simp [NumOp.all, hun]
  | intBin w r => cases w <;> simp [NumOp.all, hbin]
  | floatUn w r => cases w <;> simp [NumOp.all, hfun]
  | floatBin w r => cases w <;> simp [NumOp.all, hfbin]
  | truncate dst src signed => cases dst <;> cases src <;> cases signed <;> simp [NumOp.all, conversions]
  | convert dst src signed => cases dst <;> cases src <;> cases signed <;> simp [NumOp.all, conversions]
  | extend signed => cases signed <;> simp [NumOp.all, conversions]
  | reinterpretFloat w | reinterpretInt w => cases w <;> simp [NumOp.all, conversions]
  | signExtend n => cases n <;> simp [NumOp.all, Narrow.all]
  | _ => simp [NumOp.all, conversions]

theorem Opcode.listed_num (op : NumOp) : (num op).Listed := listed_iff.mpr (by simp [NumOp.mem_all])

end ScoreWasm.Wasm
