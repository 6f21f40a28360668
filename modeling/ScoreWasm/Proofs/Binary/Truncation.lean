import ScoreWasm.Proofs.Binary.Canonical

/-!
# Modules that were cut short

A prefix of a module is refused, unless it ends behind the header or behind a section.

A prefix is read as the module is until it ends.  Where that is inside the header, the number of a section
or its size, nothing is left to be read; where it is inside the contents of a section, there are fewer bytes
than the size says.  In all these cases the module is invalid, and never one with a feature that is not
supported: a section is looked at only when it is complete, and then as it was in the whole module.
-/

namespace ScoreWasm.Wasm.Binary

open List

variable {bs : List UInt8} {id : UInt8} {fuel pos : Nat} {d : Draft} {part : String}

/-! ### Sizes -/

/-- The error of a malformed binary. -/
def IsInvalid (e : CompileError) : Prop := ∃ reason part offset, e = .invalid reason part offset

theorem lebDigits_eq_error {start fuel acc shift : Nat} {e : CompileError} {c : Cursor}
    (h : lebDigits start fuel acc shift c = .error e) : IsInvalid e := by
  induction fuel generalizing acc shift c with
  | zero =>
    cases h
    exact ⟨_, _, _, rfl⟩
  | succ fuel ih =>
    obtain ⟨part, pos, _ | ⟨b, rest⟩⟩ := c
    · cases h
      exact ⟨_, _, _, rfl⟩
    change (if b < 128 then _ else _ : Reader (Nat × Nat)) _ = _ at h
    split at h
    · cases h
    · exact ih h

theorem leb_eq_error {signed : Bool} {bits : Nat} {c : Cursor} {e : CompileError}
    (h : leb signed bits c = .error e) : IsInvalid e := by
  cases hd : lebDigits c.pos ((bits + 6) / 7) 0 0 c with
  | error e' =>
    obtain rfl : e' = e := by simpa [leb, position, bind, StateT.bind, Except.bind, hd] using h
    exact lebDigits_eq_error hd
  | ok p =>
    obtain ⟨bs, -, -, -, hp⟩ := lebDigits_eq_ok hd
    rw [Nat.pow_zero, Nat.mul_one, Nat.zero_add, Nat.zero_add] at hp
    rw [leb_of_lebDigits (hd.trans (by rw [← hp]))] at h
    split at h
    · cases h
    · cases h
      exact ⟨_, _, _, rfl⟩

theorem u32_eq_error {c : Cursor} {e : CompileError} (h : u32 c = .error e) : IsInvalid e := by
  cases hl : leb false 32 c with
  | error e' =>
    obtain rfl : e' = e := by simpa [u32, bind, StateT.bind, Except.bind, hl] using h
    exact leb_eq_error hl
  | ok p => simp [u32, bind, StateT.bind, hl] at h; cases h

/-! ### Sections -/

/-- Complete sections, one after another: the number of each, its size and as many bytes. -/
inductive Sectioned : List UInt8 → Prop
  | nil : Sectioned []
  | cons (id : UInt8) {size payload rest : List UInt8} : Chained size → size.length ≤ 5 →
      digits size = payload.length → Sectioned rest → Sectioned (id :: (size ++ (payload ++ rest)))

/-- A section is at least as long as its size says. -/
theorem Sectioned.size_le {b : UInt8} (h : Sectioned (id :: b :: bs)) (hb : b.toNat < 128) : b.toNat ≤ bs.length := by
  generalize hp : id :: b :: bs = p at h
  cases h with
  | nil => cases hp
  | @cons id size payload rest hds _ hsize _ =>
    match size, hds with
    | [_], _ =>
      obtain ⟨rfl, rfl, rfl⟩ : _ ∧ b = _ ∧ bs = payload ++ rest := by simpa using hp
      simp only [digits, Nat.mod_eq_of_lt hb] at hsize
      simp [← hsize]
    | _ :: _ :: _, hds =>
      obtain ⟨rfl, rfl, -⟩ : _ ∧ b = _ ∧ _ := by simpa using hp
      exact absurd hds.1 (by omega)

/-- Bytes that begin a section are refused, or the section is complete. -/
theorem readSections_head (hname : sectionName? id = some part) (bs : List UInt8) (pos : Nat) :
    (∀ fuel next d part', ∃ e, readSections (fuel + 1) next d ⟨part', pos, id :: bs⟩ = .error e ∧ IsInvalid e) ∨
      ∃ size payload rest, bs = size ++ (payload ++ rest) ∧ Chained size ∧ size.length ≤ 5 ∧
        digits size = payload.length ∧ payload.length < 2 ^ 32 := by
  cases hu : u32 ⟨part, pos + 1, bs⟩ with
  | error e =>
    refine .inl fun fuel next d part' => ⟨e, ?_, u32_eq_error hu⟩
    rw [readSections]
    simp only [hname, hu]
  | ok r =>
    obtain ⟨n, c⟩ := r
    obtain ⟨size, hds, hlen, rfl, hn, hrest⟩ := u32_eq_ok hu
    cases ht : takeExact (digits size) [] c.rest with
    | none =>
      refine .inl fun fuel next d part' => ⟨.invalid .sectionSize (some part) (some pos), ?_, _, _, _, rfl⟩
      rw [readSections]
      simp only [hname, hu, ht]
    | some r =>
      obtain ⟨inside, after⟩ := r
      obtain ⟨payload, -, hpay, hsplit⟩ := takeExact_eq_some ht
      exact .inr ⟨size, payload, after, by rw [← hsplit]; exact hrest, hds, hlen, hpay.symm, hpay ▸ hn⟩

/-- Sections that were cut short: they are refused, or the cut is between two of them. -/
theorem readSections_cut {fuel fuel' next : Nat} {d d' : Draft} {part : String} {pos : Nat}
    {bs more : List UInt8} (hf : bs.length < fuel) (hf' : (bs ++ more).length < fuel')
    (h : readSections fuel' next d ⟨part, pos, bs ++ more⟩ = .ok d') :
      (∃ e, readSections fuel next d ⟨part, pos, bs⟩ = .error e ∧ IsInvalid e) ∨ Sectioned bs ∧
        ∃ fuel next d part pos, more.length < fuel ∧ readSections fuel next d ⟨part, pos, more⟩ = .ok d' := by
  induction fuel generalizing fuel' next d part pos bs with
  | zero => exact absurd hf (Nat.not_lt_zero _)
  | succ fuel ih =>
    rcases fuel' with _ | fuel'
    · exact absurd hf' (Nat.not_lt_zero _)
    rcases bs with _ | ⟨id, bs⟩
    · exact .inr ⟨.nil, _, _, _, _, _, hf', h⟩
    cases hname : sectionName? id with
    | none => simp [readSections, hname] at h
    | some name =>
      rcases readSections_head hname bs pos with hbad | ⟨size, payload, rest, rfl, hds, hlen, hsize, hn⟩
      · exact .inl (hbad fuel next d part)
      · simp only [cons_append, append_assoc] at h
        rw [readSections_section hname hds hlen hsize hn] at h ⊢
        split at h
        · cases h
        next horder =>
        rw [if_neg horder]
        split at h
        · cases h
        next d1 s hread =>
        split at h
        next hend =>
          simp only [cons_append, length_cons, length_append] at hf hf'
          simp only [hend, if_true]
          refine (ih (by omega) (by rw [length_append]; omega) h).imp_right ?_
          rintro ⟨hrest, hmore⟩
          exact ⟨.cons id hds hlen hsize hrest, hmore⟩
        · cases h

theorem sectioned_of_readSections {next : Nat} {d' : Draft} (hfuel : bs.length < fuel)
    (h : readSections fuel next d ⟨part, pos, bs⟩ = .ok d') : Sectioned bs := by
  rw [← append_nil bs] at h
  obtain ⟨e, he, -⟩ | ⟨hbs, -⟩ := readSections_cut hfuel (by rwa [append_nil]) h
  · rw [append_nil] at h
    cases h.symm.trans he
  · exact hbs

/-! ### Whole modules -/

/-- The first of two byte strings is cut behind its header or behind one of its sections to give the second. -/
def CutBetween (b p : List UInt8) : Prop :=
  ∃ done rest, b = magic ++ (done ++ rest) ∧ p = magic ++ done ∧ Sectioned done ∧ Sectioned rest

/-- **A module that was cut short is invalid**, unless the cut is between two of its sections. -/
theorem truncated_rejected {b p : List UInt8} {m : Module} (h : decode b = .ok m) (hp : p <+: b)
    (hcut : ¬CutBetween b p) : ∃ reason part offset, decode p = .error (.invalid reason part offset) := by
  obtain ⟨body, d, rfl, hread, -⟩ := exists_body_of_decode h
  unfold magic at hp
  simp only [cons_append, nil_append] at hp
  -- A cut in the header is refused before anything else is read.
  iterate 8
    rw [prefix_cons_iff] at hp
    obtain rfl | ⟨p, rfl, hp⟩ := hp
    · exact ⟨_, _, _, rfl⟩
  obtain ⟨more, rfl⟩ := hp
  obtain ⟨e, hbad, reason, part, offset, rfl⟩ | ⟨hdone, fuel, next, d, part, pos, hfuel, hmore⟩ :=
    readSections_cut (Nat.lt_succ_self p.length) (Nat.lt_succ_self _) hread
  · exact ⟨reason, part, offset, by simp [decode, hbad]⟩
  · exact absurd ⟨p, more, rfl, rfl, hdone, sectioned_of_readSections hfuel hmore⟩ hcut

/-- A module with one type, cut within the section that has it. -/
theorem truncated_rejected_oneType : ∃ m, decode (magic ++ [0x01, 0x04, 0x01, 0x60, 0x00, 0x00]) = .ok m ∧
    ∃ reason part offset, decode (magic ++ [0x01, 0x04, 0x01]) = .error (.invalid reason part offset) := by
  have h : decode (magic ++ [0x01, 0x04, 0x01, 0x60, 0x00, 0x00]) = .ok { Module.empty with types := [⟨[], []⟩] } := by
    cbv
  refine ⟨_, h, truncated_rejected h ⟨[0x60, 0x00, 0x00], rfl⟩ ?_⟩
  rintro ⟨done, rest, -, hp, hdone, -⟩
  rw [← append_cancel_left hp] at hdone
  exact absurd (hdone.size_le (by decide)) (by decide)

end ScoreWasm.Wasm.Binary
