import ScoreWasm.Proofs.Binary.RoundTrip

/-!
# Writing again what was read

Reading accepts many forms of one module: integers that are longer than they need to be, empty sections,
groups of locals that could be one, custom sections anywhere.  What is kept while sections are read is that
everything in the draft can be written, and that writing it takes no more bytes than have been read.  So a
module that was read can be written, in no more bytes, and these are read as the same module.
-/

namespace ScoreWasm.Wasm.Binary

open List

variable {α : Type} {bs : List UInt8} {d : Draft} {m : Module} {Back : α → α → Prop}
  {w : α → Written} {Fit : α → Prop} {r : Reader α}

/-! ### What a draft holds -/

/-- Items that can be written as one section. -/
structure Held {α : Type} (w : α → Written) (Fit : α → Prop) (l : List α) : Prop where
  fits : AllFit Fit l
  small : ∀ bs, vectorM w l = .ok bs → bs.length < 2 ^ 32

/-- A draft of which everything can be written. -/
structure Sound (d : Draft) : Prop where
  types : Held funcType FuncTypeFits d.module.types
  imports : Held import_ ImportFits d.module.imports
  indices : Held index Fits32 d.types
  tables : Held table LimitsFit d.module.tables
  memories : Held limits LimitsFit d.module.memories
  globals : Held globalBytes GlobalFits d.module.globals
  exports : Held export_ ExportFits d.module.exports
  start : ∀ i, d.module.start = some i → Fits32 i
  elements : Held element ElemFits d.module.elements
  codes : Held codeBytes CodeFits d.codes
  data : Held Binary.data DataFits d.module.data
  customs : ∀ c ∈ d.module.customs, CustomFits c
  names : d.module.names = namesOf d.module.customs

/-- The sections of a draft, without the custom ones. -/
def draftSections (d : Draft) : List Written :=
  [sectionOf 1 funcType d.module.types, sectionOf 2 import_ d.module.imports, sectionOf 3 index d.types,
   sectionOf 4 table d.module.tables, sectionOf 5 limits d.module.memories, sectionOf 6 globalBytes d.module.globals,
   sectionOf 7 export_ d.module.exports, sectionIndex 8 d.module.start, sectionOf 9 element d.module.elements,
   sectionIndex 12 (d.module.dataCount.map Int.ofNat), sectionOf 10 codeBytes d.codes, sectionOf 11 data d.module.data]

/-- How many bytes the sections of a draft take. -/
def weight (d : Draft) : Nat := ((draftSections d).map size).sum + size (concat customBytes d.module.customs)

theorem Held.nil : Held w Fit [] := by
  refine ⟨.nil, ?_⟩
  rintro _ ⟨⟩
  rw [length_nil, unsigned_of_lt (by decide)]
  decide

theorem sound_empty : Sound ⟨.empty, [], []⟩ :=
  ⟨.nil, .nil, .nil, .nil, .nil, .nil, .nil, by simp [Module.empty], .nil, .nil, .nil, by simp [Module.empty], rfl⟩

/-! ### One section -/

/-- A section around bytes is no longer than what was read for them. -/
theorem length_sectionBytes_le (id : UInt8) {k : Nat} (h : bs.length ≤ k) :
    (sectionBytes id bs).length ≤ 1 + (unsigned k).length + k := by
  have := length_unsigned_mono h
  simp only [sectionBytes, counted, length_cons, length_append]
  omega

/-- The items of a section can be written again. -/
theorem gives_items
    (hf : Format r w Fit Back) : Gives (vec r) (fun l k => k < 2 ^ 32 →
      Held w Fit l ∧ ∀ id, size (sectionOf id w l) ≤ 1 + (unsigned k).length + k) := by
  refine hf.vec.shrinks.mono ?_
  rintro l k ⟨hfits, bs, hbs, hle⟩ hk
  refine ⟨⟨hfits, ?_⟩, fun id => ?_⟩
  · intro bs' hbs'
    obtain rfl : bs = bs' := Except.ok.inj (hbs.symm.trans hbs')
    omega
  · unfold sectionOf
    split
    · exact Nat.zero_le _
    · rw [hbs]
      exact length_sectionBytes_le id hle

/-- A draft is sound and has grown by no more than the bytes of a section with so many inside. -/
def Grown (d d' : Draft) (k : Nat) : Prop :=
  k < 2 ^ 32 → Sound d' ∧ weight d' ≤ weight d + (1 + (unsigned k).length + k)

/-- A section of items, with which a field of the draft is filled. -/
theorem grown_items
    (hf : Format r w Fit Back) (id : UInt8) {fill : List α → Draft} (hsound : ∀ l, Held w Fit l → Sound (fill l))
    (hweight : ∀ l, weight (fill l) ≤ weight d + size (sectionOf id w l)) :
    Gives (do return fill (← vec r)) (Grown d) := by
  refine (gives_items hf).bind (fun l k hl => Gives.pure (fun hk => ?_))
  obtain ⟨hheld, hsize⟩ := hl hk
  exact ⟨hsound l hheld, (hweight l).trans (Nat.add_le_add_left (hsize id) _)⟩

theorem grown_index {f : α → Int}
    (hf : Format r (fun a => index (f a)) Fit Back) (id : UInt8) {fill : α → Draft}
    (hsound : ∀ a, Fit a → Sound (fill a))
    (hweight : ∀ a, weight (fill a) ≤ weight d + size (sectionIndex id (some (f a)))) :
    Gives (do return fill (← r)) (Grown d) := by
  refine hf.shrinks.bind (fun a k ha => Gives.pure (fun _ => ?_))
  obtain ⟨hfit, bs, hbs, hle⟩ := ha
  refine ⟨hsound a hfit, (hweight a).trans (Nat.add_le_add_left ?_ _)⟩
  unfold sectionIndex
  simp only [hbs]
  exact length_sectionBytes_le id hle

theorem sound_addCustom {c : Custom} (hd : Sound d) (hc : CustomFits c) : Sound (addCustom d c) := by
  refine { hd with customs := ?_, names := ?_ }
  · exact fun c' hc' => (mem_append.mp hc').elim (hd.customs c') (fun h => mem_singleton.mp h ▸ hc)
  · show namesAfter d.module.names c = namesOf (d.module.customs ++ [c])
    rw [namesOf_append, hd.names]

theorem grown_custom (hd : Sound d) : Gives (readCustom d) (Grown d) := by
  refine format_name.shrinks.bind (fun s n hs => ?_)
  obtain ⟨hs, bs, hbs, hle⟩ := hs
  intro c d' c' h
  obtain ⟨t, hrest, heq⟩ := readCustom_rest d s c
  obtain ⟨rfl, rfl⟩ := Prod.mk.inj (Except.ok.inj (heq.symm.trans h))
  refine ⟨c.rest.length, by rw [hrest]; rfl, fun hk => ?_⟩
  have hfits : CustomFits ⟨s, c.rest⟩ := by
    refine ⟨hs, fun bs' hbs' => ?_⟩
    obtain rfl : bs = bs' := Except.ok.inj (hbs.symm.trans hbs')
    show (bs ++ c.rest).length < 2 ^ 32
    rw [length_append]
    omega
  refine ⟨sound_addCustom hd hfits, ?_⟩
  obtain ⟨as, has, -⟩ := reaches_customs 0 hd.customs
  have hconcat := concat_append_ok has (concat_cons_ok (customBytes_ok (c := ⟨s, c.rest⟩) hbs)
    (show concat customBytes [] = .ok [] from rfl))
  have hlen := length_sectionBytes_le 0 (show (bs ++ c.rest).length ≤ n + c.rest.length by
    rw [length_append]
    omega)
  simp only [weight, draftSections, map_cons, sum_cons, addCustom, has, hconcat, size, length_append, length_nil]
  omega

/-- **Everything in a section can be written again, in no more bytes.** -/
theorem grown_section (id : UInt8) (hd : Sound d) : Gives (readSection id d) (Grown d) := by
  unfold readSection
  split <;> [
    refine grown_items format_funcType 1 (fun l hl => { hd with types := hl }) ?_;
    refine grown_items format_import 2 (fun l hl => { hd with imports := hl }) ?_;
    refine grown_items format_index 3 (fun l hl => { hd with indices := hl }) ?_;
    refine grown_items format_table 4 (fun l hl => { hd with tables := hl }) ?_;
    refine grown_items format_limits 5 (fun l hl => { hd with memories := hl }) ?_;
    refine grown_items format_global 6 (fun l hl => { hd with globals := hl }) ?_;
    refine grown_items format_export 7 (fun l hl => { hd with exports := hl }) ?_;
    refine grown_index format_index 8 (fun i hi => { hd with start := by rintro _ ⟨⟩; exact hi }) ?_;
    refine grown_items format_element 9 (fun l hl => { hd with elements := hl }) ?_;
    refine grown_items format_code 10 (fun l hl => { hd with codes := hl }) ?_;
    refine grown_items format_data 11 (fun l hl => { hd with data := hl }) ?_;
    refine grown_index (f := Int.ofNat) format_u32 12 (fun n _ => { hd with }) ?_;
    exact grown_custom hd]
  -- All other sections weigh what they did.
  all_goals
    intro
    simp only [weight, draftSections, map_cons, sum_cons, Option.map_some]
    omega

/-! ### All sections -/

/-- **Reading sections keeps a draft sound, and its weight within the bytes that were read.** -/
theorem readSections_sound (fuel next : Nat) {d d' : Draft} {c : Cursor} (hd : Sound d)
    (h : readSections fuel next d c = .ok d') : Sound d' ∧ weight d' ≤ weight d + c.rest.length := by
  induction fuel generalizing next d c with
  | zero =>
    cases h
    exact ⟨hd, Nat.le_add_right _ _⟩
  | succ fuel ih =>
    rw [readSections] at h
    split at h
    · cases h
      exact ⟨hd, Nat.le_add_right _ _⟩
    next id rest hrest =>
    split at h
    · cases h
    next part _ =>
    split at h
    · cases h
    next size start hsize =>
    split at h
    · cases h
    next inside after htake =>
    dsimp only at h
    split at h
    · cases h
    split at h
    · cases h
    next d1 s hread =>
    split at h
    next hempty =>
      obtain ⟨n, hn, hlt, -, hle⟩ := Gives.u32 _ _ _ hsize
      obtain ⟨taken, rfl, hlen, hsplit⟩ := takeExact_eq_some htake
      obtain ⟨k, hk, hgrown⟩ := grown_section id hd _ _ _ hread
      -- The section is read to its end, so that its contents are as long as its size says.
      obtain rfl : size = k := by
        rw [isEmpty_iff.mp hempty] at hk
        simpa [hlen] using hk
      obtain ⟨hd1, hw⟩ := hgrown hlt
      obtain ⟨hd', hw'⟩ := ih _ hd1 h
      refine ⟨hd', hw'.trans ?_⟩
      rw [hsplit, length_append, hlen] at hn
      simp only [hrest, length_cons] at hn ⊢
      omega
    · cases h

/-! ### The module of a draft -/

theorem types_zipWith : ∀ {types : List Int} {codes : List CodeEntry}, types.length = codes.length →
    (List.zipWith (fun t (c : CodeEntry) => (⟨t, c.1, c.2.1, c.2.2⟩ : Function)) types codes).map Function.type = types ∧
    (List.zipWith (fun t (c : CodeEntry) => (⟨t, c.1, c.2.1, c.2.2⟩ : Function)) types codes).map entry = codes
  | [], [], _ => ⟨rfl, rfl⟩
  | t :: types, c :: codes, h => by
    obtain ⟨htypes, hcodes⟩ := types_zipWith (Nat.succ.inj h)
    exact ⟨congrArg (t :: ·) htypes, congrArg (c :: ·) hcodes⟩

/-- The parts of a module are those of the draft that it was made from. -/
theorem assemble_eq_ok (h : assemble d = .ok m) :
    m = { d.module with functions := m.functions } ∧ m.functions.map Function.type = d.types ∧
      m.functions.map entry = d.codes ∧ ∀ n, m.dataCount = some n → n = m.data.length := by
  unfold assemble at h
  split at h
  · cases h
  next hlen =>
  split at h
  · cases h
  next hcount =>
    cases h
    obtain ⟨htypes, hcodes⟩ := types_zipWith (show d.types.length = d.codes.length by simpa using hlen)
    refine ⟨rfl, htypes, hcodes, fun n hn => ?_⟩
    change d.module.dataCount = some n at hn
    simpa [hn] using hcount

section

variable (hd : Sound d) (h : assemble d = .ok m)
include hd h

theorem sizes_of_sound :
    ∀ w ∈ payloads m, ∀ bs, w = .ok bs → bs.length < 2 ^ 32 := by
  obtain ⟨hm, htypes, hcodes, -⟩ := assemble_eq_ok h
  have hindex := hd.indices.small
  have hcode := hd.codes.small
  rw [← htypes] at hindex
  rw [← hcodes, vectorM_map] at hcode
  rw [hm]
  simp only [payloads, cons_append, nil_append, forall_mem_cons]
  refine ⟨hd.types.small, hd.imports.small, hindex, hd.tables.small, hd.memories.small, hd.globals.small,
    hd.exports.small, hd.elements.small, hcode, hd.data.small, fun w hw bs hbs => ?_⟩
  obtain ⟨c, hc, rfl⟩ := mem_map.mp hw
  obtain ⟨as, has, hbs⟩ := Except.bind_eq_ok.mp hbs
  cases hbs
  exact (hd.customs c hc).2 as has

theorem writable_of_sound : Writable m := by
  have hsizes := sizes_of_sound hd h
  obtain ⟨hm, htypes, hcodes, hcount⟩ := assemble_eq_ok h
  have hindices := hd.indices.fits
  have hentries := hd.codes.fits
  rw [← htypes] at hindices
  rw [← hcodes] at hentries
  rw [hm] at hsizes hcount ⊢
  exact {
    types := hd.types.fits
    imports := hd.imports.fits
    functions := ⟨by simpa using hindices.1, fun f hf =>
      ⟨hindices.2 _ (mem_map_of_mem hf), hentries.2 _ (mem_map_of_mem hf)⟩⟩
    tables := hd.tables.fits
    memories := hd.memories.fits
    globals := ⟨hd.globals.fits.1, fun g hg => ⟨(hd.globals.fits.2 g hg).1, (hd.globals.fits.2 g hg).2.1⟩⟩
    exports := hd.exports.fits
    start := hd.start
    elements := hd.elements.fits
    data := hd.data.fits
    dataCount := hcount
    customs := fun c hc => (hd.customs c hc).1
    sizes := hsizes
    names := hd.names }

theorem balanced_of_sound : ∀ g ∈ m.globals, Balanced g.init := by
  intro g hg
  rw [(assemble_eq_ok h).1] at hg
  exact (hd.globals.fits.2 g hg).2.2

end

/-! ### How long a module is -/

theorem length_flatten_of_mapM {ws : List Written} {bss : List (List UInt8)}
    (h : ws.mapM id = .ok bss) : bss.flatten.length = (ws.map size).sum := by
  induction ws generalizing bss with
  | nil =>
    cases h
    rfl
  | cons w ws ih =>
    rw [mapM_cons, Except.bind_eq_ok] at h
    obtain ⟨bs, hbs, h⟩ := h
    rw [Except.bind_eq_ok] at h
    obtain ⟨rest, hrest, h⟩ := h
    cases h
    obtain rfl : w = .ok bs := hbs
    simp [ih hrest, size]

theorem length_module (h : assemble d = .ok m) (hbs : module m = .ok bs) : bs.length = 8 + weight d := by
  obtain ⟨hm, htypes, hcodes, -⟩ := assemble_eq_ok h
  obtain ⟨parts, hparts, hbs⟩ := Except.bind_eq_ok.mp hbs
  obtain ⟨customs, hcustoms, hbs⟩ := Except.bind_eq_ok.mp hbs
  cases hbs
  have hcode : sectionOf 10 code m.functions = sectionOf 10 codeBytes d.codes := by
    rw [← hcodes, sectionOf_map]
    rfl
  have hindex : sectionOf 3 (fun f : Function => index f.type) m.functions = sectionOf 3 index d.types := by
    rw [← htypes, sectionOf_map]
  rw [hcode, hindex, hm] at hparts
  rw [hm] at hcustoms
  have hlen := length_flatten_of_mapM hparts
  have hsize : customs.length = size (concat customBytes d.module.customs) := by
    rw [show concat customBytes d.module.customs = .ok customs from hcustoms]
    rfl
  rw [length_append, length_append, hlen, hsize, Nat.add_assoc]
  rfl

/-! ### What is not written -/

/-- A change of instructions that does not change their bytes. -/
structure Silent (f : Placed → Placed) : Prop where
  instr : ∀ p, instr (f p).instr = instr p.instr
  atEnd : ∀ p, (f p).instr = .end_ ↔ p.instr = .end_

/-- The module with every instruction and every place of a function changed. -/
def recode (f : Placed → Placed) (place : Nat → Nat) (m : Module) : Module :=
  { m with
    functions := m.functions.map (fun g => { g with body := g.body.map f, offset := place g.offset })
    globals := m.globals.map (fun g => { g with init := g.init.map f })
    elements := m.elements.map (fun e => { e with mode := match e.mode with
      | .active t x => .active t (x.map f)
      | other => other })
    data := m.data.map (fun d => { d with mode := match d.mode with
      | .active t x => .active t (x.map f)
      | other => other }) }

theorem silent_forget : Silent (fun p => { p with offset := 0 }) := ⟨fun _ => rfl, fun _ => Iff.rfl⟩

theorem silent_plain : Silent (fun p => { p with instr := p.instr.plain }) := by
  have hcases : ∀ i : Instr, i = .select (some []) ∧ i.plain = .select none ∨ i.plain = i := by
    intro i
    unfold Instr.plain
    split
    · exact .inl ⟨rfl, rfl⟩
    · exact .inr rfl
  constructor
  · rintro ⟨i, n⟩
    rcases hcases i with ⟨rfl, -⟩ | h
    · rfl
    · show instr i.plain = _
      rw [h]
  · rintro ⟨i, n⟩
    rcases hcases i with ⟨rfl, -⟩ | h
    · simp [Instr.plain]
    · show i.plain = _ ↔ _
      rw [h]

/-- Instructions of the same bytes are written alike. -/
theorem instrs_congr {is js : List Instr} (h : is.map instr = js.map instr) : instrs is = instrs js := by
  have hid : ∀ l : List Instr, l.mapM instr = (l.map instr).mapM id := fun l => by rw [mapM_map]; rfl
  unfold instrs concat
  rw [hid, hid, h]

namespace Silent

variable {f : Placed → Placed} (hf : Silent f)

include hf

theorem map_instr (e : List Placed) : ((e.map f).map Placed.instr).map Binary.instr = (e.map Placed.instr).map Binary.instr := by
  simp [hf.instr]

theorem expr_map (e : Expr) : expr (e.map f) = expr e := by
  unfold expr
  rw [instrs_congr (hf.map_instr e)]

theorem code_map (g : Function) (n : Nat) : code { g with body := g.body.map f, offset := n } = code g := by
  have hlast : (((g.body.map f).map Placed.instr).getLast? == some .end_)
      = ((g.body.map Placed.instr).getLast? == some .end_) := by
    rw [getLast?_map, getLast?_map, getLast?_map]
    cases g.body.getLast? with
    | none => rfl
    | some p =>
      simp [hf.atEnd p]
  unfold code
  simp only [hlast]
  congr 1
  funext ls
  split
  · rw [instrs_congr (hf.map_instr g.body)]
  · have happend : ((g.body.map f).map Placed.instr ++ [Instr.end_]).map Binary.instr
        = (g.body.map Placed.instr ++ [Instr.end_]).map Binary.instr := by
      rw [map_append, hf.map_instr, map_append]
    rw [instrs_congr happend]

theorem element_map (e : ElemSegment) : element { e with mode := match e.mode with
    | .active t x => .active t (x.map f)
    | other => other } = element e := by
  obtain ⟨mode, funcs⟩ := e
  cases mode with
  | active t x =>
    unfold element
    simp only [hf.expr_map]
  | _ => rfl

theorem data_map (d : DataSegment) : data { d with mode := match d.mode with
    | .active t x => .active t (x.map f)
    | other => other } = data d := by
  obtain ⟨mode, bytes⟩ := d
  cases mode with
  | active t x =>
    unfold data
    simp only [hf.expr_map]
  | passive => rfl

theorem module_recode (place : Nat → Nat) (m : Module) : module (recode f place m) = module m := by
  unfold module recode
  simp only [sectionOf_map, hf.code_map, hf.expr_map, hf.element_map, hf.data_map]

end Silent

/-! ### The canonical form -/

/-- A module begins with the bytes that tell it from other files, and its sections follow. -/
theorem exists_body_of_decode {b : List UInt8} (h : decode b = .ok m) : ∃ body d, b = magic ++ body ∧
    readSections (body.length + 1) 0 ⟨.empty, [], []⟩ ⟨"header", 8, body⟩ = .ok d ∧ assemble d = .ok m := by
  unfold decode at h
  split at h
  next rest =>
    split at h
    next x y z t body =>
      dsimp only at h
      split at h
      · cases h
      next hversion =>
      split at h
      next d hd =>
        simp only [bne_iff_ne, ne_eq, not_not] at hversion
        obtain ⟨rfl, rfl, rfl, rfl⟩ : x = 1 ∧ y = 0 ∧ z = 0 ∧ t = 0 := by
          simp only [← UInt8.toNat_inj, UInt8.reduceToNat]
          omega
        exact ⟨body, d, rfl, hd, h⟩
      · cases h
    · cases h
  · cases h

theorem decode_eq_ok {b : List UInt8} (h : decode b = .ok m) :
    ∃ body d, b.length = 8 + body.length ∧ readSections (body.length + 1) 0 ⟨.empty, [], []⟩ ⟨"header", 8, body⟩ = .ok d ∧
      assemble d = .ok m := by
  obtain ⟨body, d, rfl, hread, hm⟩ := exists_body_of_decode h
  exact ⟨body, d, length_append, hread, hm⟩

/-- **A module that was read is written in no more bytes, and these are its canonical form.** -/
theorem decoded_reencodes {b : List UInt8} {m : Module} (h : decode b = .ok m) :
    ∃ e, module m = .ok e ∧ e.length ≤ b.length ∧
      ∃ m', decode e = .ok m' ∧ module m' = .ok e ∧ m'.forgetPlaces = m.plain.forgetPlaces := by
  obtain ⟨body, d, hlen, hread, hm⟩ := decode_eq_ok h
  obtain ⟨hd, hweight⟩ := readSections_sound _ _ sound_empty hread
  obtain ⟨e, he, m', hm', hback⟩ := decode_module (writable_of_sound hd hm) (balanced_of_sound hd hm)
  have hshort := length_module hm he
  have hzero : weight ⟨.empty, [], []⟩ = 0 := rfl
  refine ⟨e, he, by rw [hzero] at hweight; simp only at hweight; omega, m', hm', ?_, hback⟩
  -- Writing sees neither the places nor the lists of types that are empty.
  calc module m' = module m'.forgetPlaces := (silent_forget.module_recode (fun _ => 0) m').symm
    _ = module m.plain.forgetPlaces := by rw [hback]
    _ = module m.plain := silent_forget.module_recode (fun _ => 0) m.plain
    _ = module m := silent_plain.module_recode (fun n => n) m
    _ = .ok e := he

/-- A module with a size in two bytes, an empty section, two groups of one local each and a `select` with an
empty list of types. -/
def padded : List UInt8 :=
  magic ++ [0x01, 0x84, 0x00, 0x01, 0x60, 0x00, 0x00] ++ [0x03, 0x02, 0x01, 0x00] ++ [0x09, 0x01, 0x00]
    ++ [0x0a, 0x11, 0x01, 0x0f, 0x02, 0x01, 0x7e, 0x01, 0x7e, 0x41, 0x00, 0x41, 0x00, 0x41, 0x00, 0x1c, 0x00, 0x1a, 0x0b]

set_option maxRecDepth 4000 in
theorem decoded_reencodes_padded : ∃ m, decode padded = .ok m ∧ ∃ e, module m = .ok e ∧ e.length ≤ padded.length ∧
    ∃ m', decode e = .ok m' ∧ module m' = .ok e ∧ m'.forgetPlaces = m.plain.forgetPlaces := by
  have h : decode padded = .ok { Module.empty with
      types := [⟨[], []⟩]
      functions := [⟨0, [.i64, .i64], [⟨.const .i32 0, 31⟩, ⟨.const .i32 0, 33⟩, ⟨.const .i32 0, 35⟩,
        ⟨.select (some []), 37⟩, ⟨.drop, 39⟩, ⟨.end_, 40⟩], 26⟩] } := by
    cbv
  exact ⟨_, h, decoded_reencodes h⟩

end ScoreWasm.Wasm.Binary
