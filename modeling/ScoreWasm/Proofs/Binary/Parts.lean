import ScoreWasm.Proofs.Binary.Code

/-!
# The formats of the parts of a module

Imports, exports, globals, segments and the code of functions.  Locals are written in groups; groups that
were read may be empty or split, and those that are written are the runs of equal neighbours, which are
never longer.
-/

namespace ScoreWasm.Wasm.Binary

open List

variable {bs as cs payload : List UInt8} {n m : Nat} {g : Nat × ValType} {x : Expr} {t i : Int}

/-! ### Imports and exports -/

theorem externKind_ofCode?_code (k : ExternKind) : ExternKind.ofCode? k.code = some k := by
  cases k <;> rfl

/-- The description of an import that can be written. -/
def ImportDescFits : ImportDesc → Prop
  | .func t => Fits32 t
  | .table l => LimitsFit l
  | .memory l => LimitsFit l
  | .global g => GlobalTypeFits g

/-- An import that can be written. -/
def ImportFits (i : Import) : Prop := NameFits i.module ∧ NameFits i.name ∧ ImportDescFits i.desc

/-- The bytes of a description behind its kind. -/
def descBytes : ImportDesc → Written
  | .func t => index t
  | .table l => table l
  | .memory l => limits l
  | .global g => globalType g

theorem import_ok {i : Import} (hm : name i.module = .ok as) (hn : name i.name = .ok bs)
    (hd : descBytes i.desc = .ok cs) : import_ i = .ok (as ++ (bs ++ ([i.desc.kind.code] ++ cs))) := by
  obtain ⟨module, nm, desc⟩ := i
  unfold import_
  rw [hm, hn]
  cases desc <;>
  · simp only [descBytes] at hd
    simp [bind, Except.bind, pure, Except.pure, hd]

/-- Reads a description behind its kind. -/
def readDesc (offset : Nat) (kind : UInt8) (module nm : String) : Reader Import :=
  match ExternKind.ofCode? kind with
  | some .func => do return ⟨module, nm, .func (← readIndex)⟩
  | some .table => do return ⟨module, nm, .table (← readTable)⟩
  | some .memory => do return ⟨module, nm, .memory (← readLimits)⟩
  | some .global => do return ⟨module, nm, .global (← readGlobalType)⟩
  | none => failAt (.badImportKind kind) offset

theorem takes_desc {d : ImportDesc} (h : ImportDescFits d) (offset : Nat) (module nm : String) :
    ∃ bs, descBytes d = .ok bs ∧ Takes (readDesc offset d.kind.code module nm) bs (· = ⟨module, nm, d⟩) := by
  unfold readDesc
  cases d with
  | func t => exact format_index.takes_one h (fun t => Import.mk module nm (.func t))
  | table l => exact format_table.takes_one h (fun l => Import.mk module nm (.table l))
  | memory l => exact format_limits.takes_one h (fun l => Import.mk module nm (.memory l))
  | global g => exact format_globalType.takes_one h (fun g => Import.mk module nm (.global g))

theorem gives_desc (offset : Nat) (kind : UInt8) (module nm : String) : Gives (readDesc offset kind module nm)
    (fun i n => i.module = module ∧ i.name = nm ∧ ImportDescFits i.desc ∧
      ∃ bs, descBytes i.desc = .ok bs ∧ bs.length ≤ n) := by
  unfold readDesc
  split
  · exact format_index.gives_one (fun t bs n ht hbs hle => ⟨rfl, rfl, ht, bs, hbs, hle⟩)
  · exact format_table.gives_one (fun l bs n hl hbs hle => ⟨rfl, rfl, hl, bs, hbs, hle⟩)
  · exact format_limits.gives_one (fun l bs n hl hbs hle => ⟨rfl, rfl, hl, bs, hbs, hle⟩)
  · exact format_globalType.gives_one (fun g bs n hg hbs hle => ⟨rfl, rfl, hg, bs, hbs, hle⟩)
  · exact .failAt

theorem format_import : Format readImport import_ ImportFits Same := by
  constructor
  · rintro i ⟨hm, hn, hd⟩
    obtain ⟨as, has, hta⟩ := format_name.back i.module hm
    obtain ⟨bs, hbs, htb⟩ := format_name.back i.name hn
    obtain ⟨cs, hcs, -⟩ := takes_desc hd 0 i.module i.name
    refine ⟨_, import_ok has hbs hcs, hta.bind (fun m hm => htb.bind (fun s hs => .tag (fun offset => ?_)))⟩
    obtain ⟨cs', hcs', htc⟩ := takes_desc hd offset m s
    obtain rfl : cs = cs' := Except.ok.inj (hcs.symm.trans hcs')
    refine htc.mono (fun j hj => ?_)
    rw [hj, hm, hs]
    rfl
  · refine format_name.shrinks.bind (fun m n hm => format_name.shrinks.bind (fun s k hs => .tag (fun offset kind => ?_)))
    obtain ⟨hm, as, has, hla⟩ := hm
    obtain ⟨hs, bs, hbs, hlb⟩ := hs
    refine (gives_desc offset kind m s).mono ?_
    rintro i z ⟨rfl, rfl, hd, cs, hcs, hlc⟩
    refine ⟨⟨hm, hs, hd⟩, _, import_ok has hbs hcs, ?_⟩
    simp only [length_append, length_cons, length_nil]
    omega

/-- An export that can be written. -/
def ExportFits (e : Export) : Prop := NameFits e.name ∧ (∃ k, e.kind = .known k) ∧ Fits32 e.index

theorem export_ok {s : String} {k : ExternKind} (hs : name s = .ok as)
    (hi : index i = .ok bs) : export_ ⟨s, .known k, i⟩ = .ok (as ++ ([k.code] ++ bs)) := by
  unfold export_
  simp only [hs, hi]
  simp [bind, Except.bind, pure, Except.pure]

theorem format_export : Format readExport export_ ExportFits Same := by
  constructor
  · rintro ⟨s, kind, i⟩ ⟨hs, ⟨k, hk⟩, hi⟩
    obtain rfl : kind = .known k := hk
    obtain ⟨as, has, hta⟩ := format_name.back s hs
    obtain ⟨bs, hbs, -⟩ := format_index.back i hi
    refine ⟨_, export_ok has hbs, hta.bind (fun m hm => .tag (fun offset => ?_))⟩
    subst hm
    rw [externKind_ofCode?_code]
    obtain ⟨cs, hcs, htake⟩ := format_index.takes_one hi (Export.mk m (.known k))
    obtain rfl : bs = cs := Except.ok.inj (hbs.symm.trans hcs)
    exact htake
  · refine format_name.shrinks.bind (fun s n hs => .tag (fun offset kind => ?_))
    obtain ⟨hs, as, has, hla⟩ := hs
    split
    next k _ =>
      refine format_index.gives_one (fun i bs m hi hbs hle => ⟨⟨hs, ⟨k, rfl⟩, hi⟩, _, export_ok has hbs, ?_⟩)
      simp only [length_append, length_cons, length_nil]
      omega
    next => exact .failAt

/-! ### Globals and segments -/

/-- A global that can be written. -/
def GlobalFits (g : Global) : Prop := GlobalTypeFits g.type ∧ ExprFits g.init

/-- A global comes back. -/
def GlobalBack (g g' : Global) : Prop := g'.type = g.type ∧ ExprBack g.init g'.init

/-- The bytes of a global. -/
def globalBytes (g : Global) : Written := do return (← globalType g.type) ++ (← expr g.init)

theorem globalBytes_ok {g : Global} (ht : globalType g.type = .ok as) (he : expr g.init = .ok bs) :
    globalBytes g = .ok (as ++ bs) := by
  unfold globalBytes
  rw [ht, he]
  rfl

theorem format_global : Format readGlobal globalBytes GlobalFits GlobalBack := by
  constructor
  · rintro g ⟨ht, he⟩
    obtain ⟨as, has, hta⟩ := format_globalType.back g.type ht
    obtain ⟨bs, hbs, htb⟩ := format_expr.back g.init he
    exact ⟨_, globalBytes_ok has hbs, hta.bind (fun t ht => htb.last (fun e he => .pure ⟨ht, he⟩))⟩
  · exact format_globalType.gives_two format_expr
      (fun t e bs cs n ht he hbs hcs hle => ⟨⟨ht, he⟩, _, globalBytes_ok hbs hcs, hle⟩)

/-- Indices that can be written as a vector. -/
def IndicesFit (l : List Int) : Prop := l.length < 2 ^ 32 ∧ ∀ i ∈ l, Fits32 i

/-- The mode of an element segment that can be written. -/
def ElemModeFits : ElemMode → Prop
  | .active t x => Fits32 t ∧ ExprFits x
  | _ => True

/-- An element segment that can be written. -/
def ElemFits (e : ElemSegment) : Prop := ElemModeFits e.mode ∧ IndicesFit e.funcs

/-- The mode of an element segment comes back. -/
def ElemModeBack : ElemMode → ElemMode → Prop
  | .active t x, .active t' x' => t' = t ∧ ExprBack x x'
  | .passive, .passive => True
  | .declarative, .declarative => True
  | _, _ => False

/-- An element segment comes back. -/
def ElemBack (e e' : ElemSegment) : Prop := ElemModeBack e.mode e'.mode ∧ e'.funcs = e.funcs

theorem Takes.flag {β : Type} {f : Nat → Nat → Reader β} {R : β → Prop} (h : n < 128)
    (hf : ∀ offset, Takes (f offset n) bs R) :
    Takes (do f (← Binary.position) (← Binary.u32)) (UInt8.ofNat n :: bs) R := by
  refine Takes.position.skip (fun offset _ => ?_)
  have := (Takes.u32 (n := n) (by omega)).bind (fun v hv => hv ▸ hf offset)
  rwa [unsigned_of_lt h] at this

theorem takes_elemKind : Takes readElemKind [0x00] (fun _ => True) :=
  .tag (fun _ => .pure trivial)

theorem gives_elemKind : Gives readElemKind (fun _ n => n = 1) :=
  .tag (fun _ _ => .ite (fun _ => .failAt) (fun _ => .pure rfl))

theorem element_active {l : List Int} {ts xs : List UInt8} (ht : index t = .ok ts)
    (hx : expr x = .ok xs) (hl : vectorM index l = .ok bs) : element ⟨.active t x, l⟩ =
      .ok (if t = 0 then 0x00 :: (xs ++ bs) else 0x02 :: (ts ++ (xs ++ ([0x00] ++ bs)))) := by
  simp only [element, ht, hx, hl]
  by_cases h0 : t = 0 <;> simp [h0, bind, Except.bind, pure, Except.pure]

theorem format_element : Format readElement element ElemFits ElemBack := by
  have hvec := format_index.vecSame
  constructor
  · rintro ⟨mode, funcs⟩ ⟨hmode, hfuncs⟩
    obtain ⟨bs, hbs, htb⟩ := hvec.back funcs hfuncs
    cases mode with
    | passive =>
      refine ⟨0x01 :: ([0x00] ++ bs), by simp only [element, hbs]; rfl, .flag (n := 1) (by omega) (fun offset => ?_)⟩
      exact takes_elemKind.bind (fun _ _ => htb.last (fun l hl => .pure ⟨trivial, hl⟩))
    | declarative =>
      refine ⟨0x03 :: ([0x00] ++ bs), by simp only [element, hbs]; rfl, .flag (n := 3) (by omega) (fun offset => ?_)⟩
      exact takes_elemKind.bind (fun _ _ => htb.last (fun l hl => .pure ⟨trivial, hl⟩))
    | active t x =>
      obtain ⟨ht, hx⟩ := hmode
      obtain ⟨xs, hxs, htx⟩ := format_expr.back x hx
      obtain ⟨ts, hts, htt⟩ := format_index.back t ht
      refine ⟨_, element_active hts hxs hbs, ?_⟩
      split
      next h0 =>
        refine .flag (n := 0) (by omega) (fun offset => htx.bind (fun x' hx' => htb.last (fun l hl => ?_)))
        exact .pure ⟨⟨h0.symm, hx'⟩, hl⟩
      next =>
        refine .flag (n := 2) (by omega) (fun offset => htt.bind (fun t' ht' => htx.bind (fun x' hx' => ?_)))
        exact takes_elemKind.bind (fun _ _ => htb.last (fun l hl => .pure ⟨⟨ht', hx'⟩, hl⟩))
  · refine Gives.position.bind (fun offset z hz => Gives.u32.bind (fun flags n hn => ?_))
    split
    · refine format_expr.gives_two hvec (fun x l xs bs m hx hl hxs hbs hle => ?_)
      refine ⟨⟨⟨⟨by omega, by omega⟩, hx⟩, hl⟩, _, element_active rfl hxs hbs, ?_⟩
      rw [if_pos rfl, length_cons]
      omega
    · refine gives_elemKind.bind (fun _ k hk => hvec.gives_one (fun l bs m hl hbs hle => ?_))
      refine ⟨⟨trivial, hl⟩, [0x01, 0x00] ++ bs, by simp only [element, hbs]; rfl, ?_⟩
      simp only [length_cons, length_append, length_nil]
      omega
    · refine format_index.shrinks.bind (fun t o ht => format_expr.shrinks.bind (fun x k hx => ?_))
      refine gives_elemKind.bind (fun _ k' hk => hvec.gives_one (fun l bs m hl hbs hle => ?_))
      obtain ⟨ht, ts, hts, hlt⟩ := ht
      obtain ⟨hx, xs, hxs, hlx⟩ := hx
      refine ⟨⟨⟨ht, hx⟩, hl⟩, _, element_active hts hxs hbs, ?_⟩
      split <;> simp only [length_cons, length_append, length_nil] <;> omega
    · refine gives_elemKind.bind (fun _ k hk => hvec.gives_one (fun l bs m hl hbs hle => ?_))
      refine ⟨⟨trivial, hl⟩, [0x03, 0x00] ++ bs, by simp only [element, hbs]; rfl, ?_⟩
      simp only [length_cons, length_append, length_nil]
      omega
    · exact .ite (fun _ => .refuse) (fun _ => .failAt)

/-- The mode of a data segment that can be written. -/
def DataModeFits : DataMode → Prop
  | .active m x => Fits32 m ∧ ExprFits x
  | .passive => True

/-- A data segment that can be written. -/
def DataFits (d : DataSegment) : Prop := DataModeFits d.mode ∧ d.data.length < 2 ^ 32

/-- The mode of a data segment comes back. -/
def DataModeBack : DataMode → DataMode → Prop
  | .active m x, .active m' x' => m' = m ∧ ExprBack x x'
  | .passive, .passive => True
  | _, _ => False

/-- A data segment comes back. -/
def DataBack (d d' : DataSegment) : Prop := DataModeBack d.mode d'.mode ∧ d'.data = d.data

theorem data_active {ts xs : List UInt8} (ht : index t = .ok ts) (hx : expr x = .ok xs) : data ⟨.active t x, bs⟩ =
      .ok (if t = 0 then 0x00 :: (xs ++ (counted bs ++ [])) else 0x02 :: (ts ++ (xs ++ (counted bs ++ [])))) := by
  simp only [data, ht, hx]
  by_cases h0 : t = 0 <;> simp [h0, bind, Except.bind, pure, Except.pure]

theorem format_data : Format readData data DataFits DataBack := by
  constructor
  · rintro ⟨mode, bytes⟩ ⟨hmode, hbytes⟩
    cases mode with
    | passive =>
      refine ⟨0x01 :: counted bytes, rfl, .flag (n := 1) (by omega) (fun offset => ?_)⟩
      rw [← append_nil (counted bytes)]
      exact .counted hbytes (.pure ⟨trivial, rfl⟩)
    | active t x =>
      obtain ⟨ht, hx⟩ := hmode
      obtain ⟨xs, hxs, htx⟩ := format_expr.back x hx
      obtain ⟨ts, hts, htt⟩ := format_index.back t ht
      refine ⟨_, data_active hts hxs, ?_⟩
      split
      next h0 =>
        refine .flag (n := 0) (by omega) (fun offset => htx.bind (fun x' hx' => .counted hbytes ?_))
        exact .pure ⟨⟨h0.symm, hx'⟩, rfl⟩
      next =>
        refine .flag (n := 2) (by omega) (fun offset => htt.bind (fun t' ht' => htx.bind (fun x' hx' => ?_)))
        exact .counted hbytes (.pure ⟨⟨ht', hx'⟩, rfl⟩)
  · refine Gives.position.bind (fun offset z hz => Gives.u32.bind (fun flags n hn => ?_))
    split
    · refine format_expr.shrinks.bind (fun x k hx => .counted (fun bytes m hbytes hle => .pure ?_))
      obtain ⟨hx, xs, hxs, hlx⟩ := hx
      refine ⟨⟨⟨⟨by omega, by omega⟩, hx⟩, hbytes⟩, _, data_active rfl hxs, ?_⟩
      simp only [if_true, length_cons, length_append, length_nil]
      omega
    · refine .counted (fun bytes m hbytes hle => .pure ⟨⟨trivial, hbytes⟩, 0x01 :: counted bytes, rfl, ?_⟩)
      rw [length_cons]
      omega
    · refine format_index.shrinks.bind (fun t o ht => format_expr.shrinks.bind (fun x k hx => ?_))
      refine .counted (fun bytes m hbytes hle => .pure ?_)
      obtain ⟨ht, ts, hts, hlt⟩ := ht
      obtain ⟨hx, xs, hxs, hlx⟩ := hx
      refine ⟨⟨⟨ht, hx⟩, hbytes⟩, _, data_active hts hxs, ?_⟩
      split <;> simp only [length_cons, length_append, length_nil] <;> omega
    · exact .failAt

/-! ### Locals -/

/-- The locals of groups, one by one. -/
def expand (gs : List (Nat × ValType)) : List ValType := gs.flatMap (fun g => List.replicate g.1 g.2)

/-- The bytes of a group of locals. -/
def groupBytes (g : Nat × ValType) : Written := do return unsigned g.1 ++ (← valType g.2)

/-- How many bytes groups take. -/
def groupsSize (gs : List (Nat × ValType)) : Nat := (gs.map (fun g => (unsigned g.1).length + 1)).sum

theorem runs_cons (t : ValType) (ts : List ValType) : runs (t :: ts) = match runs ts with
    | (n, u) :: more => if t == u then (n + 1, u) :: more else (1, t) :: (n, u) :: more
    | [] => [(1, t)] := rfl

theorem expand_runs (ts : List ValType) : expand (runs ts) = ts := by
  induction ts with
  | nil => rfl
  | cons t ts ih =>
    rw [runs_cons]
    cases hr : runs ts with
    | nil =>
      rw [hr] at ih
      rw [← ih]
      rfl
    | cons g more =>
      obtain ⟨n, u⟩ := g
      rw [hr] at ih
      dsimp only
      split
      next htu =>
        obtain rfl : t = u := by simpa using htu
        rw [← ih]
        simp [expand, replicate_succ]
      next =>
        rw [← ih]
        simp [expand]

theorem mem_of_mem_runs {ts : List ValType} (h : g ∈ runs ts) : g.2 ∈ ts := by
  induction ts generalizing g with
  | nil => cases h
  | cons t ts ih =>
    rw [runs_cons] at h
    cases hr : runs ts with
    | nil =>
      rw [hr] at h
      rw [mem_singleton.mp h]
      exact .head _
    | cons f more =>
      have hold : ∀ g ∈ f :: more, g.2 ∈ t :: ts := fun g hg => .tail _ (ih (hr ▸ hg))
      rw [hr] at h
      dsimp only at h
      split at h <;> rcases mem_cons.mp h with rfl | h
      · exact hold f (.head _)
      · exact hold g (.tail _ h)
      · exact .head _
      · exact hold g h

theorem lt_pow_length_unsigned (n : Nat) : n < 128 ^ (unsigned n).length := by
  fun_induction unsigned n with
  | case1 n h => simpa using h
  | case2 n h ih =>
    rw [length_cons, Nat.pow_succ]
    omega

theorem length_unsigned_pos (n : Nat) : 0 < (unsigned n).length := length_pos_iff.mpr (unsigned_ne_nil n)

theorem length_unsigned_mono (h : m ≤ n) : (unsigned m).length ≤ (unsigned n).length :=
  length_unsigned_le (length_unsigned_pos n) (Nat.lt_of_le_of_lt h (lt_pow_length_unsigned n))

/-- A sum takes no more bytes than its parts. -/
theorem length_unsigned_add (m n : Nat) : (unsigned (m + n)).length ≤ (unsigned m).length + (unsigned n).length := by
  have hm := lt_pow_length_unsigned m
  have hn := lt_pow_length_unsigned n
  have hm0 := length_unsigned_pos m
  have hn0 := length_unsigned_pos n
  refine length_unsigned_le (by omega) ?_
  have h1 : 128 ^ 1 ≤ 128 ^ (unsigned m).length := Nat.pow_le_pow_right (by omega) hm0
  have h2 : 128 ^ 1 ≤ 128 ^ (unsigned n).length := Nat.pow_le_pow_right (by omega) hn0
  have hmul := Nat.add_le_mul (show 2 ≤ 128 ^ (unsigned m).length by omega)
    (show 2 ≤ 128 ^ (unsigned n).length by omega)
  rw [Nat.pow_add]
  omega

theorem runs_replicate (hn : 0 < n) (t : ValType) (ts : List ValType) : runs (List.replicate n t ++ ts) =
      match runs ts with
      | (m, u) :: more => if t == u then (m + n, u) :: more else (n, t) :: (m, u) :: more
      | [] => [(n, t)] := by
  induction n with
  | zero => omega
  | succ n ih =>
    rw [replicate_succ, cons_append, runs_cons]
    rcases Nat.eq_zero_or_pos n with rfl | hn
    · rfl
    rw [ih hn]
    cases runs ts with
    | nil => simp
    | cons g more =>
      obtain ⟨m, u⟩ := g
      by_cases htu : (t == u) = true
      · simp only [if_pos htu]
        rfl
      · simp only [if_neg htu, beq_self_eq_true, if_true]

/-- The runs are never longer than the groups that locals were read from. -/
theorem runs_expand_le (gs : List (Nat × ValType)) :
    (runs (expand gs)).length ≤ gs.length ∧ groupsSize (runs (expand gs)) ≤ groupsSize gs := by
  induction gs with
  | nil => exact ⟨Nat.le_refl 0, Nat.le_refl 0⟩
  | cons g gs ih =>
    obtain ⟨n, t⟩ := g
    have hexp : expand ((n, t) :: gs) = List.replicate n t ++ expand gs := rfl
    have hsize : groupsSize ((n, t) :: gs) = (unsigned n).length + 1 + groupsSize gs := by simp [groupsSize]
    rw [hexp, hsize, length_cons]
    rcases Nat.eq_zero_or_pos n with rfl | hn
    · rw [replicate_zero, nil_append]
      omega
    rw [runs_replicate hn]
    cases hr : runs (expand gs) with
    | nil => simp [groupsSize]
    | cons f more =>
      obtain ⟨m, u⟩ := f
      rw [hr] at ih
      have hadd := length_unsigned_add m n
      simp only [groupsSize, map_cons, sum_cons, length_cons] at ih
      dsimp only
      split <;> simp only [groupsSize, map_cons, sum_cons, length_cons] <;> omega

theorem length_runs_le (ts : List ValType) : (runs ts).length ≤ ts.length := by
  have hexp : expand (ts.map (1, ·)) = ts := by simp [expand, flatMap_map]
  have hle := (runs_expand_le (ts.map (1, ·))).1
  rwa [hexp, length_map] at hle

theorem groupBytes_ok (h : valType g.2 = .ok bs) : groupBytes g = .ok (unsigned g.1 ++ bs) := by
  unfold groupBytes
  rw [h]
  rfl

/-- Groups of numeric types have as many bytes as they take. -/
theorem concat_groupBytes {gs : List (Nat × ValType)} (h : ∀ g ∈ gs, g.2.isNumeric = true) :
    ∃ bs, concat groupBytes gs = .ok bs ∧ bs.length = groupsSize gs := by
  induction gs with
  | nil => exact ⟨[], rfl, rfl⟩
  | cons g gs ih =>
    obtain ⟨b, hb⟩ := exists_code_of_isNumeric (h g (.head _))
    obtain ⟨bs, hbs, hlen⟩ := ih (fun g' hg' => h g' (.tail _ hg'))
    refine ⟨_, concat_cons_ok (groupBytes_ok (valType_ok hb)) hbs, ?_⟩
    simp only [length_append, length_cons, length_nil, hlen, groupsSize, map_cons, sum_cons]

theorem takes_readLocals (gs : List (Nat × ValType)) (count : Nat)
    (h : (∀ g ∈ gs, g.2.isNumeric = true)) (hcount : count + (expand gs).length ≤ maxLocals) :
    ∃ bs, concat groupBytes gs = .ok bs ∧ ∀ acc,
      Takes (readLocals gs.length count acc) bs (· = acc.reverse ++ expand gs) := by
  induction gs generalizing count with
  | nil =>
    exact ⟨[], rfl, fun acc => .pure (by simp [expand])⟩
  | cons g gs ih =>
    obtain ⟨n, t⟩ := g
    have hexp : (expand ((n, t) :: gs)).length = n + (expand gs).length := by simp [expand]
    obtain ⟨ts, hts, htt⟩ := format_valType.back t (h (n, t) (.head _))
    obtain ⟨bs, hbs, htake⟩ := ih (count + n) (fun g' hg' => h g' (.tail _ hg')) (by omega)
    refine ⟨_, concat_cons_ok (groupBytes_ok hts) hbs, fun acc => ?_⟩
    rw [append_assoc]
    refine (Takes.u32 (by unfold maxLocals at hcount; omega)).bind (fun k hk => htt.bind (fun t' ht' => ?_))
    subst hk ht'
    rw [if_neg (by omega)]
    refine (htake (List.replicate k t' ++ acc)).mono (fun l hl => hl.trans ?_)
    simp [expand]

theorem gives_readLocals (k count : Nat) (acc : List ValType) (hcount : count ≤ maxLocals) :
    Gives (readLocals k count acc) (fun l n => ∃ gs : List (Nat × ValType), gs.length = k ∧
      l = acc.reverse ++ expand gs ∧ (∀ g ∈ gs, g.2.isNumeric = true) ∧ count + (expand gs).length ≤ maxLocals ∧
      groupsSize gs ≤ n) := by
  induction k generalizing count acc with
  | zero => exact .pure ⟨[], rfl, by simp [expand], by simp, hcount, Nat.le_refl 0⟩
  | succ k ih =>
    refine Gives.u32.bind (fun m n hm => format_valType.shrinks.bind (fun t n' ht => ?_))
    refine Gives.ite (fun _ => Gives.position.bind (fun _ _ _ => Gives.failAt)) (fun hle => ?_)
    refine (ih (count + m) _ (by omega)).mono ?_
    obtain ⟨ht, bs, hbs, hlt⟩ := ht
    have hone : 1 ≤ n' := by
      obtain ⟨b, hb⟩ := exists_code_of_isNumeric ht
      rw [valType_ok hb] at hbs
      cases hbs
      exact hlt
    rintro l z ⟨gs, rfl, rfl, hgs, hsum, hsize⟩
    refine ⟨(m, t) :: gs, rfl, ?_, forall_mem_cons.mpr ⟨ht, hgs⟩, ?_, ?_⟩
    · simp [expand]
    · simp [expand] at hsum ⊢
      omega
    · simp only [groupsSize, map_cons, sum_cons] at hsize ⊢
      omega

/-! ### Code -/

/-- What the code of a function holds: locals, instructions, and a place. -/
abbrev CodeEntry := List ValType × List Placed × Nat

/-- The bytes of a code entry behind their count. -/
def codePayload (c : CodeEntry) : Written := do
  return (← locals c.1) ++ (← instrs (c.2.1.map Placed.instr))

/-- The bytes of a code entry. -/
def codeBytes (c : CodeEntry) : Written := code ⟨0, c.1, c.2.1, c.2.2⟩

/-- A body that can be written: its only `end` that closes no block is the last instruction. -/
def BodyFits (body : List Placed) : Prop :=
  ∃ ps q, body = ps ++ [q] ∧ q.instr = .end_ ∧ ExprFits ps

/-- A code entry that can be written. -/
def CodeFits (c : CodeEntry) : Prop :=
  (c.1.length ≤ maxLocals ∧ ∀ t ∈ c.1, t.isNumeric = true) ∧ BodyFits c.2.1 ∧
    ∀ bs, codePayload c = .ok bs → bs.length < 2 ^ 32

/-- A code entry comes back. -/
def CodeBack (c c' : CodeEntry) : Prop := c'.1 = c.1 ∧ ExprBack c.2.1 c'.2.1

variable {c : CodeEntry}

theorem codePayload_ok (hl : locals c.1 = .ok as) (hi : instrs (c.2.1.map Placed.instr) = .ok bs) :
    codePayload c = .ok (as ++ bs) := by
  unfold codePayload
  rw [hl, hi]
  rfl

theorem codeBytes_ok (hb : BodyFits c.2.1) (h : codePayload c = .ok bs) : codeBytes c = .ok (counted bs) := by
  obtain ⟨ps, q, hbody, hq, -⟩ := hb
  have hlast : ((c.2.1.map Placed.instr).getLast? == some Instr.end_) = true := by
    rw [hbody]
    simp [hq]
  unfold codePayload at h
  unfold codeBytes code
  simp only [hlast, if_true]
  rw [Except.bind_eq_ok] at h
  obtain ⟨as, has, h⟩ := h
  rw [Except.bind_eq_ok] at h
  obtain ⟨cs, hcs, h⟩ := h
  cases h
  rw [has, hcs]
  rfl

theorem instrs_body {ps : List Placed} {q : Placed} (hbs : instrs (ps.map Placed.instr) = .ok bs)
    (hq : q.instr = .end_) : instrs ((ps ++ [q]).map Placed.instr) = .ok (bs ++ [0x0b]) := by
  rw [map_append]
  refine concat_append_ok hbs ?_
  rw [map_singleton, hq]
  rfl

/-- Reads a code entry behind its count. -/
def readInside (fuel : Nat) : Reader (List ValType × List Placed) := do
  let locals ← readLocals (← u32) 0 []
  let instrs ← readInstrs true fuel 0 []
  return (locals, instrs)

theorem takes_readCode {P : List ValType × List Placed → Prop} (hlen : payload.length < 2 ^ 32)
    (h : Takes (readInside (payload.length + 1)) payload P) :
    Takes readCode (counted payload) (fun c => P (c.1, c.2.1)) := by
  refine (Takes.u32 hlen).bind (fun size hsize => Takes.position.skip (fun start _ => ?_))
  subst hsize
  intro part pos rest
  obtain ⟨⟨ls, is⟩, hread, hP⟩ := h part pos []
  rw [append_nil] at hread
  unfold readInside at hread
  refine ⟨(ls, is, start), ?_, hP⟩
  simp only [takeExact_append, reverse_nil, nil_append]
  rw [hread]
  rfl

theorem gives_readInside (fuel : Nat) : Gives (readInside fuel) (fun c n => (c.1.length ≤ maxLocals ∧
    ∀ t ∈ c.1, t.isNumeric = true) ∧ BodyFits c.2 ∧ ∀ off, ∃ bs, codePayload (c.1, c.2, off) = .ok bs ∧ bs.length ≤ n) := by
  refine Gives.u32.bind (fun k n hk => (gives_readLocals k 0 [] (Nat.zero_le _)).bind (fun ls m hls => ?_))
  refine (gives_readInstrs true fuel 0 []).bind (fun is z his => Gives.pure ?_)
  obtain ⟨gs, rfl, rfl, hnum, hcount, hsize⟩ := hls
  obtain ⟨ps, q, hq, rfl, hdepth, hfit, bs, hbs, hlt⟩ := his
  simp only [reverse_nil, nil_append, if_true, Nat.zero_add] at hcount ⊢
  have hmem : ∀ t ∈ expand gs, t.isNumeric = true := by
    intro t ht
    obtain ⟨g, hg, ht⟩ := mem_flatMap.mp ht
    rw [eq_of_mem_replicate ht]
    exact hnum g hg
  refine ⟨⟨hcount, hmem⟩, ⟨ps, q, rfl, hq, hfit, hdepth⟩, fun off => ?_⟩
  obtain ⟨xs, hxs, hlen⟩ := concat_groupBytes (fun g hg => hmem _ (mem_of_mem_runs hg))
  refine ⟨_, codePayload_ok (vectorM_ok hxs) (instrs_body hbs hq), ?_⟩
  obtain ⟨hfewer, hshorter⟩ := runs_expand_le gs
  have hmono := length_unsigned_mono hfewer
  simp only [length_append, length_cons, length_nil, hlen]
  omega

theorem format_code : Format readCode codeBytes CodeFits CodeBack := by
  constructor
  · rintro ⟨ls, body, off⟩ ⟨⟨hls, hnum⟩, hbody, hsize⟩
    obtain ⟨ps, q, rfl, hq, hfit, hdepth⟩ := id hbody
    dsimp only at hls hnum hbody
    -- The runs of the locals, then the instructions, then the end.
    obtain ⟨gs, hgs, htg⟩ := takes_readLocals (runs ls) 0 (fun g hg => hnum _ (mem_of_mem_runs hg))
      (by rw [expand_runs]; omega)
    obtain ⟨bs, hbs, htb⟩ := takes_readInstrs true (R := ExprBack (ps ++ [q])) hfit hdepth
    have hlocals : locals ls = .ok (unsigned (runs ls).length ++ gs) := vectorM_ok hgs
    have hpayload := codePayload_ok (c := (ls, ps ++ [q], off)) hlocals (instrs_body hbs hq)
    refine ⟨_, codeBytes_ok hbody hpayload, ?_⟩
    have hfuel := length_le_concat (fun _ _ => instr_pos) hbs
    rw [length_map] at hfuel
    obtain ⟨k, hk⟩ : ∃ k, (unsigned (runs ls).length ++ gs ++ (bs ++ [0x0b])).length + 1 = ps.length + (k + 1) :=
      ⟨(unsigned (runs ls).length ++ gs ++ (bs ++ [0x0b])).length - ps.length, by simp; omega⟩
    refine takes_readCode (P := fun c => c.1 = ls ∧ ExprBack (ps ++ [q]) c.2) (hsize _ hpayload) ?_
    rw [hk, append_assoc]
    have hfew : (runs ls).length < 2 ^ 32 := by
      have := length_runs_le ls
      unfold maxLocals at hls
      omega
    refine (Takes.u32 hfew).bind (fun n hn => ?_)
    subst hn
    refine (htg []).bind (fun l hl => ?_)
    refine (htb (k + 1) [] [0x0b] (fun qs hqs => (takes_lastEnd true k _).mono ?_)).last (fun is his => ?_)
    · rintro l ⟨q', hq', rfl⟩
      simp only [append_nil, if_true, reverse_cons, reverse_reverse]
      exact rel_append hqs (.cons (by rw [PlacedBack, hq, hq']; rfl) .nil)
    · refine .pure ⟨?_, his⟩
      rw [hl, expand_runs]
      rfl
  · unfold readCode
    refine Gives.u32.bind (fun size n hsize => Gives.position.bind (fun start z hz => ?_))
    rintro ⟨part, pos, bytes⟩ c' c'' h
    dsimp only at h
    split at h
    · cases h
    next inside rest htake =>
      obtain ⟨taken, rfl, hlen, rfl⟩ := takeExact_eq_some htake
      split at h
      · cases h
      next ls is b hread =>
        split at h
        next hempty =>
          cases h
          obtain ⟨m, hm, hls, hbody, hpayload⟩ := gives_readInside _ _ _ _ hread
          obtain ⟨bs, hbs, hshort⟩ := hpayload start
          rw [isEmpty_iff.mp hempty] at hm
          have hm : inside.length = m := hm
          refine ⟨size, by simp [hlen], ⟨hls, hbody, ?_⟩, _, codeBytes_ok hbody hbs, ?_⟩
          · intro bs' hbs'
            obtain rfl : bs = bs' := Except.ok.inj (hbs.symm.trans hbs')
            omega
          · have := length_unsigned_mono (show bs.length ≤ size by omega)
            simp only [counted, length_append]
            omega
        · cases h

end ScoreWasm.Wasm.Binary
