import ScoreWasm.Proofs.Machine.Layers
import ScoreWasm.Proofs.Monad

/-!
# Reading lines of which only parts are known

A line is cut into the words of its parts, and marks in it are replaced word by word.  The words of a command
that is about scores, blocks and chat fit everywhere (`reads_plain`), and a command with others in it fits if
these do.
-/

namespace ScoreWasm

open List ScoreWasm.Except

variable {d : Command} {w : String} {r : Test × List String}

namespace Text

variable {c : Char}

/-! ### Lines out of parts -/

theorem lacks_natText (hc : c.isDigit = false) (n : Nat) : Lacks c (toString n) := by
  intro h
  rw [Nat.toString_eq_ofList_toDigits, String.toList_ofList] at h
  rw [isDigit_of_mem_decimal h] at hc
  cases hc

theorem lacks_intText (hc : c.isDigit = false) (hm : c ≠ '-') (i : Int) : Lacks c (toString i) := by
  cases i with
  | ofNat n => exact lacks_natText hc n
  | negSucc n => exact Lacks.append (by simpa [Lacks] using hm) (lacks_natText hc (n + 1))

/-! ### Replacing -/

section Replace

variable {m by_ : List Char}

theorem replaceChars_eq (mark : List Char) : ∀ (f g : Nat) (out cs : List Char), mark ≠ [] → cs.length ≤ f →
    cs.length ≤ g → replaceChars mark by_ f out cs = out.reverse ++ replaceChars mark by_ g [] cs
  | f, g, out, [], _, _, _ => by cases f <;> cases g <;> simp [replaceChars]
  | f + 1, g + 1, out, c :: cs, hm, hf, hg => by
    have := length_pos_iff.mpr hm
    simp only [length_cons, Nat.add_le_add_iff_right] at hf hg
    have hlen : ((c :: cs).drop mark.length).length ≤ cs.length := by
      simp only [length_drop, length_cons]
      omega
    simp only [replaceChars]
    split
    · rw [replaceChars_eq mark f g _ _ hm (by omega) (by omega),
        replaceChars_eq mark g g (by_.reverse ++ []) _ hm (by omega) (by omega)]
      simp
    · rw [replaceChars_eq mark f g _ _ hm hf hg, replaceChars_eq mark g g [c] _ hm hg hg]
      simp

/-- Fills the places of one macro variable. -/
def substitute (m by_ cs : List Char) : List Char := replaceChars ('<' :: m) by_ cs.length [] cs

theorem substitute_cons (c : Char) (cs : List Char) : substitute m by_ (c :: cs) =
    if ('<' :: m).isPrefixOf (c :: cs) then by_ ++ substitute m by_ (cs.drop m.length) else c :: substitute m by_ cs := by
  have hm : '<' :: m ≠ [] := cons_ne_nil _ _
  rw [substitute, length_cons, replaceChars]
  split
  · rw [replaceChars_eq _ _ (cs.drop m.length).length _ _ hm (by simp) (by simp)]
    simp [substitute]
  · rw [replaceChars_eq _ _ cs.length _ _ hm (le_refl _) (le_refl _)]
    simp [substitute]

theorem substitute_eq_self : ∀ {cs : List Char}, '<' ∉ cs → substitute m by_ cs = cs
  | [], _ => rfl
  | c :: cs, h => by
    rw [mem_cons, not_or] at h
    rw [substitute_cons, if_neg, substitute_eq_self h.2]
    simp [h.1]

theorem substitute_append (hm : ' ' ∉ m) (b : List Char) (a : List Char) :
    substitute m by_ (a ++ ' ' :: b) = substitute m by_ a ++ ' ' :: substitute m by_ b := by
  induction hn : a.length using Nat.strong_induction_on generalizing a with
  | _ n ih =>
    cases a with
    | nil => simp [substitute_cons, show substitute m by_ [] = [] from rfl]
    | cons c a =>
      have hiff : '<' :: m <+: c :: (a ++ ' ' :: b) ↔ '<' :: m <+: c :: a := by
        refine ⟨?_, fun h => h.trans (prefix_append (c :: a) _)⟩
        rintro ⟨t, ht⟩
        obtain ⟨r, hr, -⟩ | ⟨r, hr, hb⟩ := append_eq_append_iff.mp (ht.trans (cons_append ..).symm)
        · exact ⟨r, hr.symm⟩
        · cases r with
          | nil => exact ⟨[], by simpa using hr⟩
          | cons x r =>
            cases hb
            have : ' ' ∈ '<' :: m := hr ▸ (by simp)
            exact absurd this (by simpa using hm)
      rw [cons_append, substitute_cons, substitute_cons]
      simp only [hiff, isPrefixOf_iff_prefix]
      split
      · rename_i h
        have := h.length_le
        simp only [length_cons, Nat.add_le_add_iff_right] at this
        rw [drop_append_of_le_length this, ih _ (by grind) _ rfl, append_assoc]
      · rw [ih a.length (by grind) a rfl]
        rfl

theorem not_mem_substitute {x : Char} (hb : x ∉ by_) (cs : List Char) (hx : x ∉ cs) : x ∉ substitute m by_ cs := by
  induction hn : cs.length using Nat.strong_induction_on generalizing cs with
  | _ n ih =>
    cases cs with
    | nil => exact hx
    | cons c cs =>
      rw [mem_cons, not_or] at hx
      rw [substitute_cons]
      split
      · rw [mem_append, not_or]
        exact ⟨hb, ih _ (by grind) _ (fun h => hx.2 (mem_of_mem_drop h)) rfl⟩
      · rw [mem_cons, not_or]
        exact ⟨hx.1, ih _ (by grind) cs hx.2 rfl⟩

theorem cut_substitute (hm : ' ' ∉ m) (hb : ' ' ∉ by_) (cs : List Char) :
    cut (· == ' ') (substitute m by_ cs) = (cut (· == ' ') cs).map (substitute m by_) := by
  have hword : ∀ {l : List Char}, ' ' ∉ l → cut (· == ' ') l = [l] := fun hl => cut_of_lacks (by grind)
  induction hn : cs.length using Nat.strong_induction_on generalizing cs with
  | _ n ih =>
    by_cases h : ' ' ∈ cs
    · obtain ⟨a, b, rfl, ha⟩ := eq_append_cons_of_mem h
      rw [substitute_append hm, cut_append (by rfl), cut_append (by rfl),
        ih b.length (by grind) b rfl, hword ha, hword (not_mem_substitute hb a ha), map_append]
      rfl
    · rw [hword h, hword (not_mem_substitute hb cs h)]
      rfl

end Replace

/-- Whether a line begins neither with a mark nor as a template. -/
def isOpen (s : String) : Bool := s.toList.head?.any (fun c => c != '<' && c != '$')

/-- Texts are put into a line word by word, and words without marks stay. -/
structure FillsIn (f : String → String) : Prop where
  words : ∀ s, splitOn ' ' (f s) = (splitOn ' ' s).map f
  same : ∀ {s}, Lacks '<' s → f s = s
  isOpen : ∀ {s}, isOpen s = true → isOpen (f s) = true

theorem FillsIn.id : FillsIn fun s => s := ⟨fun _ => (map_id _).symm, fun _ => rfl, fun h => h⟩

theorem FillsIn.comp {f g : String → String} (hf : FillsIn f) (hg : FillsIn g) : FillsIn (fun s => f (g s)) :=
  ⟨fun s => by rw [hf.words, hg.words, map_map]; rfl, fun hs => by rw [hg.same hs, hf.same hs],
    fun h => hf.isOpen (hg.isOpen h)⟩

theorem replace_eq (m by_ s : String) :
    replace s ("<" ++ m) by_ = String.ofList (substitute m.toList by_.toList s.toList) := by
  simp [replace, substitute, String.length_toList]

theorem fillsIn_replace {m by_ : String} (hm : Lacks ' ' m) (hb : Lacks ' ' by_) :
    FillsIn (fun s => replace s ("<" ++ m) by_) := by
  refine ⟨fun s => ?_, fun hs => ?_, fun {s} h => ?_⟩
  · simp only [replace_eq, splitOn, String.toList_ofList, cut_substitute hm hb, map_map]
    congr 1
    funext w
    simp
  · rw [replace_eq, substitute_eq_self hs, String.ofList_toList]
  · rw [isOpen, replace_eq, String.toList_ofList]
    rw [isOpen] at h
    cases hs : s.toList with
    | nil => rw [hs] at h; cases h
    | cons c cs =>
      rw [hs] at h
      have hc : c ≠ '<' := by rintro rfl; cases h
      rwa [substitute_cons, if_neg (by simp [hc.symm])]

end Text

open Text Emit

/-! ### Commands from words -/

/-- The command of some words, if they are one, fits. -/
def Reads (H : Home) (n : Nat) (tail : Bool) (words : List String) : Prop :=
  ∀ fuel depth d, parseWords fuel depth words = .ok d → d.Fits H n tail

/-- The clauses of some words have no stores but of numbers, and their body fits. -/
def ReadsClauses (H : Home) (n : Nat) (tail : Bool) (words : List String) : Prop :=
  ∀ line fuel done r, (∀ s, .store s ∈ done → s.Suited) → parseClauses line fuel done words = .ok r →
    (∀ s, .store s ∈ r.1 → s.Suited) ∧ ∀ body, r.2 = some body → Reads H n tail body

variable {H : Home} {n : Nat} {tail : Bool} {words rest : List String} {line : String}

theorem fits_parseScoreboard (h : parseScoreboard line words = .ok d) : d.Fits H n tail := by
  unfold parseScoreboard at h
  split at h
  all_goals first | contradiction | (obtain ⟨i, -, rfl⟩ := map_eq_ok.mp h; trivial) | (cases h; trivial)

/-- Commands are about scores, blocks and chat unless their first word says otherwise. -/
theorem fits_parseSimple (hw : w ∉ ["function", "data", "schedule"])
    (h : parseSimple line (w :: words) = .ok d) : d.Fits H n tail := by
  unfold parseSimple at h
  split at h
  · exact fits_parseScoreboard h
  · simp_all
  · split at h
    · cases h
      trivial
    · obtain ⟨i, -, rfl⟩ := map_eq_ok.mp h
      trivial
  · simp_all
  · simp_all
  · simp_all
  · simp_all
  · split at h
    · split at h
      · cases h
        trivial
      · cases h
    · cases h
  · cases h
    trivial
  · split at h
    · obtain ⟨i, -, rfl⟩ := map_eq_ok.mp h
      trivial
    · cases h
  · obtain ⟨a, -, h⟩ := bind_eq_ok.mp h
    cases h
    trivial
  · obtain ⟨a, -, h⟩ := bind_eq_ok.mp h
    obtain ⟨b, -, h⟩ := bind_eq_ok.mp h
    cases h
    trivial
  · split at h
    · cases h
    · obtain ⟨a, -, h⟩ := bind_eq_ok.mp h
      obtain ⟨b, -, h⟩ := bind_eq_ok.mp h
      obtain ⟨c, -, h⟩ := bind_eq_ok.mp h
      split at h <;> cases h
      all_goals trivial
  · cases h

theorem reads_plain (hw : w ∉ ["execute", "return", "function", "data", "schedule"]) : Reads H n tail (w :: words) := by
  rintro (_ | fuel) depth d h
  · cases h
  unfold parseWords at h
  split at h
  · simp_all
  · simp_all
  · exact fits_parseSimple (by simp_all) h

theorem reads_execute (h : ReadsClauses H n tail words) : Reads H n tail ("execute" :: words) := by
  rintro (_ | fuel) depth d hd
  · cases hd
  obtain ⟨⟨clauses, body⟩, hc, hd⟩ := bind_eq_ok.mp hd
  obtain ⟨hs, hb⟩ := h _ _ [] _ (by simp) hc
  cases body with
  | none =>
    cases hd
    exact hs
  | some body =>
    simp only at hd
    split at hd
    · cases hd
    · obtain ⟨b, hb', hd⟩ := bind_eq_ok.mp hd
      cases hd
      exact ⟨hs, hb body rfl _ _ _ hb'⟩

theorem reads_retRun (h : Reads H n true (w :: words)) : Reads H n tail ("return" :: "run" :: w :: words) := by
  rintro (_ | fuel) depth d hd
  · cases hd
  simp only [parseWords] at hd
  split at hd
  · cases hd
  · obtain ⟨b, hb, hd⟩ := bind_eq_ok.mp hd
    cases hd
    exact h _ _ _ hb

theorem reads_function {name : String}
    (h : ∀ path, name = inNamespace H.ns path → level path + (if tail then 0 else 1) ≤ n) : Reads H n tail ["function", name] := by
  rintro (_ | fuel) depth d hd
  · cases hd
  cases hd
  exact ⟨h, by simp⟩

theorem reads_getData : Reads H n tail ("data" :: "get" :: words) := by
  rintro (_ | fuel) depth d h
  · cases h
  change parseDataCommand _ ("get" :: words) = .ok d at h
  unfold parseDataCommand at h
  match words with
  | [] => cases h
  | target :: words =>
    dsimp only at h
    split at h
    · cases h
    · match words with
      | [] | [_] => cases h
      | [id, path] =>
        obtain ⟨p, -, rfl⟩ := map_eq_ok.mp h
        trivial
      | id :: path :: scale :: _ =>
        obtain ⟨x, -, h⟩ := bind_eq_ok.mp h
        obtain ⟨p, -, h⟩ := bind_eq_ok.mp h
        cases h
        trivial

theorem reads_append {id path : String} (hpath : ∀ p, parsePath path = .ok p → p.all PathStep.isPlain = true)
    (hsrc : ∀ line s, parseSource line (sentence ("value" :: rest)) = .ok s → s.Suited H.Names) :
    Reads H n tail ("data" :: "modify" :: "storage" :: id :: path :: "append" :: "value" :: rest) := by
  rintro (_ | fuel) depth d h
  · cases h
  obtain ⟨p, hp, h⟩ := bind_eq_ok.mp (show (parsePath path >>= _) = _ from h)
  obtain ⟨s, hs, h⟩ := bind_eq_ok.mp h
  cases h
  exact ⟨hpath p hp, hsrc _ s hs⟩

theorem readsClauses_run (h : Reads H n tail words) : ReadsClauses H n tail ("run" :: words) := by
  rintro line (_ | fuel) done r hdone hr
  · cases hr
    simpa using hdone
  · cases hr
    simpa [h] using hdone

theorem readsClauses_if (hparse : ∀ line r, parseTest line words = .ok r → r.2 = rest)
    (h : ReadsClauses H n tail rest) : ReadsClauses H n tail ("if" :: words) := by
  rintro line (_ | fuel) done r hdone hr
  · cases hr
    simpa using hdone
  · simp only [parseClauses] at hr
    obtain ⟨⟨t, rest'⟩, ht, hr⟩ := bind_eq_ok.mp hr
    cases hparse _ _ ht
    exact h _ _ _ _ (by simpa using hdone) hr

theorem readsClauses_store (hparse : ∀ line r, parseStore line words = .ok r → r.1.Suited ∧
    r.2 = rest) (h : ReadsClauses H n tail rest) : ReadsClauses H n tail ("store" :: words) := by
  rintro line (_ | fuel) done r hdone hr
  · cases hr
    simpa using hdone
  · simp only [parseClauses] at hr
    obtain ⟨⟨t, rest'⟩, ht, hr⟩ := bind_eq_ok.mp hr
    obtain ⟨hs, rfl⟩ := hparse _ _ ht
    exact h _ _ _ _ (by simpa [hs] using hdone) hr

theorem parseStore_score {a b : String} {r : Store × List String}
    (h : parseStore line ("result" :: "score" :: a :: b :: rest) = .ok r) : r.1.Suited ∧ r.2 = rest := by
  cases h
  exact ⟨trivial, rfl⟩

theorem parseStore_storage {id path scale : String} (hpath : ∀ p, parsePath path = .ok p → p.takesNumber = true)
    {r : Store × List String} (h : parseStore line ("result" :: "storage" :: id :: path :: "int" :: scale :: rest) = .ok r) :
    r.1.Suited ∧ r.2 = rest := by
  obtain ⟨p, hp, h⟩ := bind_eq_ok.mp h
  obtain ⟨x, -, h⟩ := bind_eq_ok.mp h
  cases h
  exact ⟨⟨rfl, hpath p hp⟩, rfl⟩

theorem parseTest_within {a b range : String}
    (h : parseTest line ("score" :: a :: b :: "matches" :: range :: rest) = .ok r) : r.2 = rest := by
  obtain ⟨x, -, rfl⟩ := map_eq_ok.mp h
  rfl

theorem parseTest_compare {a b sign c d : String} (hs : sign ≠ "matches")
    (h : parseTest line ("score" :: a :: b :: sign :: c :: d :: rest) = .ok r) : r.2 = rest := by
  simp only [parseTest] at h
  cases h
  rfl

theorem parseTest_block {x y z id : String}
    (h : parseTest line ("block" :: x :: y :: z :: id :: rest) = .ok r) : r.2 = rest := by
  obtain ⟨i, -, h⟩ := bind_eq_ok.mp h
  obtain ⟨j, -, h⟩ := bind_eq_ok.mp h
  obtain ⟨k, -, h⟩ := bind_eq_ok.mp h
  cases h
  rfl

end ScoreWasm
