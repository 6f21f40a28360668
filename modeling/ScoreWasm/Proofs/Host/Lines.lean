import ScoreWasm.Host.Registry
import ScoreWasm.Proofs.Command.Reading
import ScoreWasm.Proofs.Library.Memory

/-!
# The lines of host functions

The commands of a host function are written with marks.  Whatever registers take their place, the lines of
the built-in host functions fit into the block that calls them (`tame_expand`).
-/

namespace ScoreWasm

open Text Emit List

variable {H : Home}

/-- Marks are filled in, and the one for the namespace by the namespace. -/
structure Marks (H : Home) (f : String → String) : Prop extends FillsIn f where
  name : ∀ {path}, Lacks '<' path → f ("<ns>:" ++ path) = inNamespace H.ns path

/-- A line with marks becomes one whose command fits. -/
structure Tame (H : Home) (f : String → String) (line : String) : Prop where
  isOpen : isOpen (f line) = true
  reads : Reads H 5 false (splitOn ' ' (f line))

/-- Whether a text is a mark for the namespace with a path that has a property. -/
def isMarked (p : String → Bool) (name : String) : Bool :=
  startsWith "<ns>:" name && p (Text.drop 5 name) && !(Text.drop 5 name).toList.contains '<'

/-- Whether a text without marks is a path with a property. -/
def isPlace (p : Path → Bool) (text : String) : Bool :=
  !text.toList.contains '<' && match parsePath text with
    | .ok path => p path
    | .error _ => true

/-- Whether a text without marks stands for numbers. -/
def isRecord (text : String) : Bool :=
  !text.toList.contains '<' && match parseData text with
    | .ok (.int _) => true
    | .ok (.compound es) => es.all fun e => !e.2.isContainer && (PathStep.key e.1).isPlain
    | _ => false

/-- The verbs of commands that are about nothing but scores, blocks and chat. -/
def isPlainVerb (w : String) : Bool :=
  decide (w ∉ ["execute", "return", "function", "data", "schedule"]) && !w.toList.contains '<'

/-- Whether the words of a line with marks are those of a command that fits where the line is put. -/
def isTame : List String → Bool
  | ["function", name] => isMarked isHelper name
  | ["return", "run", "function", name] => isMarked (· != "init") name
  | ["execute", "if", "score", _, _, "matches", _, "run", "return", "run", "function", name] =>
    isMarked (· != "init") name
  | ["execute", "if", "score", _, _, sign, _, _, "run", "return", "run", "function", name] =>
    sign == ">" && isMarked (· != "init") name
  | "execute" :: "store" :: "result" :: "score" :: _ :: _ :: "run" :: w :: _ => isPlainVerb w
  | "execute" :: "store" :: "result" :: "storage" :: _ :: path :: "int" :: _ :: "run" :: w :: _ =>
    isPlace Path.takesNumber path && isPlainVerb w
  | ["data", "modify", "storage", _, path, "append", "value", v] =>
    isPlace (List.all · PathStep.isPlain) path && isRecord v
  | w :: _ => isPlainVerb w
  | [] => false

theorem of_isPlace {p : Path → Bool} {text : String} (h : isPlace p text = true) :
    Lacks '<' text ∧ ∀ path, parsePath text = .ok path → p path = true := by
  simp only [isPlace, Bool.and_eq_true, Bool.not_eq_true', contains_eq_mem, decide_eq_false_iff_not] at h
  refine ⟨h.1, fun path hp => ?_⟩
  have := h.2
  rwa [hp] at this

theorem suited_of_isRecord {G : String → Prop} {v : String} (h : isRecord v = true) :
    Lacks '<' v ∧ ∀ line s, parseSource line (sentence ["value", v]) = .ok s → s.Suited G := by
  simp only [isRecord, Bool.and_eq_true, Bool.not_eq_true', contains_eq_mem, decide_eq_false_iff_not] at h
  refine ⟨h.1, fun line s hs => ?_⟩
  have hparse : parseSource line (sentence ["value", v]) = (parseData v).map .value := by
    simp [parseSource, sentence, Text.join, startsWith, Text.drop]
  rw [hparse] at hs
  obtain ⟨t, ht, rfl⟩ := Except.map_eq_ok.mp hs
  have := h.2
  rw [ht] at this
  cases t with
  | int i => trivial
  | compound es =>
    intro e he
    have := all_eq_true.mp this e he
    rw [Bool.and_eq_true, Bool.not_eq_true'] at this
    exact ⟨this.1, PathStep.takes_of_isPlain this.2 _ e.1 rfl⟩
  | _ => exact absurd this Bool.false_ne_true

section Tame

variable {f : String → String} (hf : Marks H f)

include hf

theorem tame_append {s w t : String} (hs : s = w ++ " " ++ t) (x : String) (hopen : isOpen s = true) (hw : Lacks ' ' w)
    (hm : Lacks '<' w) (hv : w ∉ ["execute", "return", "function", "data", "schedule"]) : Tame H f (s ++ x) := by
  refine ⟨hf.isOpen ?_, ?_⟩
  · rw [isOpen, String.toList_append]
    unfold isOpen at hopen
    cases h : s.toList with
    | nil => rw [h] at hopen; cases hopen
    | cons c cs => rwa [h] at hopen
  · rw [hf.words, hs, String.append_assoc, String.append_assoc, splitOn_append, splitOn_word hw,
      singleton_append, map_cons, hf.same hm]
    exact reads_plain hv

theorem tame_operate (a sign b : String) : Tame H f (Phrase.operate a sign b) := by
  unfold Phrase.operate
  simp only [String.append_assoc]
  exact tame_append hf (w := "scoreboard") (t := "players operation ") rfl _ (by decide) (by decide) (by decide) (by decide)

theorem tame_setScore (s : Score) (v : Int) : Tame H f (Command.setScore s v).render := by
  unfold Command.render
  simp only [String.append_assoc]
  exact tame_append hf (w := "scoreboard") (t := "players set ") rfl _ (by decide) (by decide) (by decide) (by decide)

theorem tame_tell (text : String) : Tame H f ("tellraw @a " ++ text) :=
  tame_append hf (w := "tellraw") (t := "@a ") rfl text (by decide) (by decide) (by decide) (by decide)

theorem reads_call {p : String → Bool} {name : String} (hname : isMarked p name = true) {tail : Bool}
    (hp : ∀ path, p path = true → level path + (if tail then 0 else 1) ≤ 5) : Reads H 5 tail ["function", f name] := by
  simp only [isMarked, startsWith, Bool.and_eq_true, isPrefixOf_iff_prefix, Bool.not_eq_true',
    contains_eq_mem, decide_eq_false_iff_not] at hname
  obtain ⟨⟨⟨t, ht⟩, hpath⟩, hm⟩ := hname
  have hname : name = "<ns>:" ++ Text.drop 5 name := by
    apply String.toList_injective
    simp [Text.drop, ← ht]
  rw [hname, hf.name hm]
  exact reads_function fun q hq => Library.inNamespace_inj.mp hq ▸ hp _ hpath

theorem reads_of_isTame {ws : List String} (h : isTame ws = true) : Reads H 5 false (ws.map f) := by
  have hcall : ∀ path, isHelper path = true → level path + 1 ≤ 5 := fun path => level_lt_five
  have hgoto : ∀ path, (path != "init") = true → level path + 0 ≤ 5 := fun path hp => level_le_five (by simpa using hp)
  have hverb : ∀ {w ws}, isPlainVerb w = true → Reads H 5 false (f w :: ws) := by
    intro w ws hw
    simp only [isPlainVerb, Bool.and_eq_true, decide_eq_true_eq, Bool.not_eq_true', contains_eq_mem,
      decide_eq_false_iff_not] at hw
    rw [hf.same hw.2]
    exact reads_plain hw.1
  unfold isTame at h
  split at h <;> simp (disch := decide) only [map_cons, map_nil, hf.same]
  · exact reads_call hf h hcall
  · exact reads_retRun (reads_call hf h hgoto)
  · exact reads_execute (readsClauses_if (fun _ _ => parseTest_within)
      (readsClauses_run (reads_retRun (reads_call hf h hgoto))))
  · simp only [Bool.and_eq_true, beq_iff_eq] at h
    obtain ⟨rfl, h⟩ := h
    rw [hf.same (s := ">") (by decide)]
    exact reads_execute (readsClauses_if (fun _ _ => parseTest_compare (by decide))
      (readsClauses_run (reads_retRun (reads_call hf h hgoto))))
  · exact reads_execute (readsClauses_store (fun _ _ => parseStore_score) (readsClauses_run (hverb h)))
  · rw [Bool.and_eq_true] at h
    obtain ⟨hm, hpath⟩ := of_isPlace h.1
    rw [hf.same hm]
    exact reads_execute (readsClauses_store (fun _ _ => parseStore_storage hpath) (readsClauses_run (hverb h.2)))
  · rw [Bool.and_eq_true] at h
    obtain ⟨hm, hpath⟩ := of_isPlace h.1
    obtain ⟨hm', hsrc⟩ := suited_of_isRecord h.2
    rw [hf.same hm, hf.same hm']
    exact reads_append hpath hsrc
  · exact hverb h
  · cases h

theorem tame_of_isTame {line : String} (h : isOpen line = true ∧ isTame (splitOn ' ' line) = true) : Tame H f line :=
  ⟨hf.isOpen h.1, by rw [hf.words]; exact reads_of_isTame hf h.2⟩

end Tame

namespace Host

variable {args : List String} {result : Option String}

theorem tame_builtins {f : String → String} (hf : Marks H f) : ∀ h ∈ builtins, ∀ c ∈ h.commands, Tame H f c := by
  simp only [builtins, env, turtleAxis, turtleBlock, turtleBox, recordWords, offsetsFrom, noOffsets, Phrase.copy, forall_mem_cons,
    not_mem_nil, false_implies, implies_true, and_true, map_cons, map_nil,
    zip_cons_cons, zip_nil_right, cons_append, nil_append]
  and_intros
  all_goals first
    | with_reducible exact tame_operate hf _ _ _
    | with_reducible exact tame_setScore hf _ _
    | with_reducible exact tame_tell hf _
    | (refine tame_of_isTame hf ?_; decide +kernel)

theorem fillsIn_fillArgument (i : Nat) {reg : String} (h : Lacks ' ' reg) : FillsIn (fillArgument i reg) := by
  have hi : Lacks ' ' (toString i) := lacks_natText (by decide) i
  have hhigh := fillsIn_replace (m := "arg" ++ toString i ++ "h>") (((by decide : Lacks ' ' "arg").append hi).append (by decide))
    (h.append (by decide : Lacks ' ' "h"))
  have hlow := fillsIn_replace (m := "arg" ++ toString i ++ ">") (((by decide : Lacks ' ' "arg").append hi).append (by decide)) h
  have hmark : ∀ t, "<" ++ ("arg" ++ toString i ++ t) = "<arg" ++ toString i ++ t := by
    intro t
    rw [show "<arg" = "<" ++ "arg" from rfl]
    simp only [String.append_assoc]
  exact hlow.comp hhigh

theorem fillsIn_fillArguments (h : ∀ reg ∈ args, Lacks ' ' reg) : FillsIn (fillArguments args) := by
  have hall : ∀ l : List (String × Nat), (∀ x ∈ l, Lacks ' ' x.1) →
      FillsIn fun s => l.foldr (fun x line => fillArgument x.2 x.1 line) s := by
    intro l
    induction l with
    | nil => exact fun _ => .id
    | cons x l ih =>
      intro hl
      exact (fillsIn_fillArgument x.2 (hl x (mem_cons_self ..))).comp (ih fun y hy => hl y (mem_cons_of_mem x hy))
  exact hall args.zipIdx fun x hx => h x.1 (fst_mem_of_mem_zipIdx hx)

theorem fillsIn_fillResult (h : ∀ reg ∈ result, Lacks ' ' reg) : FillsIn (fillResult result) := by
  cases result with
  | none => exact .id
  | some reg =>
    have hreg := h reg rfl
    exact (fillsIn_replace (m := "result>") (by decide) hreg).comp
      (fillsIn_replace (m := "resulth>") (by decide) (hreg.append (by decide : Lacks ' ' "h")))

theorem marks_fill (hb : Lacks ' ' H.ns) (hm : Lacks '<' H.ns) (hargs : ∀ reg ∈ args, Lacks ' ' reg)
    (hresult : ∀ reg ∈ result, Lacks ' ' reg) :
    Marks H fun s => fillArguments args (fillResult result (Text.replace s "<ns>" H.ns)) := by
  have hfill : FillsIn fun s => fillArguments args (fillResult result s) :=
    (fillsIn_fillArguments hargs).comp (fillsIn_fillResult hresult)
  refine ⟨hfill.comp (fillsIn_replace (m := "ns>") (by decide) hb), fun {path} hpath => ?_⟩
  have hns' : Text.replace ("<ns>:" ++ path) ("<" ++ "ns>") H.ns = inNamespace H.ns path := by
    have hchars : ("<ns>:" ++ path).toList = '<' :: ("ns>".toList ++ ':' :: path.toList) := by simp
    have hrest : '<' ∉ ':' :: path.toList := by simpa [Lacks] using hpath
    rw [replace_eq, hchars, substitute_cons, if_pos (by simp [List.isPrefixOf]), drop_left, substitute_eq_self hrest]
    exact String.toList_injective (by simp [inNamespace])
  rw [show "<ns>" = "<" ++ "ns>" from rfl, hns']
  exact hfill.same ((hm.append (by decide)).append hpath)

/-- **The lines of a built-in host function fit where they are put.** -/
theorem tame_expand {h : Host} (hh : h ∈ builtins) (hb : Lacks ' ' H.ns) (hm : Lacks '<' H.ns)
    (hargs : ∀ reg ∈ args, Lacks ' ' reg) (hresult : ∀ reg ∈ result, Lacks ' ' reg) :
    ∀ line ∈ h.expand H.ns args result, isOpen line = true ∧ Reads H 5 false (splitOn ' ' line) := by
  intro line hline
  obtain ⟨c, hc, rfl⟩ := mem_map.mp hline
  have := tame_builtins (marks_fill hb hm hargs hresult) h hh c hc
  exact ⟨this.isOpen, this.reads⟩

end Host

end ScoreWasm
