import CoolTree.Proofs.Stream
import Mathlib.Data.List.Chain

/-!
# Backslash pairs

The body of a string literal is read from left to right in backslash pairs and single characters.
Cutting a text into these pairs says where an escape sequence stands, where a quote is one of the
text and where it closes, and what the text means. The parts of a body that has been read are the
one way to gather its pairs: five of them stand alone, and the others in runs as long as can be.
-/

namespace CoolTree

namespace Body

/-- A text cut from left to right into backslash pairs and single characters. Only a backslash at
the very end is single. -/
def pairs : List Char → List (List Char)
  | [] => []
  | '\\' :: c :: rest => ['\\', c] :: pairs rest
  | c :: rest => [c] :: pairs rest

/-- The pairs that are escape sequences. -/
def escapes : List (List Char) :=
  [['\\', 'b'], ['\\', 't'], ['\\', 'n'], ['\\', 'f'], ['\\', '"']]

theorem mem_escapes {c : Char} : ['\\', c] ∈ escapes ↔ BodyPart.escapable c = true := by
  simp [escapes, BodyPart.escapable, or_assoc]

theorem exists_eq_of_mem_escapes {pair : List Char} (h : pair ∈ escapes) :
    ∃ c, pair = ['\\', c] := by
  simp only [escapes, List.mem_cons, List.not_mem_nil, or_false] at h
  rcases h with rfl | rfl | rfl | rfl | rfl <;> exact ⟨_, rfl⟩

/-- A pair that is cut off whatever stands behind it. All are of this kind but the lone backslash
at the end of a text. -/
def IsPair (pair : List Char) : Prop :=
  ∀ rest, pairs (pair ++ rest) = pair :: pairs rest

namespace IsPair

theorem backslash (c : Char) : IsPair ['\\', c] :=
  fun _ ↦ rfl

theorem single {c : Char} (h : c ≠ '\\') : IsPair [c] := by
  intro rest
  rw [List.singleton_append, pairs]
  rintro d rest' rfl -
  exact h rfl

variable {pair : List Char}

theorem ne_nil (h : IsPair pair) : pair ≠ [] := by
  rintro rfl
  simpa [pairs] using h []

theorem ne_lone (h : IsPair pair) : pair ≠ ['\\'] := by
  rintro rfl
  simpa [pairs] using h ['b']

theorem pairs_eq (h : IsPair pair) : pairs pair = [pair] := by
  simpa [pairs] using h []

theorem eq_cases (h : IsPair pair) : (∃ c, pair = ['\\', c]) ∨ ∃ c, c ≠ '\\' ∧ pair = [c] := by
  rcases pair with _ | ⟨c, rest⟩
  · exact (h.ne_nil rfl).elim
  · have hpairs := h.pairs_eq
    by_cases hc : c = '\\'
    · subst hc
      cases rest with
      | nil => exact (h.ne_lone rfl).elim
      | cons d rest => exact .inl ⟨d, ((List.cons.inj hpairs).1).symm⟩
    · rw [← List.singleton_append, single hc] at hpairs
      exact .inr ⟨c, hc, ((List.cons.inj hpairs).1).symm⟩

end IsPair

/-- Texts are built from their pairs. -/
theorem pairs_induction {motive : List Char → Prop} (nil : motive []) (lone : motive ['\\'])
    (append : ∀ pair rest, IsPair pair → motive rest → motive (pair ++ rest)) (text : List Char) :
    motive text := by
  fun_induction pairs text with
  | case1 => exact nil
  | case2 c rest ih => exact append ['\\', c] rest (.backslash c) ih
  | case3 c rest hpair ih =>
      by_cases hc : c = '\\'
      · subst hc
        cases rest with
        | nil => exact lone
        | cons d rest => exact (hpair d rest rfl rfl).elim
      · exact append [c] rest (.single hc) ih

theorem flatten_pairs (text : List Char) : (pairs text).flatten = text := by
  induction text using pairs_induction with
  | nil | lone => rfl
  | append pair rest hpair ih => rw [hpair rest, List.flatten_cons, ih]

/-- A text that ends between pairs does not change how the text behind it is cut. -/
theorem pairs_append {text : List Char} (h : ['\\'] ∉ pairs text) (behind : List Char) :
    pairs (text ++ behind) = pairs text ++ pairs behind := by
  induction text using pairs_induction with
  | nil => rfl
  | lone => exact (h List.mem_cons_self).elim
  | append pair rest hpair ih =>
      rw [hpair rest, List.mem_cons, not_or] at h
      rw [List.append_assoc, hpair, hpair, ih h.2, List.cons_append]

/-- What a pair means. A backslash at the very end means itself. -/
def pairValue : List Char → Char
  | ['\\', c] => unescapePair c
  | c :: _ => c
  | [] => '\\'

theorem unescape_eq_map_pairs (text : List Char) : unescape text = (pairs text).map pairValue := by
  fun_induction unescape text with
  | case1 => rfl
  | case2 => rfl
  | case3 c rest ih =>
      rw [pairs, List.map_cons, ← ih]
      rfl
  | case4 c rest hlone hpair ih =>
      have hc : c ≠ '\\' := by
        rintro rfl
        cases rest with
        | nil => exact hlone rfl rfl
        | cons d rest => exact hpair d rest rfl rfl
      have hcut : pairs (c :: rest) = [c] :: pairs rest := IsPair.single hc rest
      rw [hcut, List.map_cons, ← ih, pairValue]
      simp

end Body

namespace BodyPart

def isEscape : BodyPart → Bool
  | content _ => false
  | escape _ => true

/-- Puts a pair in front of parts. An escape sequence stands alone, and any other pair goes into
the run in front of which it stands. -/
def add : List Char → List BodyPart → List BodyPart
  | ['\\', c], parts => if escapable c then escape c :: parts else addContent ['\\', c] parts
  | pair, parts => addContent pair parts

/-- The parts that pairs make. -/
def gather (pairs : List (List Char)) : List BodyPart :=
  pairs.foldr add []

theorem add_of_mem_escapes {c : Char} (h : ['\\', c] ∈ Body.escapes) (parts : List BodyPart) :
    add ['\\', c] parts = escape c :: parts := by
  rw [add, if_pos (Body.mem_escapes.mp h)]

theorem add_of_not_mem_escapes {pair : List Char} (h : pair ∉ Body.escapes)
    (parts : List BodyPart) : add pair parts = addContent pair parts := by
  unfold add
  split
  · rw [if_neg (fun hc ↦ h (Body.mem_escapes.mpr hc))]
  · rfl

/-- Pairs that are no escape sequences make one run. -/
theorem foldr_add {pairs : List (List Char)} (hne : pairs ≠ [])
    (hfree : ∀ pair ∈ pairs, pair ∉ Body.escapes) {parts : List BodyPart}
    (hparts : ∀ part ∈ parts.head?, part.isEscape = true) :
    pairs.foldr add parts = content pairs.flatten :: parts := by
  induction pairs with
  | nil => exact (hne rfl).elim
  | cons pair pairs ih =>
      obtain ⟨hpair, hpairs⟩ := List.forall_mem_cons.mp hfree
      rw [List.foldr_cons, add_of_not_mem_escapes hpair, List.flatten_cons]
      cases pairs with
      | nil =>
          rcases parts with _ | ⟨_ | c, parts⟩
          · simp [addContent]
          · simp [isEscape] at hparts
          · simp [addContent]
      | cons next pairs =>
          rw [ih (List.cons_ne_nil _ _) hpairs]
          rfl

end BodyPart

namespace Body

open BodyPart

/-- How the parts of a body lie in its text: one behind the other, none of them empty, and no two
runs side by side. The pairs of the text are those of the parts, and no run holds a pair that is an
escape sequence. -/
structure Divides (parts : List BodyPart) (text : List Char) : Prop where
  flatMap_text : parts.flatMap BodyPart.text = text
  ne_nil : ∀ part ∈ parts, part.text ≠ []
  apart : parts.IsChain fun a b ↦ a.isEscape = true ∨ b.isEscape = true
  pairs_text : pairs text = parts.flatMap fun part ↦ pairs part.text
  escape : ∀ c, .escape c ∈ parts → ['\\', c] ∈ escapes
  content : ∀ run, .content run ∈ parts → ∀ pair ∈ pairs run, pair ∉ escapes

namespace Divides

variable {parts : List BodyPart} {text : List Char}

theorem nil : Divides [] [] :=
  ⟨rfl, by simp, .nil, rfl, by simp, by simp⟩

theorem escape_cons (h : Divides parts text) {c : Char} (hc : ['\\', c] ∈ escapes) :
    Divides (.escape c :: parts) ('\\' :: c :: text) where
  flatMap_text := by
    rw [List.flatMap_cons, h.flatMap_text]
    rfl
  ne_nil := List.forall_mem_cons.mpr ⟨by simp [BodyPart.text], h.ne_nil⟩
  apart := List.isChain_cons.mpr ⟨fun _ _ ↦ .inl rfl, h.apart⟩
  pairs_text := by
    rw [pairs, h.pairs_text]
    rfl
  escape := by
    intro d hd
    rcases List.mem_cons.mp hd with heq | hd
    · cases heq
      exact hc
    · exact h.escape d hd
  content := by
    intro run hrun
    exact h.content run (by simpa using hrun)

theorem content_cons (h : Divides parts text) {run : List Char} (hrun : run ≠ [])
    (hpairs : pairs (run ++ text) = pairs run ++ pairs text)
    (hcontent : ∀ pair ∈ pairs run, pair ∉ escapes)
    (hapart : ∀ part ∈ parts.head?, part.isEscape = true) :
    Divides (.content run :: parts) (run ++ text) where
  flatMap_text := by
    rw [List.flatMap_cons, h.flatMap_text]
    rfl
  ne_nil := List.forall_mem_cons.mpr ⟨hrun, h.ne_nil⟩
  apart := List.isChain_cons.mpr ⟨fun part hpart ↦ .inr (hapart part hpart), h.apart⟩
  pairs_text := by
    rw [hpairs, h.pairs_text]
    rfl
  escape := by
    intro c hc
    exact h.escape c (by simpa using hc)
  content := by
    intro run' hrun'
    rcases List.mem_cons.mp hrun' with heq | hrun'
    · cases heq
      exact hcontent
    · exact h.content run' hrun'

theorem addContent_run {run : List Char} (h : Divides (.content run :: parts) text)
    {pair : List Char} (hpair : IsPair pair) (hfree : pair ∉ escapes) :
    Divides (.content (pair ++ run) :: parts) (pair ++ text) where
  flatMap_text := by
    rw [← h.flatMap_text, List.flatMap_cons, List.flatMap_cons, ← List.append_assoc]
    rfl
  ne_nil := by
    obtain ⟨-, hparts⟩ := List.forall_mem_cons.mp h.ne_nil
    exact List.forall_mem_cons.mpr ⟨by simp [BodyPart.text, hpair.ne_nil], hparts⟩
  apart := by
    obtain ⟨hhead, hparts⟩ := List.isChain_cons.mp h.apart
    exact List.isChain_cons.mpr ⟨hhead, hparts⟩
  pairs_text := by
    rw [hpair, h.pairs_text, List.flatMap_cons, List.flatMap_cons, BodyPart.text, BodyPart.text,
      hpair]
    rfl
  escape := by
    intro c hc
    exact h.escape c (by simpa using hc)
  content := by
    intro run' hrun'
    rcases List.mem_cons.mp hrun' with heq | hrun'
    · cases heq
      rw [hpair]
      exact List.forall_mem_cons.mpr ⟨hfree, h.content run List.mem_cons_self⟩
    · exact h.content run' (List.mem_cons_of_mem _ hrun')

/-- A pair that is no escape sequence goes into the first run. -/
theorem addContent (h : Divides parts text) {pair : List Char} (hpair : IsPair pair)
    (hfree : pair ∉ escapes) :
    Divides (BodyPart.addContent pair parts) (pair ++ text) := by
  have hcut : pairs (pair ++ text) = pairs pair ++ pairs text := by
    rw [hpair, hpair.pairs_eq, List.singleton_append]
  have hcontent : ∀ p ∈ pairs pair, p ∉ escapes := by
    rw [hpair.pairs_eq, List.forall_mem_singleton]
    exact hfree
  rcases parts with _ | ⟨run | c, parts⟩
  · exact h.content_cons hpair.ne_nil hcut hcontent (by simp)
  · exact h.addContent_run hpair hfree
  · exact h.content_cons hpair.ne_nil hcut hcontent (by simp [isEscape])

theorem add (h : Divides parts text) {pair : List Char} (hpair : IsPair pair) :
    Divides (BodyPart.add pair parts) (pair ++ text) := by
  by_cases hescape : pair ∈ escapes
  · obtain ⟨c, rfl⟩ := exists_eq_of_mem_escapes hescape
    rw [add_of_mem_escapes hescape]
    exact h.escape_cons hescape
  · rw [add_of_not_mem_escapes hescape]
    exact h.addContent hpair hescape

end Divides

/-- Every text is divided by the parts that its pairs make. -/
theorem divides_gather (text : List Char) : Divides (gather (pairs text)) text := by
  induction text using pairs_induction with
  | nil => exact .nil
  | lone => exact Divides.nil.content_cons (by simp) rfl (by decide) (by simp)
  | append pair rest hpair ih =>
      rw [hpair]
      exact ih.add hpair

/-- A text is divided in one way only. -/
theorem Divides.eq_gather {parts : List BodyPart} {text : List Char} (h : Divides parts text) :
    parts = gather (pairs text) := by
  rw [h.pairs_text]
  obtain ⟨-, hne, hapart, -, hescape, hcontent⟩ := h
  induction parts with
  | nil => rfl
  | cons part parts ih =>
      obtain ⟨hhead, htail⟩ := List.isChain_cons.mp hapart
      have hrest : parts = gather (parts.flatMap fun part ↦ pairs part.text) :=
        ih (fun a ha ↦ hne a (List.mem_cons_of_mem _ ha)) htail
          (fun c hc ↦ hescape c (List.mem_cons_of_mem _ hc))
          (fun run hrun ↦ hcontent run (List.mem_cons_of_mem _ hrun))
      rw [List.flatMap_cons, gather, List.foldr_append, ← gather, ← hrest]
      cases part with
      | escape c => exact (add_of_mem_escapes (hescape c List.mem_cons_self) parts).symm
      | content run =>
          have hrun : pairs run ≠ [] := by
            intro hnil
            have hflat := flatten_pairs run
            rw [hnil] at hflat
            exact hne _ List.mem_cons_self hflat.symm
          have hfree := hcontent run List.mem_cons_self
          have halone : ∀ b ∈ parts.head?, b.isEscape = true := by
            intro b hb
            simpa [isEscape] using hhead b hb
          rw [BodyPart.text, foldr_add hrun hfree halone, flatten_pairs]

end Body

end CoolTree
