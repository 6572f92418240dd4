import CoolTree.Proofs.Pairs

/-!
# Bodies of string literals

Where the body of a string literal ends is told by its pairs: at the first quote that is a pair of
its own, or in front of a line feed, of a NUL character or of the end of the source. Reading finds
this end and divides the body, and there is no other body and no other division that it could have
found. The value of the body is the one of its parts.
-/

namespace CoolTree

namespace Body

open BodyPart

/-- The pairs that no body holds. -/
def breaks : List (List Char) :=
  [['"'], ['\n'], ['\x00'], ['\\', '\x00']]

/-- Where a body ends in front of a text, the closing quote left out of both. A body that ends in
the middle of a pair ends with the source or in front of a NUL character. -/
structure Ends (body : List Char) (closed : Bool) (behind : List Char) : Prop where
  unbroken : ∀ pair ∈ pairs body, pair ∉ breaks
  behind_open : closed = false → ∀ c ∈ behind.head?, c = '\n' ∨ c = '\x00'
  lone : ['\\'] ∈ pairs body → closed = false ∧ behind.head? ≠ some '\n'

namespace Ends

variable {body behind : List Char} {closed : Bool}

theorem nil (h : closed = false → ∀ c ∈ behind.head?, c = '\n' ∨ c = '\x00') :
    Ends [] closed behind :=
  ⟨by simp [pairs], h, by simp [pairs]⟩

theorem lone_backslash (h : ∀ c ∈ behind.head?, c = '\x00') : Ends ['\\'] false behind where
  unbroken := by decide
  behind_open := fun _ c hc ↦ .inr (h c hc)
  lone := by
    refine fun _ ↦ ⟨rfl, fun hline ↦ ?_⟩
    exact absurd (h '\n' hline) (by decide)

/-- What stands behind the closing quote is of no matter. -/
theorem of_closed (h : Ends body true behind) (after : List Char) : Ends body true after where
  unbroken := h.unbroken
  behind_open := by simp
  lone := fun hmem ↦ absurd (h.lone hmem).1 (by simp)

theorem append_iff {pair : List Char} (hpair : IsPair pair) :
    Ends (pair ++ body) closed behind ↔ pair ∉ breaks ∧ Ends body closed behind := by
  constructor
  · intro h
    have hunbroken := h.unbroken
    have hlone := h.lone
    rw [hpair] at hunbroken hlone
    obtain ⟨hbreak, hrest⟩ := List.forall_mem_cons.mp hunbroken
    exact ⟨hbreak, hrest, h.behind_open, fun hmem ↦ hlone (List.mem_cons_of_mem _ hmem)⟩
  · rintro ⟨hbreak, h⟩
    refine ⟨?_, h.behind_open, ?_⟩
    · rw [hpair]
      exact List.forall_mem_cons.mpr ⟨hbreak, h.unbroken⟩
    · rw [hpair]
      intro hmem
      rcases List.mem_cons.mp hmem with heq | hmem
      · exact (hpair.ne_lone heq.symm).elim
      · exact h.lone hmem

end Ends

@[simp] theorem text_addContent (text : List Char) (b : Body) :
    (b.addContent text).text = text ++ b.text :=
  flatMap_addContent text b.parts

@[simp] theorem text_addEscape (c : Char) (b : Body) :
    (b.addEscape c).text = ['\\', c] ++ b.text := rfl

theorem ends_read (text : List Char) :
    Ends (read text).text (read text).closed (read text).rest := by
  fun_induction read text with
  | case1 | case2 | case3 | case4 => exact .nil (by simp)
  | case5 => exact .lone_backslash (by simp)
  | case6 c rest hnul hc ih =>
      rw [text_addEscape]
      exact (Ends.append_iff (.backslash c)).mpr ⟨by simpa [breaks] using hnul, ih⟩
  | case7 c rest hnul hc ih =>
      rw [text_addContent]
      exact (Ends.append_iff (.backslash c)).mpr ⟨by simpa [breaks] using hnul, ih⟩
  | case8 c rest hquote hline hnul _ hpair ih =>
      rw [text_addContent]
      by_cases hc : c = '\\'
      · cases rest with
        | nil => exact hc ▸ .lone_backslash (by simp [read, addContent])
        | cons d rest => exact (hpair d rest hc rfl).elim
      · have hbreak : [c] ∉ breaks := by
          simpa [breaks] using ⟨hquote, hline, hnul⟩
        exact (Ends.append_iff (.single hc)).mpr ⟨hbreak, ih⟩

/-- Reading puts a pair in front of what stands behind it. -/
theorem read_append {pair : List Char} (hpair : IsPair pair) (hbreak : pair ∉ breaks)
    (rest : List Char) :
    read (pair ++ rest) = ⟨add pair (read rest).parts, (read rest).closed, (read rest).rest⟩ := by
  obtain ⟨c, rfl⟩ | ⟨c, hc, rfl⟩ := hpair.eq_cases
  · have hnul : c ≠ '\x00' := by simpa [breaks] using hbreak
    rw [List.cons_append, List.singleton_append, read.eq_6 c rest hnul]
    by_cases hescape : ['\\', c] ∈ escapes
    · rw [if_pos (mem_escapes.mp hescape), add_of_mem_escapes hescape, addEscape]
    · rw [if_neg (fun h ↦ hescape (mem_escapes.mpr h)), add_of_not_mem_escapes hescape, addContent]
  · obtain ⟨hquote, hline, hnul⟩ : c ≠ '"' ∧ c ≠ '\n' ∧ c ≠ '\x00' := by
      simpa [breaks] using hbreak
    have hfree : [c] ∉ escapes := by simp [escapes]
    rw [List.singleton_append, add_of_not_mem_escapes hfree,
      read.eq_7 c rest hquote hline hnul (fun _ h ↦ (hc h).elim) fun _ _ h ↦ (hc h).elim]
    rfl

/-- A body is read to its end and divided into the parts that its pairs make. -/
theorem read_of_ends {body behind : List Char} {closed : Bool} (h : Ends body closed behind) :
    read (body ++ ((if closed then ['"'] else []) ++ behind)) =
      ⟨gather (pairs body), closed, behind⟩ := by
  induction body using pairs_induction with
  | nil =>
      have hbehind := h.behind_open
      cases closed with
      | true => rfl
      | false =>
          rcases behind with _ | ⟨c, behind⟩
          · rfl
          · rcases hbehind rfl c rfl with rfl | rfl <;> rfl
  | lone =>
      have hbehind := h.behind_open
      obtain ⟨rfl, hline⟩ := h.lone List.mem_cons_self
      rcases behind with _ | ⟨c, behind⟩
      · rfl
      · obtain rfl : c = '\x00' := by
          simpa using (hbehind rfl c rfl).resolve_left (by simpa using hline)
        rfl
  | append pair rest hpair ih =>
      obtain ⟨hbreak, hrest⟩ := (Ends.append_iff hpair).mp h
      rw [List.append_assoc, read_append hpair hbreak, ih hrest, hpair]
      rfl

/-- What is read is the one body that ends where it ends, and it is divided. -/
theorem divides_read (text : List Char) : Divides (read text).parts (read text).text := by
  have hread := read_of_ends (ends_read text)
  rw [text_read] at hread
  have hparts : (read text).parts = gather (pairs (read text).text) := congrArg parts hread
  rw [hparts]
  exact divides_gather _

theorem text_read_backslash_ne_nil (text : List Char) : (read ('\\' :: text)).text ≠ [] := by
  intro hnil
  have htext := text_read ('\\' :: text)
  have hbehind := (ends_read ('\\' :: text)).behind_open
  rw [hnil, List.nil_append] at htext
  cases hclosed : (read ('\\' :: text)).closed with
  | true => simp [hclosed] at htext
  | false =>
      rw [hclosed] at htext
      rcases hbehind hclosed '\\' (congrArg List.head? htext) with h | h <;> simp at h

/-- An unbroken text is read, and more may be. -/
theorem length_le_read {body : List Char} (h : ∀ pair ∈ pairs body, pair ∉ breaks)
    (behind : List Char) : body.length ≤ (read (body ++ behind)).text.length := by
  induction body using pairs_induction with
  | nil => simp
  | lone => exact List.length_pos_of_ne_nil (text_read_backslash_ne_nil behind)
  | append pair rest hpair ih =>
      rw [hpair] at h
      obtain ⟨hbreak, hrest⟩ := List.forall_mem_cons.mp h
      have htext := ((divides_read (rest ++ behind)).add hpair).flatMap_text
      have hle := ih hrest
      rw [List.append_assoc, read_append hpair hbreak, text, htext]
      simp only [List.length_append]
      omega

end Body

end CoolTree
