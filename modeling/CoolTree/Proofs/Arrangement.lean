import CoolTree.Parse.Source
import CoolTree.Proofs.Tiling

/-!
# Arranging tokens

Arranging puts every comment in front of the token it stands before and drops the ending; apart
from that all tokens stay, in their order. Comments inside an arrangement are terminated, because
an unterminated one has no token behind it.
-/

namespace CoolTree

/-- Tokens that are neither comments nor the ending. -/
def TokenKind.isSignificant (k : TokenKind) : Bool :=
  !k.isComment && k != .ending

def Token.significant (source : List Char) : List Token :=
  (Token.ofSource source).filter (·.kind.isSignificant)

def Item.tokens (item : Item) : List Token :=
  item.comments ++ [item.token]

/-- What holds of the items of every source. -/
structure Item.Sound (item : Item) : Prop where
  isComment : ∀ c ∈ item.comments, c.kind.isComment = true
  spells_comment : ∀ c ∈ item.comments, c.kind.Spells c.text
  isSignificant : item.token.kind.isSignificant = true
  spells : item.token.kind.Spells item.token.text

namespace TokenKind

theorem isSignificant_of_not {k : TokenKind} (hcomment : k.isComment = false) (hk : k ≠ .ending) :
    k.isSignificant = true := by
  simp [isSignificant, hcomment, hk]

theorem not_isSignificant_of_isComment {k : TokenKind} (h : k.isComment = true) :
    k.isSignificant = false := by
  simp [isSignificant, h]

theorem ne_ending_of_isComment {k : TokenKind} (h : k.isComment = true) : k ≠ .ending := by
  rintro rfl
  simp [isComment] at h

theorem IsSignificant.ne_ending {k : TokenKind} (h : k.isSignificant = true) : k ≠ .ending := by
  simp only [isSignificant, Bool.and_eq_true, bne_iff_ne] at h
  exact h.2

theorem IsSignificant.not_comment {k : TokenKind} (h : k.isSignificant = true) :
    k.isComment = false := by
  simp only [isSignificant, Bool.and_eq_true, Bool.not_eq_true'] at h
  exact h.1

end TokenKind

namespace Arrangement

theorem prepend_comment {t : Token} (h : t.kind.isComment = true) (a : Arrangement) :
    prepend t a = match a.items with
      | item :: rest => { a with items := { item with comments := t :: item.comments } :: rest }
      | [] => { a with trailing := t :: a.trailing } := by
  unfold prepend
  split
  · rfl
  · rfl
  · simp_all [TokenKind.isComment]
  · rename_i hline hblock _
    cases hk : t.kind <;> simp_all [TokenKind.isComment]

theorem prepend_ending {t : Token} (h : t.kind = .ending) (a : Arrangement) :
    prepend t a = a := by
  simp [prepend, h]

theorem prepend_significant {t : Token} (h : t.kind.isSignificant = true) (a : Arrangement) :
    prepend t a = { a with items := ⟨[], t⟩ :: a.items } := by
  unfold prepend
  split <;> simp_all [TokenKind.isSignificant, TokenKind.isComment]

theorem kind_cases (t : Token) :
    t.kind.isComment = true ∨ t.kind = .ending ∨ t.kind.isSignificant = true := by
  by_cases hcomment : t.kind.isComment = true
  · exact .inl hcomment
  · by_cases hending : t.kind = .ending
    · exact .inr (.inl hending)
    · exact .inr (.inr (TokenKind.isSignificant_of_not (by simpa using hcomment) hending))

@[simp] theorem ofTokens_cons (t : Token) (ts : List Token) :
    ofTokens (t :: ts) = prepend t (ofTokens ts) := rfl

theorem flatMap_tokens (ts : List Token) :
    (ofTokens ts).items.flatMap Item.tokens ++ (ofTokens ts).trailing =
      ts.filter (·.kind != .ending) := by
  induction ts with
  | nil => rfl
  | cons t ts ih =>
      rw [ofTokens_cons]
      rcases kind_cases t with h | h | h
      · rw [prepend_comment h, List.filter_cons_of_pos
          (by simpa using TokenKind.ne_ending_of_isComment h), ← ih]
        cases (ofTokens ts).items <;> simp [Item.tokens]
      · rw [prepend_ending h, List.filter_cons_of_neg (by simp [h]), ih]
      · rw [prepend_significant h, List.filter_cons_of_pos
          (by simpa using TokenKind.IsSignificant.ne_ending h), ← ih]
        simp [Item.tokens]

theorem map_token (ts : List Token) :
    (ofTokens ts).items.map (·.token) = ts.filter (·.kind.isSignificant) := by
  induction ts with
  | nil => rfl
  | cons t ts ih =>
      rw [ofTokens_cons]
      rcases kind_cases t with h | h | h
      · rw [prepend_comment h, List.filter_cons_of_neg
          (by simp [TokenKind.not_isSignificant_of_isComment h]), ← ih]
        cases (ofTokens ts).items <;> simp
      · rw [prepend_ending h, List.filter_cons_of_neg (by simp [TokenKind.isSignificant, h]), ih]
      · rw [prepend_significant h, List.filter_cons_of_pos (by exact h), ← ih]
        simp

theorem isSignificant_token {ts : List Token} :
    ∀ item ∈ (ofTokens ts).items, item.token.kind.isSignificant = true := by
  intro item hitem
  have hmem : item.token ∈ ts.filter (·.kind.isSignificant) :=
    map_token ts ▸ List.mem_map_of_mem hitem
  exact (List.mem_filter.mp hmem).2

theorem isComment_of_mem (ts : List Token) :
    (∀ item ∈ (ofTokens ts).items, ∀ c ∈ item.comments, c.kind.isComment = true) ∧
      ∀ c ∈ (ofTokens ts).trailing, c.kind.isComment = true := by
  induction ts with
  | nil => simp [ofTokens]
  | cons t ts ih =>
      rw [ofTokens_cons]
      rcases kind_cases t with h | h | h
      · rw [prepend_comment h]
        cases hitems : (ofTokens ts).items with
        | nil => simpa [hitems, h] using ih
        | cons item rest =>
            rw [hitems] at ih
            simp only [List.forall_mem_cons] at ih ⊢
            exact ⟨⟨⟨h, ih.1.1⟩, ih.1.2⟩, ih.2⟩
      · rw [prepend_ending h]
        exact ih
      · rw [prepend_significant h]
        simpa using ih

theorem mem_of_mem_tokens {ts : List Token} {item : Item} (hitem : item ∈ (ofTokens ts).items)
    {t : Token} (ht : t ∈ item.tokens) : t ∈ ts := by
  have hmem : t ∈ (ofTokens ts).items.flatMap Item.tokens ++ (ofTokens ts).trailing :=
    List.mem_append_left _ (List.mem_flatMap.mpr ⟨item, hitem, ht⟩)
  rw [flatMap_tokens] at hmem
  exact (List.mem_filter.mp hmem).1

theorem mem_of_mem_trailing {ts : List Token} {t : Token} (ht : t ∈ (ofTokens ts).trailing) :
    t ∈ ts := by
  have hmem := List.mem_append_right ((ofTokens ts).items.flatMap Item.tokens) ht
  rw [flatMap_tokens] at hmem
  exact (List.mem_filter.mp hmem).1

theorem sound {ts : List Token} (h : ∀ t ∈ ts, t.kind.Spells t.text) :
    ∀ item ∈ (ofTokens ts).items, item.Sound := by
  intro item hitem
  have hmem : ∀ t ∈ item.tokens, t ∈ ts := fun t ht ↦ mem_of_mem_tokens hitem ht
  exact ⟨(isComment_of_mem ts).1 item hitem, fun c hc ↦ h c (hmem c (by simp [Item.tokens, hc])),
    isSignificant_token item hitem, h item.token (hmem _ (by simp [Item.tokens]))⟩

/-- Tokens among which nothing but the ending stands behind an unterminated comment. -/
def OpenLast (ts : List Token) : Prop :=
  ∀ before t behind, ts = before ++ t :: behind → t.kind = .blockComment false →
    ∀ u ∈ behind, u.kind = .ending

namespace OpenLast

theorem tail {t : Token} {ts : List Token} (h : OpenLast (t :: ts)) : OpenLast ts :=
  fun before u behind hts ↦ h (t :: before) u behind (congrArg (t :: ·) hts)

theorem closed_of_mem {ts : List Token} (h : OpenLast ts) :
    ∀ item ∈ (ofTokens ts).items, ∀ c ∈ item.comments, c.kind ≠ .blockComment false := by
  induction ts with
  | nil => simp [ofTokens]
  | cons t ts ih =>
      have hitems := ih h.tail
      rw [ofTokens_cons]
      rcases kind_cases t with hkind | hkind | hkind
      · rw [prepend_comment hkind]
        cases hrest : (ofTokens ts).items with
        | nil => simp
        | cons item rest =>
            have hclosed : t.kind ≠ .blockComment false := by
              intro hopen
              have hmem : item.token ∈ ts := by
                have hitem : item ∈ (ofTokens ts).items := hrest ▸ List.mem_cons_self
                exact mem_of_mem_tokens hitem (by simp [Item.tokens])
              have hending := h [] t ts rfl hopen item.token hmem
              have hsignificant := isSignificant_token item (hrest ▸ List.mem_cons_self)
              exact TokenKind.IsSignificant.ne_ending hsignificant hending
            rw [hrest] at hitems
            simp only [List.forall_mem_cons] at hitems ⊢
            exact ⟨⟨hclosed, hitems.1⟩, hitems.2⟩
      · rw [prepend_ending hkind]
        exact hitems
      · rw [prepend_significant hkind]
        simpa using hitems

theorem length_filter_le {ts : List Token} (h : OpenLast ts) :
    (ts.filter (·.kind == .blockComment false)).length ≤ 1 := by
  induction ts with
  | nil => simp
  | cons t ts ih =>
      by_cases hopen : t.kind = .blockComment false
      · have hrest : ts.filter (·.kind == .blockComment false) = [] := by
          rw [List.filter_eq_nil_iff]
          intro u hu
          simp [h [] t ts rfl hopen u hu]
        simp [hopen, hrest]
      · rw [List.filter_cons_of_neg (by simpa using hopen)]
        exact ih h.tail

theorem filter_trailing {ts : List Token} (h : OpenLast ts) :
    (ofTokens ts).trailing.filter (·.kind == .blockComment false) =
      ts.filter (·.kind == .blockComment false) := by
  have hitems : ((ofTokens ts).items.flatMap Item.tokens).filter
      (·.kind == .blockComment false) = [] := by
    rw [List.filter_eq_nil_iff]
    intro t ht hopen
    obtain ⟨item, hitem, hmem⟩ := List.mem_flatMap.mp ht
    rw [beq_iff_eq] at hopen
    rcases List.mem_append.mp hmem with hmem | hmem
    · exact h.closed_of_mem item hitem t hmem hopen
    · have hsignificant := isSignificant_token item hitem
      rw [← List.mem_singleton.mp hmem, hopen] at hsignificant
      simp [TokenKind.isSignificant, TokenKind.isComment] at hsignificant
  calc
    (ofTokens ts).trailing.filter (·.kind == .blockComment false)
      = ((ofTokens ts).items.flatMap Item.tokens ++ (ofTokens ts).trailing).filter
          (·.kind == .blockComment false) := by rw [List.filter_append, hitems, List.nil_append]
    _ = (ts.filter (·.kind != .ending)).filter (·.kind == .blockComment false) := by
      rw [flatMap_tokens]
    _ = ts.filter (·.kind == .blockComment false) := by
      rw [List.filter_filter]
      refine List.filter_congr fun t _ ↦ ?_
      by_cases hopen : t.kind = .blockComment false <;> simp [hopen]

end OpenLast

end Arrangement

theorem Token.openLast_ofSource (source : List Char) :
    Arrangement.OpenLast (Token.ofSource source) :=
  fun _ _ _ hts hopen ↦ (Token.stream_ofSource source).ending_of_open hts hopen

end CoolTree
