import CoolTree.Proofs.Stream
import CoolTree.Source.Span

/-!
# Where tokens stand

A span shows a text when the source has that text there. Every token of a source is shown by its
span, and of two tokens the later one starts where the earlier one has ended. Cutting a span out
of the source by bytes gives back the text it shows.
-/

namespace CoolTree

namespace Source

@[simp] theorem byteLength_nil : byteLength [] = 0 := rfl

theorem foldl_utf8Size (n : Nat) (text : List Char) :
    text.foldl (fun n c ↦ n + c.utf8Size) n = n + byteLength text := by
  induction text generalizing n with
  | nil => rfl
  | cons c text ih =>
      simp only [byteLength, List.foldl_cons]
      rw [ih, ih (0 + c.utf8Size)]
      omega

@[simp] theorem byteLength_cons (c : Char) (text : List Char) :
    byteLength (c :: text) = c.utf8Size + byteLength text := by
  rw [byteLength, List.foldl_cons, foldl_utf8Size, Nat.zero_add]

@[simp] theorem byteLength_append (s t : List Char) :
    byteLength (s ++ t) = byteLength s + byteLength t := by
  induction s with
  | nil => simp
  | cons c s ih => simp [ih, Nat.add_assoc]

theorem byteLength_pos {text : List Char} (h : text ≠ []) : 0 < byteLength text := by
  cases text with
  | nil => exact (h rfl).elim
  | cons c text =>
      rw [byteLength_cons]
      have := c.utf8Size_pos
      omega

theorem dropBytes?_append (before text : List Char) :
    dropBytes? (byteLength before) (before ++ text) = some text := by
  induction before with
  | nil => cases text <;> rfl
  | cons c before ih =>
      obtain ⟨n, hn⟩ : ∃ n, c.utf8Size = n + 1 := Nat.exists_eq_add_one.mpr c.utf8Size_pos
      have hlength : byteLength (c :: before) = (n + byteLength before) + 1 := by
        rw [byteLength_cons, hn]
        omega
      rw [hlength, List.cons_append, dropBytes?, if_pos (by omega),
        show n + byteLength before + 1 - c.utf8Size = byteLength before by omega, ih]

theorem takeBytesOnto?_append (read text behind : List Char) :
    takeBytesOnto? read (byteLength text) (text ++ behind) = some (read.reverse ++ text) := by
  induction text generalizing read with
  | nil => simp [takeBytesOnto?]
  | cons c text ih =>
      obtain ⟨n, hn⟩ : ∃ n, c.utf8Size = n + 1 := Nat.exists_eq_add_one.mpr c.utf8Size_pos
      have hlength : byteLength (c :: text) = (n + byteLength text) + 1 := by
        rw [byteLength_cons, hn]
        omega
      rw [hlength, List.cons_append, takeBytesOnto?, if_pos (by omega),
        show n + byteLength text + 1 - c.utf8Size = byteLength text by omega, ih]
      simp

theorem slice?_append (before text behind : List Char) :
    slice? (before ++ (text ++ behind)) (byteLength before)
      (byteLength before + byteLength text) = some text := by
  rw [slice?, if_pos (Nat.le_add_right _ _), dropBytes?_append]
  simp [takeBytes?, takeBytesOnto?_append]

end Source

namespace Position

theorem offset_advance (p : Position) (c : Char) :
    (p.advance c).offset = p.offset + c.utf8Size := by
  unfold advance
  split
  · rename_i h
    subst h
    rfl
  · rfl

theorem offset_after (p : Position) (text : List Char) :
    (p.after text).offset = p.offset + Source.byteLength text := by
  induction text generalizing p with
  | nil => rfl
  | cons c text ih =>
      rw [after_cons, ih, offset_advance, Source.byteLength_cons]
      omega

theorem offset_lt_after (p : Position) {text : List Char} (h : text ≠ []) :
    p.offset < (p.after text).offset := by
  rw [offset_after]
  exact Nat.lt_add_of_pos_right (Source.byteLength_pos h)

theorem offset_le_after (p : Position) (text : List Char) : p.offset ≤ (p.after text).offset := by
  rw [offset_after]
  exact Nat.le_add_right _ _

end Position

/-- A span at which a source has a text. -/
def Span.Shows (s : Span) (source text : List Char) : Prop :=
  ∃ before behind, source = before ++ (text ++ behind) ∧
    s.start = Position.origin.after before ∧ s.stop = s.start.after text

theorem Span.Shows.slice?_eq {s : Span} {source text : List Char} (h : s.Shows source text) :
    Source.slice? source s.start.offset s.stop.offset = some text := by
  obtain ⟨before, behind, hsource, hstart, hstop⟩ := h
  have hlow : s.start.offset = Source.byteLength before := by
    rw [hstart, Position.offset_after]
    simp [Position.origin]
  have hhigh : s.stop.offset = Source.byteLength before + Source.byteLength text := by
    rw [hstop, Position.offset_after, hlow]
  rw [hsource, hlow, hhigh, Source.slice?_append]

theorem Span.Shows.text_eq {s : Span} {source : String} {text : List Char}
    (h : s.Shows source.toList text) : s.text source = String.ofList text := by
  rw [Span.text, h.slice?_eq, Option.getD_some]

namespace Stream

variable {p : Position} {text : List Char} {ts : List Token}

theorem eq_append_ending (h : Stream p text ts) :
    ∃ body last, ts = body ++ [last] ∧ last.kind = .ending ∧ ∀ t ∈ body, t.kind ≠ .ending := by
  induction h with
  | ending p gap => exact ⟨[], _, rfl, rfl, by simp⟩
  | token t _ _ hne _ _ ih =>
      obtain ⟨body, last, rfl, hlast, hbody⟩ := ih
      exact ⟨t :: body, last, rfl, hlast, by simpa using ⟨hne, hbody⟩⟩

theorem spells (h : Stream p text ts) : ∀ t ∈ ts, t.kind.Spells t.text := by
  induction h with
  | ending p gap => simp [TokenKind.Spells]
  | token t _ hspells _ _ _ ih => simpa using ⟨hspells, ih⟩

theorem shows_of_mem (h : Stream p text ts) {source before : List Char}
    (hsource : source = before ++ text) (hp : p = Position.origin.after before) :
    ∀ t ∈ ts, t.span.Shows source t.text := by
  induction h generalizing before with
  | ending p gap =>
      simp only [List.mem_singleton, forall_eq]
      exact ⟨before ++ gap, [], by simp [hsource], by simp [Token.span, hp], rfl⟩
  | @token p rest ts t hstart _ _ _ _ ih =>
      intro u hu
      rcases List.mem_cons.mp hu with rfl | hu
      · exact ⟨before ++ u.gap, rest, by simp [hsource], by simp [Token.span, hp, hstart], rfl⟩
      · have hrest : source = (before ++ t.gap ++ t.text) ++ rest := by simp [hsource]
        exact ih hrest (by simp [Token.stop, hstart, hp]) u hu

theorem le_start (h : Stream p text ts) : ∀ t ∈ ts, p.offset ≤ t.start.offset := by
  induction h with
  | ending p gap => simpa using p.offset_le_after gap
  | token t hstart _ _ _ _ ih =>
      intro u hu
      rcases List.mem_cons.mp hu with rfl | hu
      · exact hstart ▸ Position.offset_le_after _ _
      · calc
          _ ≤ t.start.offset := hstart ▸ Position.offset_le_after _ _
          _ ≤ t.stop.offset := Position.offset_le_after _ _
          _ ≤ u.start.offset := ih u hu

theorem pairwise_stop_le_start (h : Stream p text ts) :
    ts.Pairwise fun a b ↦ a.stop.offset ≤ b.start.offset := by
  induction h with
  | ending p gap => simp
  | token t _ _ _ _ tail ih => exact List.pairwise_cons.mpr ⟨tail.le_start, ih⟩

theorem start_lt_stop (h : Stream p text ts) :
    ∀ t ∈ ts, t.kind ≠ .ending → t.start.offset < t.stop.offset :=
  fun t ht hk ↦ Position.offset_lt_after _ ((h.spells t ht).ne_nil hk)

theorem eq_of_span_eq (h : Stream p text ts) {a b : Token} (ha : a ∈ ts) (hb : b ∈ ts)
    (hak : a.kind ≠ .ending) (hbk : b.kind ≠ .ending) (hspan : a.span = b.span) : a = b := by
  have hpair := h.pairwise_stop_le_start
  have hlt := h.start_lt_stop
  have hstart : a.start = b.start := congrArg Span.start hspan
  have hstop : a.stop = b.stop := congrArg Span.stop hspan
  clear h
  induction ts with
  | nil => simp at ha
  | cons t ts ih =>
      obtain ⟨hfirst, hrest⟩ := List.pairwise_cons.mp hpair
      rcases List.mem_cons.mp ha with rfl | hmema <;> rcases List.mem_cons.mp hb with rfl | hmemb
      · rfl
      · have hle := hfirst b hmemb
        have := hlt a List.mem_cons_self hak
        rw [hstart] at this
        omega
      · have hle := hfirst a hmema
        have := hlt b List.mem_cons_self hbk
        rw [hstart] at hle
        omega
      · exact ih hmema hmemb hrest fun t ht ↦ hlt t (List.mem_cons_of_mem _ ht)

theorem ending_of_open (h : Stream p text ts) {before behind : List Token} {t : Token}
    (hts : ts = before ++ t :: behind) (ht : t.kind = .blockComment false) :
    ∀ u ∈ behind, u.kind = .ending := by
  induction h generalizing before with
  | ending p gap =>
      rcases before with _ | ⟨b, before⟩
      · obtain ⟨rfl, -⟩ := List.cons.inj hts
        simp at ht
      · simp at hts
  | @token p rest ts u _ _ _ hopen tail ih =>
      rcases before with _ | ⟨b, before⟩
      · obtain ⟨rfl, rfl⟩ := List.cons.inj hts
        rw [hopen ht] at tail
        generalize hnil : ([] : List Char) = text at tail
        cases tail with
        | ending => simp
        | token v _ hspells hne _ _ =>
            simp only [List.nil_eq, List.append_eq_nil_iff] at hnil
            exact (hspells.ne_nil hne hnil.2.1).elim
      · exact ih (List.cons.inj hts).2

end Stream

end CoolTree
