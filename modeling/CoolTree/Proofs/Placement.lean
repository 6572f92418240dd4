import CoolTree.Proofs.Arrangement
import CoolTree.Proofs.Drafting
import CoolTree.Proofs.Preorder
import CoolTree.Proofs.Tiling
import Mathlib.Data.List.Induction
import Mathlib.Data.Nat.Basic
import Mathlib.Order.Basic

/-!
# Places in a source

A position between two characters of a source is known by the text in front of it: how many bytes
it has, how many line feeds, and how many bytes behind the last of them. Spans in a row follow each
other between two offsets, and the span over nodes in a row goes from where the first one starts to
where the last one ends.
-/

namespace CoolTree

namespace Position

/-- A position that reading a source comes by. -/
def In (p : Position) (source : List Char) : Prop :=
  ∃ before behind, source = before ++ behind ∧ p = origin.after before

/-- A position between two characters of a source: the offset counts the bytes in front of it, the
row the line feeds among them, and the column the bytes behind the last line feed. -/
def Marks (p : Position) (source : List Char) : Prop :=
  ∃ before behind, source = before ++ behind ∧ p.offset = Source.byteLength before ∧
    p.point.row = before.count '\n' ∧
    p.point.column = Source.byteLength (before.reverse.takeWhile (· != '\n'))

theorem point_after_origin (text : List Char) :
    (origin.after text).point.row = text.count '\n' ∧
      (origin.after text).point.column =
        Source.byteLength (text.reverse.takeWhile (· != '\n')) := by
  induction text using List.reverseRecOn with
  | nil => exact ⟨rfl, rfl⟩
  | append_singleton text c ih =>
      obtain ⟨hrow, hcolumn⟩ := ih
      rw [after_append, after_cons, after_nil, advance, List.reverse_append]
      by_cases h : c = '\n'
      · simp [h, hrow]
      · simp [h, hrow, hcolumn, Nat.add_comm]

namespace In

variable {p : Position} {source : List Char}

theorem origin (source : List Char) : Position.origin.In source :=
  ⟨[], source, rfl, rfl⟩

theorem after_source (source : List Char) : (Position.origin.after source).In source :=
  ⟨source, [], (List.append_nil source).symm, rfl⟩

theorem marks (h : p.In source) : p.Marks source := by
  obtain ⟨before, behind, hsource, rfl⟩ := h
  obtain ⟨hrow, hcolumn⟩ := point_after_origin before
  refine ⟨before, behind, hsource, ?_, hrow, hcolumn⟩
  rw [offset_after, Position.origin, Nat.zero_add]

end In

end Position

theorem Span.Shows.in_source {s : Span} {source text : List Char} (h : s.Shows source text) :
    s.start.In source ∧ s.stop.In source := by
  obtain ⟨before, behind, hsource, hstart, hstop⟩ := h
  refine ⟨⟨before, text ++ behind, hsource, hstart⟩, before ++ text, behind, by simp [hsource], ?_⟩
  rw [hstop, hstart, Position.after_append]

namespace Span

/-- Spans that follow each other between two offsets. -/
inductive Row : Nat → List Span → Nat → Prop
  | nil {a b : Nat} (le : a ≤ b) : Row a [] b
  | cons {a b : Nat} {s : Span} {ss : List Span} (le_start : a ≤ s.start.offset)
      (start_le : s.start.offset ≤ s.stop.offset) (tail : Row s.stop.offset ss b) :
      Row a (s :: ss) b

namespace Row

variable {a b c : Nat} {xs ys : List Span}

theorem le (h : Row a xs b) : a ≤ b := by
  induction h with
  | nil h => exact h
  | cons hstart hstop _ ih => exact (hstart.trans hstop).trans ih

theorem weaken (h : Row b xs c) (hab : a ≤ b) : Row a xs c := by
  cases h with
  | nil h => exact .nil (hab.trans h)
  | cons hstart hstop tail => exact .cons (hab.trans hstart) hstop tail

theorem append (h : Row a xs b) (h' : Row b ys c) : Row a (xs ++ ys) c := by
  induction h with
  | nil h => exact h'.weaken h
  | cons hstart hstop _ ih => exact .cons hstart hstop (ih h')

theorem of_append (h : Row a (xs ++ ys) c) : ∃ b, Row a xs b ∧ Row b ys c := by
  induction xs generalizing a with
  | nil => exact ⟨a, .nil le_rfl, h⟩
  | cons x xs ih =>
      cases h with
      | cons hstart hstop tail =>
          obtain ⟨b, hxs, hys⟩ := ih tail
          exact ⟨b, .cons hstart hstop hxs, hys⟩

theorem singleton {s : Span} (hstart : a ≤ s.start.offset)
    (hstop : s.start.offset ≤ s.stop.offset) (hb : s.stop.offset ≤ b) : Row a [s] b :=
  .cons hstart hstop (.nil hb)

theorem bounds (h : Row a xs b) {s : Span} (hs : s ∈ xs) :
    a ≤ s.start.offset ∧ s.start.offset ≤ s.stop.offset ∧ s.stop.offset ≤ b := by
  induction h with
  | nil => simp at hs
  | cons hstart hstop tail ih =>
      rcases List.mem_cons.mp hs with rfl | hs
      · exact ⟨hstart, hstop, tail.le⟩
      · obtain ⟨hlow, hmiddle, hhigh⟩ := ih hs
        exact ⟨(hstart.trans hstop).trans hlow, hmiddle, hhigh⟩

theorem pairwise (h : Row a xs b) :
    xs.Pairwise fun s t ↦ s.stop.offset ≤ t.start.offset := by
  induction h with
  | nil => exact .nil
  | cons _ _ tail ih => exact List.pairwise_cons.mpr ⟨fun t ht ↦ (tail.bounds ht).1, ih⟩

theorem sublist (h : Row a xs b) (hsub : ys.Sublist xs) : Row a ys b := by
  induction h generalizing ys with
  | nil h =>
      rw [List.sublist_nil.mp hsub]
      exact .nil h
  | cons hstart hstop _ ih =>
      cases hsub with
      | cons _ hsub => exact (ih hsub).weaken (hstart.trans hstop)
      | cons_cons _ hsub => exact .cons hstart hstop (ih hsub)

/-- A row reaches from its first span to its last one. -/
theorem tight (h : Row a xs b) {first last : Span} (hfirst : xs.head? = some first)
    (hlast : xs.getLast? = some last) : Row first.start.offset xs last.stop.offset := by
  induction h generalizing first with
  | nil => simp at hfirst
  | @cons a b s ss _ hstop tail ih =>
      obtain rfl : s = first := by simpa using hfirst
      refine .cons le_rfl hstop ?_
      cases ss with
      | nil =>
          obtain rfl : s = last := by simpa using hlast
          exact .nil le_rfl
      | cons t ss =>
          have hstart : s.stop.offset ≤ t.start.offset := (tail.bounds List.mem_cons_self).1
          exact (ih rfl (by simpa using hlast)).weaken hstart

end Row

/-- The span over nodes in a row. -/
theorem over_eq (p : Position) {ns : List Node} {a b : Nat} (h : Row a (ns.map Node.span) b) :
    ns = [] ∧ Span.over p ns = .emptyAt p ∨
      ∃ first last, ns.head? = some first ∧ ns.getLast? = some last ∧
        Span.over p ns = ⟨first.span.start, last.span.stop⟩ := by
  cases hfirst : ns.head? with
  | none =>
      obtain rfl := List.head?_eq_none_iff.mp hfirst
      exact .inl ⟨rfl, rfl⟩
  | some first =>
      cases hlast : ns.getLast? with
      | none => simp [List.getLast?_eq_none_iff.mp hlast] at hfirst
      | some last =>
          have htight : Row first.span.start.offset (ns.map Node.span) last.span.stop.offset :=
            h.tight (by simp [hfirst]) (by simp [hlast])
          have hmem : first.span ∈ ns.map Node.span :=
            List.mem_map_of_mem (List.mem_of_head? hfirst)
          have hle : first.span.stop.offset ≤ last.span.stop.offset := (htight.bounds hmem).2.2
          exact .inr ⟨first, last, rfl, rfl, by simp [Span.over, hfirst, hlast, cover, hle]⟩

theorem row_over {p : Position} {ns : List Node} {a b : Nat} (h : Row a (ns.map Node.span) b)
    (ha : a ≤ p.offset) (hb : p.offset ≤ b) : Row a [Span.over p ns] b := by
  rcases over_eq p h with ⟨-, heq⟩ | ⟨first, last, hfirst, hlast, heq⟩
  · rw [heq]
    exact .singleton ha le_rfl hb
  · have hlow := h.bounds (List.mem_map_of_mem (List.mem_of_head? hfirst))
    have hhigh := h.bounds (List.mem_map_of_mem (List.mem_of_getLast? hlast))
    have hle : Row first.span.start.offset (ns.map Node.span) last.span.stop.offset :=
      h.tight (by simp [hfirst]) (by simp [hlast])
    rw [heq]
    exact .singleton hlow.1 hle.le hhigh.2.2

end Span

theorem Stream.row {p : Position} {text : List Char} {ts : List Token} (h : Stream p text ts) :
    Span.Row p.offset (ts.map Token.span) (p.after text).offset := by
  induction h with
  | ending p gap => exact .singleton (p.offset_le_after gap) le_rfl le_rfl
  | @token p rest ts t hstart _ _ _ _ ih =>
      have hrest : (p.after (t.gap ++ (t.text ++ rest))).offset = (t.stop.after rest).offset := by
        rw [Position.after_append, Position.after_append, ← hstart, Token.stop]
      rw [hrest]
      refine .cons ?_ (Position.offset_le_after _ _) ih
      rw [Token.span, hstart]
      exact Position.offset_le_after _ _

end CoolTree
