import CoolTree.Proofs.Descent
import CoolTree.Proofs.Nesting
import CoolTree.Proofs.Overrun
import CoolTree.Proofs.Tight

/-!
# What is reported of an expression that is nested too deeply

The problem reaches from the first token that is swallowed to where reading stands behind the last
one. So the tokens inside it are the ones that are swallowed.
-/

namespace CoolTree

open Sentence

namespace Draft

/-- Drafts whose nodes, comments aside, end no later than where reading stands, and the last one
right there. -/
structure Flush (d : Draft) : Prop where
  le_reached : ∀ n ∈ d.nodes.toList, n.isExtra = false →
    n.span.stop.offset ≤ d.state.reached.offset
  last : ∀ n ∈ d.nodes.toList.getLast?, n.span.stop = d.state.reached

namespace Flush

variable {d : Draft}

theorem blank (s : State) : Flush (.blank s) :=
  ⟨by simp, by simp⟩

theorem tokenNode (h : d.Flush) (hd : d.state.Ordered)
    (hsound : ∀ item ∈ d.state.input.items, item.Sound) : d.tokenNode.Flush := by
  cases hitems : d.state.input.items with
  | nil => rwa [tokenNode_of_nil d hitems]
  | cons item rest =>
      have hitem : item ∈ d.state.input.items := hitems ▸ List.mem_cons_self
      obtain ⟨node, hnodes, hstop, hreached⟩ : ∃ node : Node,
          d.tokenNode.nodes.toList =
            d.nodes.toList ++ Node.ofComments item.comments ++ [node] ∧
          node.span.stop = item.token.stop ∧ d.tokenNode.state.reached = item.token.stop := by
        rcases tokenNode_cases d hitems with ⟨parts, closed, hkind, heq⟩ | ⟨faulty, -, heq, -⟩
        · obtain ⟨hnodes, -, hreached, -⟩ := stringLiteral_eq d item parts closed
          have hspan := span_literalNode (hkind ▸ (hsound item hitem).spells)
          exact ⟨_, heq ▸ hnodes, congrArg Span.stop hspan, heq ▸ hreached⟩
        · rw [heq, toList_nodes_leaf d hitems, state_leaf d hitems]
          exact ⟨_, rfl, rfl, rfl⟩
      have hle : d.state.reached.offset ≤ item.token.stop.offset :=
        (hd.reached_le item hitem).trans (hd.start_lt_stop item hitem).le
      constructor
      · intro n hn hextra
        rw [hreached]
        simp only [hnodes, List.mem_append, List.mem_singleton] at hn
        obtain (hn | hn) | rfl := hn
        · exact (h.le_reached n hn hextra).trans hle
        · cases hextra.symm.trans (Node.isExtra_of_mem_ofComments hn)
        · exact hstop ▸ le_rfl
      · rw [hnodes, List.getLast?_concat, hreached]
        rintro n ⟨⟩
        exact hstop

theorem tokenNodes (h : d.Flush) (hd : d.state.Ordered)
    (hsound : ∀ item ∈ d.state.input.items, item.Sound) (n : Nat) : (d.tokenNodes n).Flush := by
  induction n generalizing d with
  | zero => exact h
  | succ n ih =>
      have hadvances := advances_tokenNode d
      exact ih (h.tokenNode hd hsound) (hadvances.ordered hd)
        fun item hitem ↦ hsound item (hadvances.mem_items hitem)

/-- A node around the nodes of such a draft ends where reading stands. -/
theorem stop_over (h : d.Flush) :
    (Span.over d.state.reached (d.nodes.toList.dropWhile Node.isExtra)).stop =
      d.state.reached := by
  cases hnodes : d.nodes.toList.dropWhile Node.isExtra with
  | nil => rfl
  | cons first more =>
      obtain ⟨before, hbefore⟩ := List.dropWhile_suffix (l := d.nodes.toList) Node.isExtra
      rw [hnodes] at hbefore
      obtain ⟨last, hlast⟩ : ∃ last, (first :: more).getLast? = some last :=
        ⟨_, List.getLast?_cons⟩
      have hstop : last.span.stop = d.state.reached :=
        h.last last (by rw [← hbefore, List.getLast?_append, hlast]; rfl)
      have hextra : first.isExtra = false := by
        simpa [hnodes] using List.head?_dropWhile_not Node.isExtra d.nodes.toList
      have hle := h.le_reached first (by simp [← hbefore]) hextra
      rw [Span.over, hlast]
      simp only [List.head?_cons, Span.cover, hstop, hle, if_true]

end Flush

theorem errors_tokenNodes {d : Draft} (h : d.state.input.Plain) (n : Nat) :
    (d.tokenNodes n).state.errors = d.state.errors := by
  induction n generalizing d with
  | zero => rfl
  | succ n ih =>
      cases hitems : d.state.input.items with
      | nil =>
          rw [Draft.tokenNodes, tokenNode_of_nil d hitems]
          exact ih h
      | cons item rest =>
          obtain ⟨-, hstring⟩ := h item (hitems ▸ List.mem_cons_self)
          obtain ⟨hinput, herrors⟩ : d.tokenNode.state.input = d.state.input.tail ∧
              d.tokenNode.state.errors = d.state.errors := by
            rcases tokenNode_cases d hitems with ⟨parts, closed, hkind, heq⟩ | ⟨faulty, -, heq, -⟩
            · obtain ⟨-, hinput, -, herrors⟩ := stringLiteral_eq d item parts closed
              cases closed with
              | true => exact heq ▸ ⟨hinput, herrors⟩
              | false => exact (hstring parts hkind).elim
            · exact heq ▸ input_leaf hitems none _ faulty
          rw [Draft.tokenNodes, ih (hinput ▸ h.tail), herrors]

/-- An error around some tokens starts with the first of them. -/
theorem start_enclosure_tokenNodes {s : State} {n : Nat} (hn : n ≤ s.input.items.length) :
    (((blank s).tokenNodes n).enclosure .error true).span.start =
      ((s.input.items.take n).head?.map (·.token.start)).getD
        ((blank s).tokenNodes n).state.reached := by
  cases n with
  | zero => rfl
  | succ n =>
      cases hitems : s.input.items with
      | nil => simp [hitems] at hn
      | cons first rest =>
          obtain ⟨before, last, hlast, hstart⟩ := Swallowed.start_last .wrapped hitems
          obtain ⟨-, heq⟩ := List.append_inj' ((toList_nodes_enclose _ _ _).symm.trans hlast) rfl
          obtain rfl := List.singleton_inj.mp heq
          exact hstart

theorem overrun_eq_swallowed (s : State) :
    overrun 0 s.input.items = swallowed 0 s.input.kinds :=
  overrun_eq 0 s.input.items

theorem kinds_tooDeep (s : State) :
    (tooDeep s).state.input.kinds = s.input.kinds.drop (swallowed 0 s.input.kinds) := by
  rw [Input.kinds, items_tooDeep, overrun_eq_swallowed, List.map_drop, ← Input.kinds]

/-- The problem with an expression that is nested too deeply ends where reading then stands, and
starts with the first token that is swallowed. -/
theorem errors_tooDeep {s : State} (hs : s.Ordered) (hplain : s.input.Plain)
    (hsound : ∀ item ∈ s.input.items, item.Sound) :
    ∃ span, (tooDeep s).state.errors = ⟨.tooDeep, span⟩ :: s.errors ∧
      span.stop = (tooDeep s).state.reached ∧
      span.start = ((s.input.items.take (swallowed 0 s.input.kinds)).head?.map
        (·.token.start)).getD (tooDeep s).state.reached := by
  let tokens := (blank s).tokenNodes (overrun 0 s.input.items)
  have hflush : tokens.Flush := (Flush.blank s).tokenNodes hs hsound _
  have hstate : (tooDeep s).state = { (tokens.enclose .error true).state with
      errors := ⟨.tooDeep, (tokens.enclosure .error true).span⟩ :: tokens.state.errors } :=
    state_reportLast _ .tooDeep (tokens.toList_nodes_enclose .error true)
  refine ⟨(tokens.enclosure .error true).span, ?_, ?_, ?_⟩
  · rw [hstate, show tokens.state.errors = s.errors from errors_tokenNodes hplain _]
  · rw [hstate, span_enclosure]
    exact hflush.stop_over
  · rw [hstate, ← overrun_eq_swallowed]
    exact start_enclosure_tokenNodes (overrun_le 0 s.input.items)

end Draft

/-- Whether a token stands inside a span. -/
def Span.holds (s : Span) (t : Token) : Bool :=
  s.start.offset ≤ t.start.offset && t.stop.offset ≤ s.stop.offset

/-- A span that starts with the first of some items and ends behind the last of them holds their
tokens and no others. -/
theorem Span.filter_holds {before taken rest : List Item} {span : Span}
    (hs : (Tree.initialState (before ++ (taken ++ rest))).Ordered)
    (htaken : ∀ item ∈ taken, item.token.stop.offset ≤ span.stop.offset)
    (hrest : ∀ item ∈ rest, span.stop.offset ≤ item.token.start.offset)
    (hstart : span.start = (taken.head?.map (·.token.start)).getD span.stop) :
    (before ++ (taken ++ rest)).filter (fun item ↦ span.holds item.token) = taken := by
  have hlt : ∀ item ∈ before ++ (taken ++ rest),
      item.token.start.offset < item.token.stop.offset := hs.start_lt_stop
  have hpair : (before ++ (taken ++ rest)).Pairwise fun a b ↦
      a.token.stop.offset ≤ b.token.start.offset := hs.pairwise
  cases taken with
  | nil =>
      refine List.filter_eq_nil_iff.mpr fun item hitem ↦ ?_
      have hitem := hlt item hitem
      rw [List.head?_nil, Option.map_none, Option.getD_none] at hstart
      simp only [holds, hstart, Bool.and_eq_true, decide_eq_true_eq, not_and, Nat.not_le]
      omega
  | cons first more =>
      rw [List.head?_cons, Option.map_some, Option.getD_some] at hstart
      obtain ⟨-, hbehind, hacross⟩ := List.pairwise_append.mp hpair
      have hmore := (List.pairwise_cons.mp (List.pairwise_append.mp hbehind).1).1
      have hfirst := hlt first (by simp)
      have hnone : ∀ item ∈ before, ¬span.holds item.token = true := fun item hitem ↦ by
        have hitem' := hlt item (List.mem_append_left _ hitem)
        have hle := hacross item hitem first (by simp)
        simp only [holds, hstart, Bool.and_eq_true, decide_eq_true_eq, not_and, Nat.not_le]
        omega
      have hall : ∀ item ∈ first :: more, span.holds item.token = true := fun item hitem ↦ by
        have hle : first.token.start.offset ≤ item.token.start.offset := by
          rcases List.mem_cons.mp hitem with rfl | hmem
          · exact le_rfl
          · exact hfirst.le.trans (hmore item hmem)
        simp only [holds, hstart, hle, htaken item hitem, decide_true, Bool.and_self]
      have hnone' : ∀ item ∈ rest, ¬span.holds item.token = true := fun item hitem ↦ by
        have hitem' := hlt item (by simp [hitem])
        have hle := hrest item hitem
        simp only [holds, Bool.and_eq_true, decide_eq_true_eq, not_and, Nat.not_le]
        omega
      rw [List.filter_append, List.filter_append, List.filter_eq_nil_iff.mpr hnone,
        List.filter_eq_self.mpr hall, List.filter_eq_nil_iff.mpr hnone', List.nil_append,
        List.append_nil]

/-- The kinds of the tokens inside a span. -/
def Span.kindsIn (s : Span) (items : List Item) : List TokenKind :=
  (items.filter fun item ↦ s.holds item.token).map (·.token.kind)

/-- The significant tokens of a source inside a span. -/
def Token.within (source : List Char) (span : Span) : List Token :=
  (significant source).filter span.holds

namespace Leeway

/-- The items of a source stand in their order. -/
structure Proper (w : Leeway) : Prop where
  ordered : (Tree.initialState w.items).Ordered
  sound : ∀ item ∈ w.items, item.Sound

variable {w : Leeway} {s : State}

/-- What is reported of an expression that is nested too deeply holds the tokens that are
swallowed. -/
theorem Proper.errors_tooDeep (hw : w.Proper) (hs : s.Fine w) :
    ∃ span, (Draft.tooDeep s).state.errors = ⟨.tooDeep, span⟩ :: s.errors ∧
      span.kindsIn w.items = lead 0 s.input.kinds := by
  obtain ⟨before, hbefore⟩ := hs.suffix
  have hsound : ∀ item ∈ s.input.items, item.Sound :=
    fun item hitem ↦ hw.sound item (hs.suffix.mem hitem)
  obtain ⟨span, herrors, hstop, hstart⟩ := Draft.errors_tooDeep hs.ordered hs.plain hsound
  refine ⟨span, herrors, ?_⟩
  have hsplit := (List.take_append_drop (swallowed 0 s.input.kinds) s.input.items).symm
  have hreached : (Draft.tooDeep s).state.reached = s.reached.behind
      (s.input.items.take (swallowed 0 s.input.kinds)) := by
    obtain ⟨taken, htaken, hreached, -⟩ := Draft.advances_tooDeep s
    rw [Draft.items_tooDeep, Draft.overrun_eq_swallowed] at htaken
    rw [hreached, List.append_cancel_right (htaken.symm.trans hsplit)]
  obtain ⟨-, htaken, hbehind⟩ := hs.ordered.behind hsplit
  rw [← hreached, ← hstop] at htaken hbehind
  rw [← hstop] at hstart
  have hordered := hw.ordered
  rw [← hbefore, hsplit] at hordered
  have hfilter := Span.filter_holds hordered htaken hbehind hstart
  rw [← hsplit, hbefore] at hfilter
  rw [Span.kindsIn, hfilter, lead, Input.kinds, List.map_take]

end Leeway

end CoolTree
