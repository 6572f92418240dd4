import CoolTree.Proofs.Drafting
import Mathlib.Data.List.Basic
import Mathlib.Data.Nat.Basic
import Mathlib.Order.Basic

/-!
# Parsing only moves forward

Whatever is parsed takes tokens from the front of the input, moves the end of what was read behind
the last one taken, and adds problems that start no earlier than where it began. The proof goes
along the operations on drafts, then along phrases and the levels of nesting.
-/

namespace CoolTree

/-- Where reading stands once some items are read. -/
def Position.behind (p : Position) (taken : List Item) : Position :=
  taken.foldl (fun _ item ↦ item.token.stop) p

@[simp] theorem Position.behind_nil (p : Position) : p.behind [] = p := rfl

@[simp] theorem Position.behind_cons (p : Position) (item : Item) (taken : List Item) :
    p.behind (item :: taken) = item.token.stop.behind taken := rfl

theorem Position.behind_append (p : Position) (xs ys : List Item) :
    p.behind (xs ++ ys) = (p.behind xs).behind ys := by
  simp [behind]

@[simp] theorem Input.items_tail (i : Input) : i.tail.items = i.items.tail := rfl

namespace State

/-- The tokens left stand behind what was read, each behind the one before, and none is empty. -/
structure Ordered (s : State) : Prop where
  reached_le : ∀ item ∈ s.input.items, s.reached.offset ≤ item.token.start.offset
  pairwise : s.input.items.Pairwise fun a b ↦ a.token.stop.offset ≤ b.token.start.offset
  start_lt_stop : ∀ item ∈ s.input.items, item.token.start.offset < item.token.stop.offset

/-- A state that parsing can come to from another one. -/
def Advances (s t : State) : Prop :=
  ∃ taken, s.input.items = taken ++ t.input.items ∧ t.reached = s.reached.behind taken ∧
    ∃ new, t.errors = new ++ s.errors ∧
      (s.Ordered → ∀ e ∈ new, s.reached.offset ≤ e.span.start.offset)

theorem Ordered.behind {s : State} (h : s.Ordered) {taken rest : List Item}
    (hitems : s.input.items = taken ++ rest) :
    s.reached.offset ≤ (s.reached.behind taken).offset ∧
      (∀ item ∈ taken, item.token.stop.offset ≤ (s.reached.behind taken).offset) ∧
      ∀ item ∈ rest, (s.reached.behind taken).offset ≤ item.token.start.offset := by
  rcases List.eq_nil_or_concat' taken with rfl | ⟨before, last, rfl⟩
  · simpa using fun item hitem ↦ h.reached_le item (hitems ▸ hitem)
  · have hlast : s.reached.behind (before ++ [last]) = last.token.stop := by
      simp [Position.behind_append]
    have hpair := hitems ▸ h.pairwise
    obtain ⟨htaken, -, hacross⟩ := List.pairwise_append.mp hpair
    have hmem : last ∈ s.input.items := by simp [hitems]
    rw [hlast]
    refine ⟨?_, ?_, fun item hitem ↦ hacross last (by simp) item hitem⟩
    · exact (h.reached_le last hmem).trans (h.start_lt_stop last hmem).le
    · intro item hitem
      rcases List.mem_append.mp hitem with hitem | hitem
      · have hle := (List.pairwise_append.mp htaken).2.2 item hitem last (by simp)
        exact hle.trans (h.start_lt_stop last hmem).le
      · exact List.mem_singleton.mp hitem ▸ le_rfl

namespace Advances

variable {s t u : State}

theorem mem_items (h : s.Advances t) {item : Item} (hitem : item ∈ t.input.items) :
    item ∈ s.input.items := by
  obtain ⟨taken, hitems, -⟩ := h
  exact hitems ▸ List.mem_append_right taken hitem

/-- Problems that were found are kept. -/
theorem mem_errors (h : s.Advances t) {e : SyntaxError} (he : e ∈ s.errors) : e ∈ t.errors := by
  obtain ⟨-, -, -, new, herrors, -⟩ := h
  exact herrors ▸ List.mem_append_right new he

theorem ordered (h : s.Advances t) (hs : s.Ordered) : t.Ordered := by
  have hmem : ∀ item ∈ t.input.items, item ∈ s.input.items := fun item hitem ↦ h.mem_items hitem
  obtain ⟨taken, hitems, hreached, -⟩ := h
  refine ⟨?_, ?_, fun item hitem ↦ hs.start_lt_stop item (hmem item hitem)⟩
  · rw [hreached]
    exact (hs.behind hitems).2.2
  · exact (List.pairwise_append.mp (hitems ▸ hs.pairwise)).2.1

theorem reached_le (h : s.Advances t) (hs : s.Ordered) : s.reached.offset ≤ t.reached.offset := by
  obtain ⟨taken, hitems, hreached, -⟩ := h
  rw [hreached]
  exact (hs.behind hitems).1

theorem size_le (h : s.Advances t) : t.input.size ≤ s.input.size := by
  obtain ⟨taken, hitems, -⟩ := h
  rw [t.input.size_eq, s.input.size_eq, hitems, List.length_append]
  exact Nat.le_add_left _ _

theorem of_eq (hinput : t.input = s.input) (hreached : t.reached = s.reached)
    (herrors : t.errors = s.errors) : s.Advances t :=
  ⟨[], by simp [hinput], by simp [hreached], [], by simp [herrors], by simp⟩

theorem refl (s : State) : s.Advances s :=
  of_eq rfl rfl rfl

theorem of_reported (hinput : t.input = s.input) (hreached : t.reached = s.reached)
    {e : SyntaxError} (herrors : t.errors = e :: s.errors)
    (he : s.reached.offset ≤ e.span.start.offset) : s.Advances t :=
  ⟨[], by simp [hinput], by simp [hreached], [e], by simp [herrors], by simpa using fun _ ↦ he⟩

theorem trans (h : s.Advances t) (h' : t.Advances u) : s.Advances u := by
  have hordered := h.ordered
  have hle := h.reached_le
  obtain ⟨taken, hitems, hreached, new, herrors, hnew⟩ := h
  obtain ⟨taken', hitems', hreached', new', herrors', hnew'⟩ := h'
  refine ⟨taken ++ taken', ?_, ?_, new' ++ new, ?_, ?_⟩
  · rw [hitems, hitems', List.append_assoc]
  · rw [hreached', hreached, Position.behind_append]
  · rw [herrors', herrors, List.append_assoc]
  · intro hs e he
    rcases List.mem_append.mp he with he | he
    · exact (hle hs).trans (hnew' (hordered hs) e he)
    · exact hnew hs e he

end Advances

end State

namespace Draft

open State

variable (d : Draft)

theorem advances_leaf (field : Option Field) (kind : Kind) (faulty : Bool) :
    d.state.Advances (d.leaf field kind faulty).state := by
  cases hitems : d.state.input.items with
  | nil =>
      rw [leaf_of_nil d hitems]
      exact .refl _
  | cons item rest =>
      rw [state_leaf d hitems]
      exact ⟨[item], by simp [hitems], rfl, [], rfl, by simp⟩

theorem advances_enclose (kind : Kind) (faulty : Bool) :
    d.state.Advances (d.enclose kind faulty).state :=
  .of_eq rfl rfl rfl

theorem advances_missing (field : Option Field) (kind : Kind) (problem : Problem) :
    d.state.Advances (d.missing field kind problem).state :=
  .of_reported rfl rfl rfl (Nat.le_refl _)

theorem advances_tokenNode : d.state.Advances d.tokenNode.state := by
  cases hitems : d.state.input.items with
  | nil =>
      rw [tokenNode_of_nil d hitems]
      exact .refl _
  | cons item rest =>
      obtain ⟨-, -, -, -, -, hinput, hreached, new, herrors, hnew⟩ := tokenNode_eq d hitems
      refine ⟨[item], by simp [hinput, hitems], hreached, new, herrors, fun hs e he ↦ ?_⟩
      have hitem : item ∈ d.state.input.items := by simp [hitems]
      rw [hnew e he]
      exact (hs.reached_le item hitem).trans (hs.start_lt_stop item hitem).le

theorem advances_tokenNodes (n : Nat) : d.state.Advances (d.tokenNodes n).state := by
  induction n generalizing d with
  | zero => exact .refl _
  | succ n ih => exact (advances_tokenNode d).trans (ih d.tokenNode)

theorem state_reportLast (problem : Problem) {before : List Node} {last : Node}
    (h : d.nodes.toList = before ++ [last]) :
    (d.reportLast problem).state =
      { d.state with errors := ⟨problem, last.span⟩ :: d.state.errors } := by
  have hback : d.nodes.back? = some last := by
    rw [← Array.getLast?_toList, h]
    simp
  simp [reportLast, report, hback]

theorem Swallowed.advances {s : State} {n : Nat} {w : Draft} (h : Swallowed s n w)
    (hn : n ≤ s.input.items.length) (problem : Problem) :
    s.Advances (w.reportLast problem).state := by
  have hw : s.Advances w.state := by
    obtain ⟨made, hstate⟩ := h.state_eq
    rw [hstate]
    exact (advances_tokenNodes (blank s) n).trans (.of_eq rfl rfl rfl)
  cases n with
  | zero =>
      obtain ⟨last, hnodes, hspan⟩ := h.nodes_zero
      obtain ⟨made, hstate⟩ := h.state_eq
      rw [state_reportLast w problem hnodes, hstate]
      exact .of_reported rfl rfl rfl (by rw [hspan]; exact Nat.le_refl _)
  | succ n =>
      cases hitems : s.input.items with
      | nil => simp [hitems] at hn
      | cons item rest =>
          obtain ⟨before, last, hnodes, hstart⟩ := h.start_last hitems
          rw [state_reportLast w problem hnodes]
          obtain ⟨taken, htaken, hreached, new, herrors, hnew⟩ := hw
          refine ⟨taken, htaken, hreached, ⟨problem, last.span⟩ :: new, by simp [herrors], ?_⟩
          intro hs e he
          rcases List.mem_cons.mp he with rfl | he
          · exact hstart ▸ hs.reached_le item (by simp [hitems])
          · exact hnew hs e he

theorem distance_le (stop : TokenClass) (items : List Item) : distance stop items ≤ items.length :=
  (List.takeWhile_sublist _).length_le

theorem overrun_le (opened : Nat) (items : List Item) : overrun opened items ≤ items.length := by
  fun_induction overrun opened items <;> simp_all

theorem advances_skip (stop : TokenClass) : d.state.Advances (d.skip stop).state := by
  rcases skip_eq d stop with ⟨-, heq⟩ | ⟨n, w, hn, hw, heq⟩
  · rw [heq]
    exact .refl _
  · rw [heq]
    exact hw.advances (hn ▸ distance_le stop _) _

theorem advances_tooDeep (s : State) : s.Advances (tooDeep s).state :=
  Swallowed.advances .wrapped (overrun_le 0 s.input.items) .tooDeep

theorem advances_expect (t : Terminal) : d.state.Advances (d.expect t).state := by
  have hskip := advances_skip d (.either (.only t) .synchronizing)
  simp only [expect]
  split
  · exact hskip.trans (advances_leaf _ _ _ _)
  · exact hskip.trans (advances_missing _ _ _ _)

theorem advances_word (field : Option Field) (slot : Slot) :
    d.state.Advances (d.word field slot).state := by
  unfold word
  split
  · exact advances_leaf d _ _ _
  · exact advances_missing d _ _ _

theorem advances_stringLiteral {item : Item} {rest : List Item}
    (hitems : d.state.input.items = item :: rest) {parts : List BodyPart} {closed : Bool}
    (hkind : item.token.kind = .string parts closed) :
    d.state.Advances (d.stringLiteral item parts closed).state :=
  tokenNode_of_string d hitems hkind ▸ advances_tokenNode d

theorem advances_literal : d.state.Advances d.literal.state := by
  unfold literal
  split
  · rename_i item rest hitems
    split
    · exact advances_stringLiteral d hitems ‹_›
    · exact .refl _
  · exact .refl _

theorem advances_repeatWhile (test : Test) {round : Draft → Draft}
    (h : ∀ d : Draft, d.state.Advances (round d).state) :
    d.state.Advances (repeatWhile test round d).state := by
  fun_induction repeatWhile test round d with
  | case1 d _ _ _ ih => exact (h d).trans ih
  | case2 d _ _ _ => exact h d
  | case3 d _ => exact .refl _

end Draft

open Draft State

variable {levels : Levels} {expression : Int → State → Draft}

/-- A phrase moves forward if the expressions in it do. -/
theorem Phrase.advances_run (h : ∀ least s, State.Advances s (expression least s).state)
    (p : Phrase) (d : Draft) : d.state.Advances (p.run levels expression d).state := by
  induction p generalizing d with
  | done => exact .refl _
  | expect t next ih => exact (advances_expect d t).trans (ih _)
  | take field next ih => exact (advances_leaf d _ _ _).trans (ih _)
  | word field slot next ih => exact (advances_word d field slot).trans (ih _)
  | literal next ih => exact (advances_literal d).trans (ih _)
  | operand field bound next ih => exact (h _ _).trans (ih (d.attach field (expression _ d.state)))
  | node field kind body next ihbody ihnext =>
      have hbody := ihbody (blank d.state)
      exact (hbody.trans (advances_enclose _ kind false)).trans
        (ihnext (d.attach field ((body.run levels expression (blank d.state)).enclose kind false)))
  | choose test yes no next ihyes ihno ihnext =>
      refine Advances.trans ?_ (ihnext _)
      split
      · exact ihyes d
      · exact ihno d
  | loop test body next ihbody ihnext =>
      exact (advances_repeatWhile d test ihbody).trans (ihnext _)
  | skip stop next ih => exact (advances_skip d stop).trans (ih _)
  | absent next ih => exact (advances_missing d _ _ _).trans (ih _)

namespace Draft

theorem advances_climb (h : ∀ least s, State.Advances s (expression least s).state) (least : Int)
    (d : Draft) : d.state.Advances (climb levels expression least d).state := by
  have hnext : ∀ (d : Draft) (next : Continuation), d.state.Advances
      ((next.phrase.run levels expression ((blank d.state).attach (some next.field) d)).enclose
        next.kind false).state := fun d next ↦
    (next.phrase.advances_run h ((blank d.state).attach (some next.field) d)).trans
      (advances_enclose _ _ _)
  fun_induction climb levels expression least d with
  | case1 d _ => exact .refl _
  | case2 d next _ _ _ _ ih => exact (hnext d next).trans ih
  | case3 d next _ _ _ _ => exact hnext d next

theorem advances_expression (depth : Nat) (least : Int) (s : State) :
    s.Advances (Draft.expression levels depth least s).state := by
  induction depth generalizing least s with
  | zero => exact advances_tooDeep s
  | succ depth ih => exact (Phrase.advances_run ih _ (blank s)).trans (advances_climb ih _ _)

end Draft

end CoolTree
