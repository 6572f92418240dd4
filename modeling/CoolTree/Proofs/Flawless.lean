import CoolTree.Proofs.Follow
import Mathlib.Data.List.TakeWhile

/-!
# Drafts without trouble

While every token is the one that is asked for, nothing is reported and no node is marked. Then it
is enough to know the nodes of a draft apart from comments, and which tokens are ahead of it.
-/

namespace CoolTree

namespace Node

/-- The children of a node apart from comments. -/
def parts (n : Node) : List Node :=
  n.children.filter (!·.isExtra)

def ofToken (kind : Kind) (field : Option Field) (t : Token) : Node :=
  .mk ⟨kind, t.span, field, false, false, false⟩ []

theorem filter_ofComments (cs : List Token) :
    (ofComments cs).filter (!·.isExtra) = [] := by
  rw [List.filter_eq_nil_iff]
  intro n hn
  simp [isExtra_of_mem_ofComments hn]

theorem map_assign_ofComments (field : Option Field) (cs : List Token) :
    (ofComments cs).map (assign field) = ofComments cs :=
  (List.map_congr_left fun _ hc ↦ assign_of_isExtra (isExtra_of_mem_ofComments hc)).trans
    (List.map_id _)

theorem not_isFaulty_of_mem_ofComments {cs : List Token}
    (h : ∀ c ∈ cs, c.kind ≠ .blockComment false) :
    ∀ n ∈ ofComments cs, n.isFaulty = false := by
  induction cs with
  | nil => simp [ofComments]
  | cons c cs ih =>
      obtain ⟨hc, hcs⟩ := List.forall_mem_cons.mp h
      rw [ofComments, List.forall_mem_cons]
      exact ⟨beq_eq_false_iff_ne.mpr hc, ih hcs⟩

theorem field_assign {n : Node} (h : n.isExtra = false) (field : Option Field) :
    (n.assign field).field? = field := by
  simp [assign, h, field?]

theorem filter_map_assign (field : Option Field) (ns : List Node) :
    (ns.map (assign field)).filter (!·.isExtra) =
      (ns.filter (!·.isExtra)).map (assign field) := by
  rw [List.filter_map]
  exact congrArg _ (List.filter_congr fun n _ ↦ by simp)

theorem filter_dropWhile_isExtra (ns : List Node) :
    (ns.dropWhile isExtra).filter (!·.isExtra) = ns.filter (!·.isExtra) := by
  induction ns with
  | nil => rfl
  | cons n ns ih =>
      cases h : n.isExtra with
      | true => rw [List.dropWhile_cons_of_pos h, ih, List.filter_cons_of_neg (by simp [h])]
      | false => rw [List.dropWhile_cons_of_neg (by simp [h])]

theorem not_isExtra_of_dropWhile {n : Node} {ns rest : List Node}
    (h : ns.dropWhile isExtra = n :: rest) : n.isExtra = false := by
  have hne : ns.dropWhile isExtra ≠ [] := by simp [h]
  have hhead := List.head_dropWhile_not (p := isExtra) hne
  simpa [h] using hhead

theorem getLast?_of_dropWhile {n : Node} {ns : List Node}
    (h : (ns.dropWhile isExtra).getLast? = some n) : ns.getLast? = some n := by
  obtain ⟨before, hbefore⟩ := List.dropWhile_suffix isExtra (l := ns)
  rw [← hbefore, List.getLast?_append, h]
  rfl

end Node

/-- The tokens ahead of a state, if the comments among them are terminated. -/
structure State.Ahead (s : State) (ts : List Token) : Prop where
  tokens : s.input.items.map (·.token) = ts
  closed : ∀ item ∈ s.input.items, ∀ c ∈ item.comments, c.kind ≠ .blockComment false

namespace State.Ahead

variable {s : State} {t u : Token} {ts : List Token}

theorem items_cons (h : s.Ahead (t :: ts)) :
    ∃ item rest, s.input.items = item :: rest ∧ item.token = t ∧ rest.map (·.token) = ts :=
  List.map_eq_cons_iff.mp h.tokens

theorem current (h : s.Ahead (t :: ts)) : s.input.current = t.kind := by
  obtain ⟨item, rest, hitems, rfl, -⟩ := h.items_cons
  rw [Input.current, hitems]

theorem current_nil (h : s.Ahead []) : s.input.current = .ending := by
  rw [Input.current, List.map_eq_nil_iff.mp h.tokens]

theorem upcoming (h : s.Ahead (t :: u :: ts)) : s.input.upcoming = u.kind := by
  obtain ⟨item, rest, hitems, -, hrest⟩ := h.items_cons
  obtain ⟨next, more, rfl, rfl, -⟩ := List.map_eq_cons_iff.mp hrest
  rw [Input.upcoming, hitems]

theorem size (h : s.Ahead ts) : s.input.size = ts.length := by
  rw [s.input.size_eq, ← h.tokens, List.length_map]

end State.Ahead

namespace Draft

/-- A draft with nothing wrong in it: what has been reported so far, its nodes apart from comments,
and the tokens ahead. -/
structure Flawless (errors : List SyntaxError) (d : Draft) (parts : List Node)
    (ts : List Token) : Prop where
  errors_eq : d.state.errors = errors
  parts_eq : d.nodes.toList.filter (!·.isExtra) = parts
  clean : ∀ n ∈ d.nodes.toList, n.isFaulty = false
  ahead : d.state.Ahead ts

namespace Flawless

variable {errors : List SyntaxError} {d inner : Draft} {ps qs : List Node} {t u : Token}
  {ts us : List Token}

theorem blank {s : State} (h : s.Ahead ts) : Flawless s.errors (blank s) [] ts :=
  ⟨rfl, rfl, by simp, h⟩

theorem current (h : Flawless errors d ps (t :: ts)) : d.current = t.kind :=
  h.ahead.current

theorem mem_nodes (h : Flawless errors d ps ts) {n : Node} (hn : n ∈ ps) :
    n ∈ d.nodes.toList ∧ n.isExtra = false := by
  rw [← h.parts_eq, List.mem_filter] at hn
  simpa using hn

theorem not_isExtra (h : Flawless errors d ps ts) : ∀ n ∈ ps, n.isExtra = false :=
  fun _ hn ↦ (h.mem_nodes hn).2

theorem not_isFaulty (h : Flawless errors d ps ts) : ∀ n ∈ ps, n.isFaulty = false :=
  fun n hn ↦ h.clean n (h.mem_nodes hn).1

theorem leaf (h : Flawless errors d ps (t :: ts)) (field : Option Field) (kind : Kind) :
    Flawless errors (d.leaf field kind false) (ps ++ [.ofToken kind field t]) ts := by
  obtain ⟨item, rest, hitems, rfl, hrest⟩ := h.ahead.items_cons
  have hclosed := h.ahead.closed
  rw [hitems, List.forall_mem_cons] at hclosed
  refine ⟨?_, ?_, ?_, ?_⟩
  · rw [state_leaf d hitems]
    exact h.errors_eq
  · rw [toList_nodes_leaf d hitems, List.filter_append, List.filter_append, h.parts_eq,
      Node.filter_ofComments, List.append_nil]
    rfl
  · rw [toList_nodes_leaf d hitems, List.forall_mem_append, List.forall_mem_append]
    exact ⟨⟨h.clean, Node.not_isFaulty_of_mem_ofComments hclosed.1⟩, by simp [Node.isFaulty]⟩
  · have htail : (d.leaf field kind false).state.input.items = rest := by
      rw [state_leaf d hitems, Input.items_tail, hitems, List.tail_cons]
    exact ⟨by rw [htail, hrest], by rw [htail]; exact hclosed.2⟩

theorem take (h : Flawless errors d ps (t :: ts)) (field : Option Field) :
    Flawless errors (d.take field) (ps ++ [.ofToken t.kind.leafKind field t]) ts := by
  rw [Draft.take, h.current]
  exact h.leaf field _

theorem word (h : Flawless errors d ps (t :: ts)) {slot : Slot} {kind : Kind}
    (hslot : slot.accepts? t.kind = some kind) (field : Option Field) :
    Flawless errors (d.word field slot) (ps ++ [.ofToken kind field t]) ts := by
  rw [Draft.word, h.current, hslot]
  exact h.leaf field kind

theorem expect (h : Flawless errors d ps (t :: ts)) {terminal : Terminal}
    (ht : t.kind = .terminal terminal) :
    Flawless errors (d.expect terminal)
      (ps ++ [.ofToken (.terminal terminal) none t]) ts := by
  rw [expect_of_current (h.current.trans ht)]
  exact h.leaf none (.terminal terminal)

theorem attach (h : Flawless errors d ps ts) (hinner : Flawless errors inner qs us)
    (field : Option Field) :
    Flawless errors (d.attach field inner) (ps ++ qs.map (Node.assign field)) us := by
  refine ⟨hinner.errors_eq, ?_, ?_, hinner.ahead⟩
  · rw [toList_nodes_attach, List.filter_append, h.parts_eq, Node.filter_map_assign,
      hinner.parts_eq]
  · rw [toList_nodes_attach, List.forall_mem_append, List.forall_mem_map]
    exact ⟨h.clean, fun n hn ↦ (Node.isFaulty_assign field n).trans (hinner.clean n hn)⟩

theorem enclose (h : Flawless errors d ps ts) (kind : Kind) :
    Flawless errors (d.enclose kind false) [d.enclosure kind false] ts ∧
      (d.enclosure kind false).parts = ps := by
  have hmem : ∀ n ∈ d.nodes.toList.dropWhile Node.isExtra, n.isFaulty = false := fun n hn ↦
    h.clean n (List.dropWhile_subset _ hn)
  have hfaulty : (d.enclosure kind false).isFaulty = false := by
    simpa [enclosure, Node.isFaulty] using hmem
  refine ⟨⟨h.errors_eq, ?_, ?_, h.ahead.tokens, h.ahead.closed⟩, ?_⟩
  · have hfront : (d.nodes.toList.takeWhile Node.isExtra).filter (!·.isExtra) = [] := by
      rw [List.filter_eq_nil_iff]
      intro n hn
      simp [List.mem_takeWhile_imp hn]
    rw [toList_nodes_enclose, List.filter_append, hfront]
    rfl
  · rw [toList_nodes_enclose, List.forall_mem_append]
    exact ⟨fun n hn ↦ h.clean n (List.takeWhile_subset _ hn), by simpa using hfaulty⟩
  · exact (Node.filter_dropWhile_isExtra _).trans h.parts_eq

/-- A construct becomes one node behind what is there. -/
theorem node (h : Flawless errors d ps ts) (hinner : Flawless errors inner qs us)
    (field : Option Field) (kind : Kind) :
    ∃ n, Flawless errors (d.attach field (inner.enclose kind false)) (ps ++ [n]) us ∧
      n.kind = kind ∧ n.parts = qs := by
  obtain ⟨hnode, hparts⟩ := hinner.enclose kind
  refine ⟨_, h.attach hnode field, ?_, ?_⟩
  · rw [Node.kind_assign]
    rfl
  · rw [Node.parts, Node.children_assign]
    exact hparts

end Flawless

end Draft

namespace Phrase

open Draft

variable {v : Levels} {expression : Int → State → Draft} {test : Test} {d : Draft}

theorem run_choose_pos (h : test.holds d.state.input = true) (yes no next : Phrase) :
    (choose test yes no next).run v expression d =
      next.run v expression (yes.run v expression d) := by
  rw [run, if_pos h]

theorem run_choose_neg (h : test.holds d.state.input = false) (yes no next : Phrase) :
    (choose test yes no next).run v expression d =
      next.run v expression (no.run v expression d) := by
  rw [run, h]
  rfl

/-- A loop of one round. -/
theorem run_loop_once {errors : List SyntaxError} {ps qs : List Node} {ts us : List Token}
    {body : Phrase} (h : Flawless errors d ps ts)
    (hbody : Flawless errors (body.run v expression d) qs us)
    (htest : test.holds d.state.input = true)
    (hend : test.holds (body.run v expression d).state.input = false)
    (hlength : us.length < ts.length) (next : Phrase) :
    (loop test body next).run v expression d = next.run v expression (body.run v expression d) := by
  have hsize : (body.run v expression d).state.input.size < d.state.input.size := by
    rwa [hbody.ahead.size, h.ahead.size]
  rw [run, repeatWhile, if_pos htest, if_pos hsize, repeatWhile, hend]
  rfl

end Phrase

theorem Draft.Flawless.choose {v : Levels} {expression : Int → State → Draft} {test : Test}
    {d : Draft} (htest : test.holds d.state.input = true) {yes : Phrase}
    {errors : List SyntaxError} {ps : List Node} {ts : List Token}
    (h : Flawless errors (yes.run v expression d) ps ts) (no : Phrase) :
    Flawless errors ((Phrase.choose test yes no .done).run v expression d) ps ts := by
  rw [Phrase.run_choose_pos htest]
  exact h

end CoolTree
