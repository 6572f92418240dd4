import CoolTree.Proofs.Built
import CoolTree.Proofs.Shape
import Mathlib.Data.List.Infix

/-!
# Two runs side by side

A run on some tokens is compared with a run on the same tokens with others behind them, the first of
which starts a class. While there are tokens of its own left, the longer run sees what the shorter
one sees; where the shorter one comes to the end, the longer one comes to the class. Nothing is
taken from there unless an expression is nested too deeply.
-/

namespace CoolTree

namespace TokenKind

def isOpening : TokenKind → Bool
  | terminal .leftParen | terminal .leftBrace => true
  | _ => false

def isClosing : TokenKind → Bool
  | terminal .rightParen | terminal .rightBrace => true
  | _ => false

/-- From any token on, at least as many brackets are closed as opened. -/
def Closing (ks : List TokenKind) : Prop :=
  ∀ rest, rest <:+ ks → rest.countP isOpening ≤ rest.countP isClosing

instance (ks : List TokenKind) : Decidable (Closing ks) :=
  decidable_of_iff (∀ rest ∈ ks.tails, rest.countP isOpening ≤ rest.countP isClosing) <| by
    simp only [List.mem_tails, Closing]

/-- The kind that a run sees and the kind that a longer run sees. -/
def Alike (k k' : TokenKind) : Prop :=
  k' = k ∨ k = .ending ∧ k' = .terminal .classWord

theorem Closing.tail {k : TokenKind} {ks : List TokenKind} (h : Closing (k :: ks)) : Closing ks :=
  fun rest hrest ↦ h rest (hrest.trans (List.suffix_cons k ks))

theorem Closing.filter {ks : List TokenKind} (h : Closing ks) {p : TokenKind → Bool}
    (hp : ∀ k, k.isOpening = true ∨ k.isClosing = true → p k = true) : Closing (ks.filter p) := by
  rintro rest ⟨before, hsplit⟩
  obtain ⟨front, back, rfl, -, rfl⟩ := List.filter_eq_append_iff.mp hsplit.symm
  rw [List.countP_filter, List.countP_filter]
  have hopen : ∀ k : TokenKind, (k.isOpening && p k) = k.isOpening := by
    intro k
    cases hk : k.isOpening with
    | true => rw [hp k (.inl hk)]; rfl
    | false => rfl
  have hclose : ∀ k : TokenKind, (k.isClosing && p k) = k.isClosing := by
    intro k
    cases hk : k.isClosing with
    | true => rw [hp k (.inr hk)]; rfl
    | false => rfl
  simp only [hopen, hclose]
  exact h back (List.suffix_append front back)

namespace Alike

variable {k k' : TokenKind}

theorem refl (k : TokenKind) : Alike k k :=
  .inl rfl

/-- What does not tell a class from the end does not tell kinds that are alike. -/
theorem congr (h : Alike k k') {α : Type} {f : TokenKind → α}
    (hf : f (.terminal .classWord) = f .ending) : f k' = f k := by
  rcases h with rfl | ⟨rfl, rfl⟩
  · rfl
  · exact hf

end Alike

end TokenKind

/-- The kinds of a token and of the comments in front of it. -/
def Item.kinds (item : Item) : List TokenKind × TokenKind :=
  (item.comments.map (·.kind), item.token.kind)

/-- What a longer run has besides a shorter one: items behind, the first of which starts a class,
and errors that were found before. It may be at risk to go on past them. -/
structure Sequel where
  items : List Item
  starts : ∀ item ∈ items.head?, item.token.kind = .terminal .classWord
  errors : Nat
  risky : Prop

theorem Sequel.eq_nil_or_class (q : Sequel) :
    q.items = [] ∨
      ∃ item rest, q.items = item :: rest ∧ item.token.kind = .terminal .classWord := by
  have hstarts := q.starts
  cases hitems : q.items with
  | nil => exact .inl rfl
  | cons item rest => exact .inr ⟨item, rest, rfl, hstarts item (by rw [hitems]; rfl)⟩

theorem Item.map_kind {xs ys : List Item} (h : xs.map kinds = ys.map kinds) :
    xs.map (·.token.kind) = ys.map (·.token.kind) := by
  simpa [Function.comp_def, kinds] using congrArg (List.map Prod.snd) h

/-- Two states in which parsing goes on alike. -/
structure State.Abreast (q : Sequel) (s t : State) : Prop where
  items : ∃ xs, t.input.items = xs ++ q.items ∧ xs.map Item.kinds = s.input.items.map Item.kinds
  errors : t.errors.length = q.errors + s.errors.length
  closing : q.items = [] ∨ q.risky ∨ TokenKind.Closing (s.input.items.map (·.token.kind))

/-- Something was nested too deeply in the longer run, which may have gone astray by that. -/
def Sequel.Lost (q : Sequel) (t : State) : Prop :=
  q.risky ∧ ∃ e ∈ t.errors, e.problem = .tooDeep

theorem Sequel.Lost.of_advances {q : Sequel} {t u : State} (h : q.Lost t) (htu : t.Advances u) :
    q.Lost u := by
  obtain ⟨hrisky, e, he, hproblem⟩ := h
  obtain ⟨-, -, -, new, herrors, -⟩ := htu
  exact ⟨hrisky, e, herrors ▸ List.mem_append_right new he, hproblem⟩

namespace State.Abreast

variable {q : Sequel} {s t s' t' : State} {item : Item} {rest : List Item}

theorem size (h : s.Abreast q t) : t.input.size = s.input.size + q.items.length := by
  obtain ⟨xs, hitems, hkinds⟩ := h.items
  have hlength := congrArg List.length hkinds
  simp only [List.length_map] at hlength
  rw [t.input.size_eq, s.input.size_eq, hitems, List.length_append, hlength]

theorem size_lt_iff (h : s.Abreast q t) (h' : s'.Abreast q t') :
    t'.input.size < t.input.size ↔ s'.input.size < s.input.size := by
  rw [h.size, h'.size]
  exact Nat.add_lt_add_iff_right

theorem items_cons (h : s.Abreast q t) (hitems : s.input.items = item :: rest) :
    ∃ next more, t.input.items = next :: more ∧ next.kinds = item.kinds := by
  obtain ⟨xs, hxs, hkinds⟩ := h.items
  rw [hitems] at hkinds
  obtain ⟨next, more, rfl, hnext, -⟩ := List.map_eq_cons_iff.mp hkinds
  exact ⟨next, more ++ q.items, hxs, hnext⟩

theorem current (h : s.Abreast q t) : TokenKind.Alike s.input.current t.input.current := by
  obtain ⟨xs, hxs, hkinds⟩ := h.items
  unfold Input.current
  rw [hxs]
  cases hitems : s.input.items with
  | nil =>
      rw [hitems] at hkinds
      obtain rfl := List.map_eq_nil_iff.mp hkinds
      rcases q.eq_nil_or_class with hbehind | ⟨item, rest, hbehind, hclass⟩
      · rw [hbehind]
        exact .refl _
      · rw [hbehind]
        exact .inr ⟨rfl, hclass⟩
  | cons item rest =>
      rw [hitems] at hkinds
      obtain ⟨next, more, rfl, hnext, -⟩ := List.map_eq_cons_iff.mp hkinds
      exact .inl (congrArg Prod.snd hnext)

theorem current_of_cons (h : s.Abreast q t) (hitems : s.input.items = item :: rest) :
    t.input.current = s.input.current := by
  obtain ⟨next, more, hnext, hkinds⟩ := h.items_cons hitems
  rw [Input.current, Input.current, hitems, hnext]
  exact congrArg Prod.snd hkinds

/-- With nothing behind, the longer run has the same tokens. -/
theorem current_of_nil (h : s.Abreast q t) (hq : q.items = []) :
    t.input.current = s.input.current := by
  cases hitems : s.input.items with
  | nil =>
      obtain ⟨xs, hxs, hkinds⟩ := h.items
      rw [hitems] at hkinds
      rw [hq, List.append_nil, List.map_eq_nil_iff.mp hkinds] at hxs
      rw [Input.current, Input.current, hitems, hxs]
  | cons item rest => exact h.current_of_cons hitems

theorem tail (h : s.Abreast q t) (hitems : s.input.items = item :: rest)
    (hs : s'.input = s.input.tail) (ht : t'.input = t.input.tail)
    (herrors : t'.errors.length = q.errors + s'.errors.length) : s'.Abreast q t' := by
  obtain ⟨xs, hxs, hkinds⟩ := h.items
  rw [hitems] at hkinds
  obtain ⟨next, more, rfl, -, hmore⟩ := List.map_eq_cons_iff.mp hkinds
  have hs' : s'.input.items = rest := by rw [hs, Input.items_tail, hitems, List.tail_cons]
  refine ⟨⟨more, ?_, hs' ▸ hmore⟩, herrors, ?_⟩
  · rw [ht, Input.items_tail, hxs]
    rfl
  · have hclosing := h.closing
    rw [hitems] at hclosing
    rw [hs']
    exact hclosing.imp_right (Or.imp_right TokenKind.Closing.tail)

/-- Nothing was taken, and as many problems were found on both sides. -/
theorem congr (h : s.Abreast q t) (hs : s'.input = s.input) (ht : t'.input = t.input)
    (herrors : t'.errors.length = q.errors + s'.errors.length) : s'.Abreast q t' := by
  refine ⟨?_, herrors, ?_⟩
  · rw [hs, ht]
    exact h.items
  · rw [hs]
    exact h.closing

/-- Behind a token of their own the two states still see what is alike. -/
theorem upcoming (h : s.Abreast q t) (hitems : s.input.items = item :: rest) :
    TokenKind.Alike s.input.upcoming t.input.upcoming := by
  obtain ⟨next, more, hnext, -⟩ := h.items_cons hitems
  have htail : State.Abreast q { s with input := s.input.tail } { t with input := t.input.tail } :=
    h.tail hitems rfl rfl h.errors
  have hupcoming : ∀ (i : Input) (x : Item) (xs : List Item), i.items = x :: xs →
      i.upcoming = i.tail.current := by
    intro i x xs hi
    rw [Input.upcoming, Input.current, Input.items_tail, hi, List.tail_cons]
    cases xs <;> rfl
  rw [hupcoming _ _ _ hitems, hupcoming _ _ _ hnext]
  exact htail.current

theorem distance (h : s.Abreast q t) {stop : TokenClass}
    (hstop : stop.has (.terminal .classWord) = true) :
    Draft.distance stop t.input.items = Draft.distance stop s.input.items := by
  obtain ⟨xs, hxs, hkinds⟩ := h.items
  have hpasses : ∀ items : List Item, Draft.distance stop items =
      ((items.map (·.token.kind)).takeWhile fun k ↦ !stop.has k).length := by
    intro items
    rw [List.takeWhile_map, List.length_map]
    rfl
  have hbehind : ∀ ks : List TokenKind,
      (ks ++ q.items.map (·.token.kind)).takeWhile (fun k ↦ !stop.has k) =
        ks.takeWhile fun k ↦ !stop.has k := by
    intro ks
    induction ks with
    | nil =>
        rcases q.eq_nil_or_class with hbehind | ⟨item, rest, hbehind, hclass⟩
        · rw [hbehind]
          rfl
        · simp [hbehind, hclass, hstop]
    | cons k ks ih =>
        rw [List.cons_append, List.takeWhile_cons, List.takeWhile_cons, ih]
  rw [hpasses, hpasses, hxs, List.map_append, hbehind, Item.map_kind hkinds]

end State.Abreast

namespace Draft

/-- What skipped tokens become: one error, unless they are one already. -/
def wrapped (skipped : Draft) : Draft :=
  match skipped.nodes.toList.dropWhile Node.isExtra with
  | [node] => if node.isError then skipped else skipped.enclose .error true
  | _ => skipped.enclose .error true

theorem skip_of_distance {d : Draft} {stop : TokenClass} {n : Nat}
    (h : distance stop d.state.input.items = n + 1) :
    d.skip stop = d.attach none
      (((blank d.state).tokenNodes (n + 1)).wrapped.reportLast (.unexpected d.current)) := by
  unfold distance at h
  rw [skip, skipUntil, h]
  rfl

theorem literal_of_current {d : Draft} (h : ∀ parts closed, d.current ≠ .string parts closed) :
    d.literal = d := by
  unfold literal
  split
  · rename_i item rest hitems
    rw [current, Input.current, hitems] at h
    split
    · exact (h _ _ ‹_›).elim
    · rfl
  · rfl

/-- Two drafts that are alike but for nodes in front of those of the longer run. -/
structure Abreast (q : Sequel) (front : List Node) (d e : Draft) : Prop where
  state : d.state.Abreast q e.state
  shapes : e.nodes.toList.map Node.shape = front ++ d.nodes.toList.map Node.shape

namespace Abreast

variable {q : Sequel} {front : List Node} {d e d' e' inner inner' : Draft} {item : Item}
  {rest : List Item}

theorem blank {s t : State} (h : s.Abreast q t) : Abreast q [] (blank s) (blank t) :=
  ⟨h, rfl⟩

theorem current (h : Abreast q front d e) : TokenKind.Alike d.current e.current :=
  h.state.current

theorem add (h : Abreast q front d e) {xs ys : List Node}
    (hd : d'.nodes.toList = d.nodes.toList ++ xs) (he : e'.nodes.toList = e.nodes.toList ++ ys)
    (hshapes : ys.map Node.shape = xs.map Node.shape) (hstate : d'.state.Abreast q e'.state) :
    Abreast q front d' e' := by
  refine ⟨hstate, ?_⟩
  rw [hd, he, List.map_append, List.map_append, h.shapes, hshapes, List.append_assoc]

/-- A node for the next token, behind the comments in front of it. -/
theorem pass (h : Abreast q front d e) {next : Item} (hkinds : next.kinds = item.kinds)
    (hitems : d.state.input.items = item :: rest) {node node' : Node}
    (hd : d'.nodes.toList = d.nodes.toList ++ Node.ofComments item.comments ++ [node])
    (he : e'.nodes.toList = e.nodes.toList ++ Node.ofComments next.comments ++ [node'])
    (hshape : node'.shape = node.shape) (hinput : d'.state.input = d.state.input.tail)
    (hinput' : e'.state.input = e.state.input.tail) (count : Nat)
    (herrors : d'.state.errors.length = count + d.state.errors.length)
    (herrors' : e'.state.errors.length = count + e.state.errors.length) :
    Abreast q front d' e' := by
  refine h.add (hd.trans (List.append_assoc _ _ _)) (he.trans (List.append_assoc _ _ _)) ?_ ?_
  · have hcomments := Node.shapes_ofComments (congrArg Prod.fst hkinds)
    rw [List.map_append, List.map_append, hcomments, List.map_singleton, List.map_singleton, hshape]
  · refine h.state.tail hitems hinput hinput' ?_
    rw [herrors', herrors, h.state.errors]
    omega

theorem leaf (h : Abreast q front d e) (hitems : d.state.input.items = item :: rest)
    (field : Option Field) (kind : Kind) (faulty : Bool) :
    Abreast q front (d.leaf field kind faulty) (e.leaf field kind faulty) := by
  obtain ⟨next, more, hnext, hkinds⟩ := h.state.items_cons hitems
  refine h.pass hkinds hitems (toList_nodes_leaf d hitems field kind faulty)
    (toList_nodes_leaf e hnext field kind faulty) rfl ?_ ?_ 0 ?_ ?_
  · rw [state_leaf d hitems]
  · rw [state_leaf e hnext]
  · rw [state_leaf d hitems, Nat.zero_add]
  · rw [state_leaf e hnext, Nat.zero_add]

theorem stringLiteral (h : Abreast q front d e) (hitems : d.state.input.items = item :: rest)
    {next : Item} (hkinds : next.kinds = item.kinds) (parts : List BodyPart) (closed : Bool) :
    Abreast q front (d.stringLiteral item parts closed) (e.stringLiteral next parts closed) := by
  obtain ⟨hnodes, hinput, -, herrors⟩ := stringLiteral_eq d item parts closed
  obtain ⟨hnodes', hinput', -, herrors'⟩ := stringLiteral_eq e next parts closed
  refine h.pass hkinds hitems hnodes hnodes' (shape_literalNode _ _ _ _) hinput hinput'
    (if closed then 0 else 1) ?_ ?_
  · rw [herrors]
    cases closed <;> simp [Nat.add_comm]
  · rw [herrors']
    cases closed <;> simp [Nat.add_comm]

theorem missing (h : Abreast q front d e) (field : Option Field) (kind : Kind)
    (problem problem' : Problem) :
    Abreast q front (d.missing field kind problem) (e.missing field kind problem') := by
  refine h.add (toList_nodes_missing d field kind problem)
    (toList_nodes_missing e field kind problem') ?_ (h.state.congr rfl rfl ?_)
  · simp [Node.absentAt, Node.shape_mk, Label.shape]
  · exact congrArg (· + 1) h.state.errors

theorem tokenNode (h : Abreast q front d e) (hitems : d.state.input.items = item :: rest) :
    Abreast q front d.tokenNode e.tokenNode := by
  obtain ⟨next, more, hnext, hkinds⟩ := h.state.items_cons hitems
  have hkind : next.token.kind = item.token.kind := congrArg Prod.snd hkinds
  rcases tokenNode_cases d hitems with ⟨parts, closed, hparts, heq⟩ | ⟨faulty, hd, heq, hfaulty⟩
  · rw [heq, tokenNode_of_string e hnext (hkind.trans hparts)]
    exact h.stringLiteral hitems hkinds parts closed
  · obtain ⟨faulty', heq', hfaulty'⟩ := tokenNode_of_not_string e hnext (hkind ▸ hd)
    have hsame : faulty' = faulty := by
      rw [hkind] at hfaulty'
      exact Bool.eq_iff_iff.mpr (hfaulty'.trans hfaulty.symm)
    rw [heq, heq', hkind, hsame]
    exact h.leaf hitems none item.token.kind.leafKind faulty

theorem tokenNodes (h : Abreast q front d e) {n : Nat} (hn : n ≤ d.state.input.items.length) :
    Abreast q front (d.tokenNodes n) (e.tokenNodes n) := by
  induction n generalizing d e with
  | zero => exact h
  | succ n ih =>
      cases hitems : d.state.input.items with
      | nil => simp [hitems] at hn
      | cons item rest =>
          obtain ⟨-, -, -, -, -, hinput, -⟩ := tokenNode_eq d hitems
          refine ih (h.tokenNode hitems) ?_
          rw [hitems] at hn
          rw [hinput, Input.items_tail, hitems]
          exact Nat.le_of_succ_le_succ hn

theorem enclose (h : Abreast q front d e) (hfront : ∀ n ∈ front, n.isExtra = true) (kind : Kind)
    (faulty : Bool) : Abreast q front (d.enclose kind faulty) (e.enclose kind faulty) := by
  have hchildren : (e.nodes.toList.dropWhile Node.isExtra).map Node.shape =
      (d.nodes.toList.dropWhile Node.isExtra).map Node.shape := by
    rw [← Node.dropWhile_isExtra_map_shape, ← Node.dropWhile_isExtra_map_shape, h.shapes,
      List.dropWhile_append_of_pos hfront]
  have hbefore : (e.nodes.toList.takeWhile Node.isExtra).map Node.shape =
      front ++ (d.nodes.toList.takeWhile Node.isExtra).map Node.shape := by
    rw [← Node.takeWhile_isExtra_map_shape, ← Node.takeWhile_isExtra_map_shape, h.shapes,
      List.takeWhile_append_of_pos hfront]
  have hnode : (e.enclosure kind faulty).shape = (d.enclosure kind faulty).shape := by
    rw [enclosure, enclosure, Node.shape_mk, Node.shape_mk, hchildren,
      ← Node.any_isFaulty_map_shape, hchildren, Node.any_isFaulty_map_shape]
    rfl
  refine ⟨h.state.congr rfl rfl h.state.errors, ?_⟩
  rw [toList_nodes_enclose, toList_nodes_enclose, List.map_append, List.map_append, hbefore,
    List.map_singleton, List.map_singleton, hnode, List.append_assoc]

theorem attach (h : Abreast q front d e) (hinner : Abreast q [] inner inner')
    (field : Option Field) : Abreast q front (d.attach field inner) (e.attach field inner') := by
  refine h.add (toList_nodes_attach d inner field) (toList_nodes_attach e inner' field) ?_
    hinner.state
  rw [Node.map_shape_assign, hinner.shapes, Node.map_shape_assign, List.nil_append]

/-- A part behind comments that one side has passed, put behind what that side has read. -/
theorem attach_front (h : Abreast q front inner inner') (hfront : ∀ n ∈ front, n.isExtra = true)
    (s : State) (e : Draft) : Abreast q (e.nodes.toList.map Node.shape ++ front)
      ((Draft.blank s).attach none inner) (e.attach none inner') := by
  have hsame : front.map (Node.assign none) = front.map id :=
    List.map_congr_left fun n hn ↦ Node.assign_of_isExtra (hfront n hn)
  rw [List.map_id] at hsame
  refine ⟨h.state, ?_⟩
  rw [toList_nodes_attach, toList_nodes_attach, List.map_append, Node.map_shape_assign, h.shapes,
    List.map_append, hsame, toList_nodes_blank, List.nil_append, Node.map_shape_assign,
    List.append_assoc]

theorem reportLast (h : Abreast q front d e) (problem problem' : Problem) :
    Abreast q front (d.reportLast problem) (e.reportLast problem') :=
  ⟨h.state.congr rfl rfl (congrArg (· + 1) h.state.errors), h.shapes⟩

theorem literal (h : Abreast q front d e) : Abreast q front d.literal e.literal := by
  cases hitems : d.state.input.items with
  | nil =>
      have hcurrent : d.current = .ending := by rw [Draft.current, Input.current, hitems]
      have halike := h.current
      rw [hcurrent] at halike
      have hd : d.literal = d := literal_of_current (by simp [hcurrent])
      have he : e.literal = e := by
        refine literal_of_current fun parts closed hstring ↦ ?_
        rw [hstring] at halike
        rcases halike with h | ⟨-, h⟩ <;> cases h
      rw [hd, he]
      exact h
  | cons item rest =>
      obtain ⟨next, more, hnext, hkinds⟩ := h.state.items_cons hitems
      have hkind : next.token.kind = item.token.kind := congrArg Prod.snd hkinds
      simp only [Draft.literal, hitems, hnext, hkind]
      split
      · exact h.stringLiteral hitems hkinds _ _
      · exact h

theorem wrapped (h : Abreast q [] d e) : Abreast q [] d.wrapped e.wrapped := by
  have hrow : (e.nodes.toList.dropWhile Node.isExtra).map Node.shape =
      (d.nodes.toList.dropWhile Node.isExtra).map Node.shape := by
    rw [← Node.dropWhile_isExtra_map_shape, ← Node.dropWhile_isExtra_map_shape, h.shapes]
    rfl
  have henclose := h.enclose (by simp) .error true
  unfold Draft.wrapped
  split
  · rename_i node hnode
    rw [hnode, List.map_singleton] at hrow
    obtain ⟨node', hnode', hshape⟩ := List.map_eq_singleton_iff.mp hrow
    have herror : node'.isError = node.isError := by
      rw [← Node.isError_shape node', hshape, Node.isError_shape]
    simp only [hnode', herror]
    split
    · exact h
    · exact henclose
  · rename_i hnot
    split
    · rename_i node' hnode'
      rw [hnode', List.map_singleton] at hrow
      obtain ⟨node, hnode, -⟩ := List.map_eq_singleton_iff.mp hrow.symm
      exact (hnot node hnode).elim
    · exact henclose

theorem skip (h : Abreast q front d e) {stop : TokenClass}
    (hstop : stop.has (.terminal .classWord) = true) :
    Abreast q front (d.skip stop) (e.skip stop) := by
  have hdistance := h.state.distance hstop
  cases hn : distance stop d.state.input.items with
  | zero => rwa [skip_of_distance_eq_zero hn, skip_of_distance_eq_zero (hdistance.trans hn)]
  | succ n =>
      have hle : n + 1 ≤ d.state.input.items.length := hn ▸ distance_le stop _
      have htokens := (blank h.state).tokenNodes hle
      rw [skip_of_distance hn, skip_of_distance (hdistance.trans hn)]
      exact h.attach (htokens.wrapped.reportLast _ _) none

theorem expect (h : Abreast q front d e) {t : Terminal} (ht : t ≠ .classWord) :
    Abreast q front (d.expect t) (e.expect t) := by
  have hskip : Abreast q front (d.skip (.either (.only t) .synchronizing))
      (e.skip (.either (.only t) .synchronizing)) := h.skip (Bool.or_true _)
  have hcurrent : ((e.skip (.either (.only t) .synchronizing)).current = .terminal t) =
      ((d.skip (.either (.only t) .synchronizing)).current = .terminal t) :=
    hskip.current.congr (f := fun k ↦ k = .terminal t) (by simp [ht.symm])
  simp only [Draft.expect, hcurrent]
  split
  · obtain ⟨item, rest, hitems, -⟩ := items_of_current ‹_› (by simp)
    exact hskip.leaf hitems none (.terminal t) false
  · exact hskip.missing none (.terminal t) _ _

theorem word (h : Abreast q front d e) (field : Option Field) (slot : Slot) :
    Abreast q front (d.word field slot) (e.word field slot) := by
  have haccepts : slot.accepts? e.current = slot.accepts? d.current :=
    h.current.congr (by cases slot <;> rfl)
  simp only [Draft.word, haccepts]
  split
  · rename_i kind hkind
    have hne : d.current ≠ .ending := by
      intro hending
      rw [hending] at hkind
      cases slot <;> cases hkind
    obtain ⟨item, rest, hitems, -⟩ := items_of_current rfl hne
    exact h.leaf hitems field kind false
  · exact h.missing field slot.defaultKind _ _

theorem take (h : Abreast q front d e) (hitems : d.state.input.items = item :: rest)
    (field : Option Field) : Abreast q front (d.take field) (e.take field) := by
  have hcurrent : e.current = d.current := h.state.current_of_cons hitems
  rw [Draft.take, Draft.take, hcurrent]
  exact h.leaf hitems field d.current.leafKind false

theorem absent (h : Abreast q front d e) : Abreast q front d.absent e.absent :=
  h.missing none .identifier _ _

end Abreast

end Draft

end CoolTree
