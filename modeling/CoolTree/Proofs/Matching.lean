import CoolTree.Proofs.Bare
import CoolTree.Proofs.Lockstep

/-!
# Runs that match

Two runs match if they see tokens of the same outlines and have nodes that are the same without
comments. If the tokens themselves are the same, the nodes also have the same places, and the same
errors are found. Comments never make a difference, since a draft does not end in one and only the
last comment of a source can lack its end.
-/

namespace CoolTree

/-- What is compared of a token. -/
def Token.seen (placed : Bool) (t : Token) : Token :=
  if placed then t else ⟨[], .origin, t.kind.outline, []⟩

theorem Token.outline_of_seen {placed : Bool} {t u : Token}
    (h : u.seen placed = t.seen placed) : u.kind.outline = t.kind.outline := by
  cases placed with
  | true => rw [show u = t from h]
  | false => exact congrArg Token.kind h

theorem Token.eq_of_seen {placed : Bool} {t u : Token} (h : u.seen placed = t.seen placed)
    (hplaced : placed = true) : u = t := by
  subst hplaced
  exact h

def Item.Closed (item : Item) : Prop :=
  ∀ c ∈ item.comments, c.kind ≠ .blockComment false

/-- States whose next tokens are the same as far as they are compared. -/
structure State.Matches (placed : Bool) (s t : State) : Prop where
  items : t.input.items.map (·.token.seen placed) = s.input.items.map (·.token.seen placed)
  closed : ∀ item ∈ s.input.items, item.Closed
  closed' : ∀ item ∈ t.input.items, item.Closed
  reached : placed = true → t.reached = s.reached
  errors : placed = true → t.errors = s.errors

namespace State.Matches

variable {placed : Bool} {s t s' t' : State} {item : Item} {rest : List Item}

theorem size (h : s.Matches placed t) : t.input.size = s.input.size := by
  have hlength := congrArg List.length h.items
  rwa [List.length_map, List.length_map, ← t.input.size_eq, ← s.input.size_eq] at hlength

theorem outlines (h : s.Matches placed t) :
    t.input.items.map (·.token.kind.outline) = s.input.items.map (·.token.kind.outline) := by
  have hitems := congrArg List.length h.items
  rw [List.length_map, List.length_map] at hitems
  refine List.ext_getElem (by simpa using hitems) fun i hi hi' ↦ ?_
  rw [List.getElem_map, List.getElem_map]
  have heq := List.getElem_of_eq h.items (i := i) (by simpa using hi)
  rw [List.getElem_map, List.getElem_map] at heq
  exact Token.outline_of_seen heq

theorem items_cons (h : s.Matches placed t) (hitems : s.input.items = item :: rest) :
    ∃ next more, t.input.items = next :: more ∧
      next.token.seen placed = item.token.seen placed ∧ item.Closed ∧ next.Closed := by
  have hmap := h.items
  rw [hitems, List.map_cons] at hmap
  obtain ⟨next, more, hnext, htoken, -⟩ := List.map_eq_cons_iff.mp hmap
  exact ⟨next, more, hnext, htoken, h.closed item (hitems ▸ List.mem_cons_self),
    h.closed' next (hnext ▸ List.mem_cons_self)⟩

theorem items_nil (h : s.Matches placed t) (hitems : s.input.items = []) :
    t.input.items = [] := by
  have hmap := h.items
  rwa [hitems, List.map_nil, List.map_eq_nil_iff] at hmap

theorem current (h : s.Matches placed t) :
    t.input.current.outline = s.input.current.outline := by
  cases hitems : s.input.items with
  | nil => rw [Input.current, Input.current, hitems, h.items_nil hitems]
  | cons item rest =>
      obtain ⟨next, more, hnext, htoken, -⟩ := h.items_cons hitems
      rw [Input.current, Input.current, hitems, hnext]
      exact Token.outline_of_seen htoken

theorem current_eq (h : s.Matches placed t) (hplaced : placed = true) :
    t.input.current = s.input.current := by
  cases hitems : s.input.items with
  | nil => rw [Input.current, Input.current, hitems, h.items_nil hitems]
  | cons item rest =>
      obtain ⟨next, more, hnext, htoken, -⟩ := h.items_cons hitems
      rw [Input.current, Input.current, hitems, hnext]
      exact congrArg Token.kind (Token.eq_of_seen htoken hplaced)

/-- Behind a token of each. -/
theorem tail (h : s.Matches placed t) (hs : s'.input = s.input.tail)
    (ht : t'.input = t.input.tail) (hreached : placed = true → t'.reached = s'.reached)
    (herrors : placed = true → t'.errors = s'.errors) : s'.Matches placed t' := by
  refine ⟨?_, ?_, ?_, hreached, herrors⟩
  · rw [hs, ht, Input.items_tail, Input.items_tail, List.map_tail, List.map_tail, h.items]
  · rw [hs, Input.items_tail]
    exact fun item hitem ↦ h.closed item (List.mem_of_mem_tail hitem)
  · rw [ht, Input.items_tail]
    exact fun item hitem ↦ h.closed' item (List.mem_of_mem_tail hitem)

theorem upcoming (h : s.Matches placed t) :
    t.input.upcoming.outline = s.input.upcoming.outline := by
  have htail : State.Matches placed { s with input := s.input.tail }
      { t with input := t.input.tail } := h.tail rfl rfl h.reached h.errors
  have hupcoming : ∀ i : Input, i.upcoming = i.tail.current := by
    intro i
    rw [Input.upcoming, Input.current, Input.items_tail]
    rcases i.items with _ | ⟨x, _ | ⟨y, xs⟩⟩ <;> rfl
  rw [hupcoming, hupcoming]
  exact htail.current

theorem distance (h : s.Matches placed t) (stop : TokenClass) :
    Draft.distance stop t.input.items = Draft.distance stop s.input.items := by
  have hpasses : ∀ items : List Item, Draft.distance stop items =
      ((items.map (·.token.kind.outline)).takeWhile fun k ↦ !stop.has k).length := by
    intro items
    rw [List.takeWhile_map, List.length_map]
    simp only [Function.comp_def, TokenClass.has_outline]
    rfl
  rw [hpasses, hpasses, h.outlines]

theorem overrun (h : s.Matches placed t) :
    CoolTree.overrun 0 t.input.items = CoolTree.overrun 0 s.input.items := by
  -- the count of open brackets changes on the way, so the induction is for all counts
  have houtlines : ∀ (xs ys : List Item) (opened : Nat),
      ys.map (·.token.kind.outline) = xs.map (·.token.kind.outline) →
      CoolTree.overrun opened ys = CoolTree.overrun opened xs := by
    intro xs
    induction xs with
    | nil =>
        intro ys opened hys
        rw [List.map_eq_nil_iff.mp hys]
    | cons x xs ih =>
        intro ys opened hys
        obtain ⟨y, ys, rfl, hkind, hrest⟩ := List.map_eq_cons_iff.mp hys
        have hopening : y.token.kind.isOpening = x.token.kind.isOpening :=
          TokenKind.congr_outline hkind fun k ↦ by cases k <;> rfl
        have hclosing : y.token.kind.isClosing = x.token.kind.isClosing :=
          TokenKind.congr_outline hkind fun k ↦ by cases k <;> rfl
        have hstop : y.token.kind.isSynchronizing = x.token.kind.isSynchronizing :=
          TokenKind.congr_outline hkind TokenKind.isSynchronizing_outline
        simp only [Draft.overrun_cons, hopening, hclosing, hstop, ih ys _ hrest]
  exact houtlines _ _ 0 h.outlines

end State.Matches

namespace Node

/-- A node around rows that are the same without comments. -/
theorem seen_whole {placed : Bool} {ns ns' : List Node} (htidy : Tidy ns) (htidy' : Tidy ns')
    (h : seenAll placed ns' = seenAll placed ns) {p r : Position} (hp : placed = true → r = p)
    (kind : Kind) (faulty : Bool) :
    seen placed (mk ⟨kind, Span.over r (ns'.dropWhile isExtra), none, false, false,
        faulty || (ns'.dropWhile isExtra).any isFaulty⟩ (ns'.dropWhile isExtra)) =
      seen placed (mk ⟨kind, Span.over p (ns.dropWhile isExtra), none, false, false,
        faulty || (ns.dropWhile isExtra).any isFaulty⟩ (ns.dropWhile isExtra)) := by
  rw [seen_mk, seen_mk, seenAll_dropWhile, seenAll_dropWhile, h,
    htidy.any_isFaulty_dropWhile placed, htidy'.any_isFaulty_dropWhile placed, h]
  cases placed with
  | false => rfl
  | true =>
      have hspan : Span.over r (ns'.dropWhile isExtra) = Span.over p (ns.dropWhile isExtra) := by
        rw [htidy'.over_dropWhile, htidy.over_dropWhile, ← Span.over_map span_seen,
          ← Span.over_map span_seen p (ns.filter _), hp rfl]
        exact congrArg (Span.over p) h
      rw [hspan]

theorem seen_ofPieces {placed : Bool} {pieces pieces' : List (Kind × List Char)}
    (hkinds : pieces'.map Prod.fst = pieces.map Prod.fst) {p r : Position}
    (hplaced : placed = true → pieces' = pieces ∧ r = p) :
    seenAll placed (ofPieces r pieces') = seenAll placed (ofPieces p pieces) := by
  induction pieces generalizing pieces' p r with
  | nil => rw [List.map_eq_nil_iff.mp hkinds]; rfl
  | cons piece pieces ih =>
      obtain ⟨piece', pieces', rfl, hkind, hrest⟩ := List.map_eq_cons_iff.mp hkinds
      have hbehind := ih hrest (p := p.after piece.2) (r := r.after piece'.2)
        (fun h ↦ by obtain ⟨heq, rfl⟩ := hplaced h; cases heq; exact ⟨rfl, rfl⟩)
      have hfirst :
          seen placed (mk ⟨piece'.1, ⟨r, r.after piece'.2⟩, none, false, false, false⟩ []) =
            seen placed (mk ⟨piece.1, ⟨p, p.after piece.2⟩, none, false, false, false⟩ []) := by
        rw [seen_mk, seen_mk, hkind]
        cases placed with
        | false => rfl
        | true =>
            obtain ⟨heq, rfl⟩ := hplaced rfl
            cases heq
            rfl
      exact congrArg₂ List.cons hfirst hbehind

end Node

namespace Draft

theorem seen_literalNode {placed : Bool} {item item' : Item}
    (htoken : placed = true → item'.token = item.token) {parts parts' : List BodyPart}
    (hparts : parts'.map BodyPart.outline = parts.map BodyPart.outline)
    (hplaced : placed = true → parts' = parts) (closed : Bool) :
    (literalNode item' parts' closed).seen placed =
      (literalNode item parts closed).seen placed := by
  have hpieces : (BodyPart.pieces parts' closed).map Prod.fst =
      (BodyPart.pieces parts closed).map Prod.fst := by
    have hfst : ∀ ps : List BodyPart, (ps.map BodyPart.piece).map Prod.fst =
        (ps.map BodyPart.outline).map fun part ↦ part.piece.1 := by
      intro ps
      rw [List.map_map, List.map_map]
      exact List.map_congr_left fun part _ ↦ by cases part <;> rfl
    simp only [BodyPart.pieces, List.map_append, List.map_cons, hfst, hparts]
  have hchildren : Node.seenAll placed (literalChildren item' parts' closed) =
      Node.seenAll placed (literalChildren item parts closed) := by
    rw [literalChildren, literalChildren, Node.seenAll_append, Node.seenAll_append]
    have hread := Node.seen_ofPieces hpieces (p := item.token.start) (r := item'.token.start)
      (fun h ↦ ⟨by rw [hplaced h], by rw [htoken h]⟩)
    rw [hread]
    cases closed with
    | true => rfl
    | false =>
        cases placed with
        | false => rfl
        | true => rw [htoken rfl]
  have hplain : ∀ item parts, ∀ n ∈ literalChildren item parts closed,
      n.isExtra = false := fun _ _ _ hn ↦ not_isExtra_of_mem_literalChildren hn
  have hwhole := Node.seen_whole (.of_not_isExtra (hplain item parts))
    (.of_not_isExtra (hplain item' parts')) hchildren (p := item.token.stop)
    (r := item'.token.stop) (fun h ↦ by rw [htoken h]) .stringLiteral false
  rw [Node.dropWhile_of_not_isExtra (hplain item parts),
    Node.dropWhile_of_not_isExtra (hplain item' parts')] at hwhole
  exact hwhole

/-- Drafts whose nodes are the same without comments, and whose states match. -/
structure Matches (placed : Bool) (d e : Draft) : Prop where
  state : d.state.Matches placed e.state
  nodes : Node.seenAll placed e.nodes.toList = Node.seenAll placed d.nodes.toList
  tidy : Node.Tidy d.nodes.toList
  tidy' : Node.Tidy e.nodes.toList

namespace Matches

variable {placed : Bool} {d e d' e' inner inner' : Draft} {item next : Item} {rest more : List Item}

theorem blank {s t : State} (h : s.Matches placed t) : Matches placed (blank s) (blank t) :=
  ⟨h, rfl, .nil, .nil⟩

/-- A node of the next token on each side, behind the comments in front of it. -/
theorem pass (h : Matches placed d e) (hitem : item.Closed) (hnext : next.Closed)
    {node node' : Node} (hextra : node.isExtra = false) (hextra' : node'.isExtra = false)
    (hseen : node'.seen placed = node.seen placed)
    (hd : d'.nodes.toList = d.nodes.toList ++ Node.ofComments item.comments ++ [node])
    (he : e'.nodes.toList = e.nodes.toList ++ Node.ofComments next.comments ++ [node'])
    (hinput : d'.state.input = d.state.input.tail) (hinput' : e'.state.input = e.state.input.tail)
    (hreached : placed = true → e'.state.reached = d'.state.reached)
    (herrors : placed = true → e'.state.errors = d'.state.errors) : Matches placed d' e' := by
  refine ⟨h.state.tail hinput hinput' hreached herrors, ?_, ?_, ?_⟩
  · rw [hd, he]
    simp only [Node.seenAll_append, Node.seenAll_ofComments, Node.seenAll_singleton placed hextra,
      Node.seenAll_singleton placed hextra', h.nodes, hseen]
  · rw [hd]
    exact h.tidy.add (Node.not_isFaulty_of_mem_ofComments hitem) hextra
  · rw [he]
    exact h.tidy'.add (Node.not_isFaulty_of_mem_ofComments hnext) hextra'

theorem leaf (h : Matches placed d e) (field : Option Field) (kind : Kind) (faulty : Bool) :
    Matches placed (d.leaf field kind faulty) (e.leaf field kind faulty) := by
  cases hitems : d.state.input.items with
  | nil => rwa [leaf_of_nil d hitems, leaf_of_nil e (h.state.items_nil hitems)]
  | cons item rest =>
      obtain ⟨next, more, hnext, htoken, hclosed, hclosed'⟩ := h.state.items_cons hitems
      refine h.pass hclosed hclosed' rfl rfl ?_ (toList_nodes_leaf d hitems field kind faulty)
        (toList_nodes_leaf e hnext field kind faulty) ?_ ?_ ?_ ?_
      · rw [Node.seen_mk, Node.seen_mk]
        cases placed with
        | false => rfl
        | true => rw [Token.eq_of_seen htoken rfl]
      · rw [state_leaf d hitems]
      · rw [state_leaf e hnext]
      · intro hplaced
        rw [state_leaf d hitems, state_leaf e hnext, Token.eq_of_seen htoken hplaced]
      · intro hplaced
        rw [state_leaf d hitems, state_leaf e hnext]
        exact h.state.errors hplaced

theorem take (h : Matches placed d e) (field : Option Field) :
    Matches placed (d.take field) (e.take field) := by
  have hkind : e.current.leafKind = d.current.leafKind :=
    TokenKind.congr_outline h.state.current TokenKind.leafKind_outline
  rw [Draft.take, Draft.take, hkind]
  exact h.leaf field _ false

theorem missing (h : Matches placed d e) (field : Option Field) (kind : Kind)
    {problem problem' : Problem} (hproblem : placed = true → problem' = problem) :
    Matches placed (d.missing field kind problem) (e.missing field kind problem') := by
  refine ⟨⟨h.state.items, h.state.closed, h.state.closed', h.state.reached, fun hplaced ↦ ?_⟩,
    ?_, ?_, ?_⟩
  · rw [state_missing, state_missing, h.state.reached hplaced, h.state.errors hplaced,
      hproblem hplaced]
  · rw [toList_nodes_missing, toList_nodes_missing, Node.seenAll_append, Node.seenAll_append,
      h.nodes]
    cases placed with
    | false => rfl
    | true => rw [h.state.reached rfl]
  · rw [toList_nodes_missing]
    exact h.tidy.append (.of_not_isExtra (by simp [Node.absentAt, Node.isExtra]))
  · rw [toList_nodes_missing]
    exact h.tidy'.append (.of_not_isExtra (by simp [Node.absentAt, Node.isExtra]))

theorem stringLiteral (h : Matches placed d e) (hitem : item.Closed) (hnext : next.Closed)
    (htoken : placed = true → next.token = item.token) {parts parts' : List BodyPart}
    (hparts : parts'.map BodyPart.outline = parts.map BodyPart.outline)
    (hplaced : placed = true → parts' = parts) (closed : Bool) :
    Matches placed (d.stringLiteral item parts closed) (e.stringLiteral next parts' closed) := by
  obtain ⟨hnodes, hinput, hreached, herrors⟩ := stringLiteral_eq d item parts closed
  obtain ⟨hnodes', hinput', hreached', herrors'⟩ := stringLiteral_eq e next parts' closed
  refine h.pass hitem hnext rfl rfl ?_ hnodes hnodes' hinput hinput' (fun hp ↦ ?_) fun hp ↦ ?_
  · exact seen_literalNode htoken hparts hplaced closed
  · rw [hreached, hreached', htoken hp]
  · rw [herrors, herrors', htoken hp, h.state.errors hp]

/-- A string literal where both sides have one next. -/
theorem string (h : Matches placed d e) (hitems : d.state.input.items = item :: rest)
    (hnext : e.state.input.items = next :: more) {parts : List BodyPart} {closed : Bool}
    (hkind : item.token.kind = .string parts closed) :
    ∃ parts', next.token.kind = .string parts' closed ∧
      Matches placed (d.stringLiteral item parts closed) (e.stringLiteral next parts' closed) := by
  obtain ⟨next', more', hnext', htoken, hitem, hclosed⟩ := h.state.items_cons hitems
  obtain ⟨rfl, rfl⟩ := List.cons.inj (hnext.symm.trans hnext')
  obtain ⟨parts', hkind', hparts⟩ :=
    TokenKind.outline_string (hkind ▸ Token.outline_of_seen htoken)
  refine ⟨parts', hkind', h.stringLiteral hitem hclosed (Token.eq_of_seen htoken) hparts ?_ closed⟩
  intro hplaced
  rw [Token.eq_of_seen htoken hplaced, hkind] at hkind'
  cases hkind'
  rfl

theorem literal (h : Matches placed d e) : Matches placed d.literal e.literal := by
  cases hitems : d.state.input.items with
  | nil =>
      have hd : d.literal = d := by simp [Draft.literal, hitems]
      have he : e.literal = e := by simp [Draft.literal, h.state.items_nil hitems]
      rwa [hd, he]
  | cons item rest =>
      obtain ⟨next, more, hnext, htoken, -⟩ := h.state.items_cons hitems
      by_cases hstring : ∃ parts closed, item.token.kind = .string parts closed
      · obtain ⟨parts, closed, hkind⟩ := hstring
        obtain ⟨parts', hkind', hboth⟩ := h.string hitems hnext hkind
        simp only [Draft.literal, hitems, hnext, hkind, hkind']
        exact hboth
      · have hd : ∀ parts closed, item.token.kind ≠ .string parts closed :=
          fun parts closed hkind ↦ hstring ⟨parts, closed, hkind⟩
        have he := TokenKind.outline_ne_string (Token.outline_of_seen htoken) hd
        rwa [literal_of_current (by rwa [Draft.current, Input.current, hitems]),
          literal_of_current (by rwa [Draft.current, Input.current, hnext])]

theorem tokenNode (h : Matches placed d e) : Matches placed d.tokenNode e.tokenNode := by
  cases hitems : d.state.input.items with
  | nil => rwa [tokenNode_of_nil d hitems, tokenNode_of_nil e (h.state.items_nil hitems)]
  | cons item rest =>
      obtain ⟨next, more, hnext, htoken, -⟩ := h.state.items_cons hitems
      have houtline := Token.outline_of_seen htoken
      rcases tokenNode_cases d hitems with
        ⟨parts, closed, hkind, heq⟩ | ⟨faulty, hd, heq, hfaulty⟩
      · obtain ⟨parts', hkind', hboth⟩ := h.string hitems hnext hkind
        rwa [heq, tokenNode_of_string e hnext hkind']
      · obtain ⟨faulty', heq', hfaulty'⟩ := tokenNode_of_not_string e hnext
          (TokenKind.outline_ne_string houtline hd)
        have hunknown : (∃ c, next.token.kind = .unknown c) ↔ ∃ c, item.token.kind = .unknown c :=
          iff_of_eq (TokenKind.congr_outline houtline (f := fun k ↦ ∃ c, k = .unknown c)
            fun k ↦ by cases k <;> simp [TokenKind.outline])
        have hsame : faulty' = faulty :=
          Bool.eq_iff_iff.mpr (hfaulty'.trans (hunknown.trans hfaulty.symm))
        have hkind : next.token.kind.leafKind = item.token.kind.leafKind :=
          TokenKind.congr_outline houtline TokenKind.leafKind_outline
        rw [heq, heq', hkind, hsame]
        exact h.leaf none _ faulty

theorem tokenNodes (h : Matches placed d e) (n : Nat) :
    Matches placed (d.tokenNodes n) (e.tokenNodes n) := by
  induction n generalizing d e with
  | zero => exact h
  | succ n ih => exact ih h.tokenNode

theorem enclose (h : Matches placed d e) (kind : Kind) (faulty : Bool) :
    Matches placed (d.enclose kind faulty) (e.enclose kind faulty) := by
  have hnode : (e.enclosure kind faulty).seen placed = (d.enclosure kind faulty).seen placed :=
    Node.seen_whole h.tidy h.tidy' h.nodes h.state.reached kind faulty
  refine ⟨⟨h.state.items, h.state.closed, h.state.closed', h.state.reached, h.state.errors⟩,
    ?_, ?_, ?_⟩
  · rw [toList_nodes_enclose, toList_nodes_enclose, Node.seenAll_append, Node.seenAll_append,
      Node.seenAll_takeWhile, Node.seenAll_takeWhile, Node.seenAll_singleton placed rfl,
      Node.seenAll_singleton placed rfl, hnode]
  · rw [toList_nodes_enclose]
    exact h.tidy.front rfl
  · rw [toList_nodes_enclose]
    exact h.tidy'.front rfl

theorem attach (h : Matches placed d e) (field : Option Field)
    (hinner : Matches placed inner inner') :
    Matches placed (d.attach field inner) (e.attach field inner') := by
  refine ⟨hinner.state, ?_, ?_, ?_⟩
  · rw [toList_nodes_attach, toList_nodes_attach, Node.seenAll_append, Node.seenAll_append,
      Node.seenAll_map_assign, Node.seenAll_map_assign, h.nodes, hinner.nodes]
  · rw [toList_nodes_attach]
    exact h.tidy.append (hinner.tidy.map_assign field)
  · rw [toList_nodes_attach]
    exact h.tidy'.append (hinner.tidy'.map_assign field)

theorem reportLast (h : Matches placed d e) {problem problem' : Problem}
    (hproblem : placed = true → problem' = problem) :
    Matches placed (d.reportLast problem) (e.reportLast problem') := by
  refine ⟨⟨h.state.items, h.state.closed, h.state.closed', h.state.reached, fun hplaced ↦ ?_⟩,
    h.nodes, h.tidy, h.tidy'⟩
  subst hplaced
  have hlast : ∀ {x : Draft}, Node.Tidy x.nodes.toList →
      x.nodes.back?.map Node.span = (Node.seenAll true x.nodes.toList).getLast?.map Node.span := by
    intro x hx
    rw [← Array.getLast?_toList, ← hx.getLast?_filter, Node.seenAll, List.getLast?_map,
      Option.map_map]
    exact congrArg (Option.map · _) (funext fun n ↦ (Node.span_seen n).symm)
  simp only [Draft.reportLast, report, hlast h.tidy, hlast h.tidy', h.nodes, h.state.reached rfl,
    h.state.errors rfl, hproblem rfl]

/-- Skipped tokens become one node on both sides, or they are one error on both. -/
theorem wrapped (h : Matches placed d e) : Matches placed d.wrapped e.wrapped := by
  have hlone : ∀ n, d.nodes.toList.dropWhile Node.isExtra = [n] →
      ∃ n', e.nodes.toList.dropWhile Node.isExtra = [n'] ∧ n'.isError = n.isError := by
    intro n hn
    have hmap := h.nodes
    rw [Node.seenAll, Node.seenAll, h.tidy.dropWhile_eq_singleton_iff.mp hn,
      List.map_singleton] at hmap
    obtain ⟨n', hn', hseen⟩ := List.map_eq_singleton_iff.mp hmap
    refine ⟨n', h.tidy'.dropWhile_eq_singleton_iff.mpr hn', ?_⟩
    rw [← Node.isError_seen placed, hseen, Node.isError_seen]
  have hlone' : ∀ n', e.nodes.toList.dropWhile Node.isExtra = [n'] →
      ∃ n, d.nodes.toList.dropWhile Node.isExtra = [n] := by
    intro n' hn'
    have hmap := h.nodes
    rw [Node.seenAll, Node.seenAll, h.tidy'.dropWhile_eq_singleton_iff.mp hn',
      List.map_singleton] at hmap
    obtain ⟨n, hn, -⟩ := List.map_eq_singleton_iff.mp hmap.symm
    exact ⟨n, h.tidy.dropWhile_eq_singleton_iff.mpr hn⟩
  unfold Draft.wrapped
  split
  · rename_i node hnode
    obtain ⟨node', hnode', herror⟩ := hlone node hnode
    simp only [hnode', herror]
    split
    · exact h
    · exact h.enclose .error true
  · rename_i hnot
    split
    · rename_i node' hnode'
      obtain ⟨node, hnode⟩ := hlone' node' hnode'
      exact (hnot node hnode).elim
    · exact h.enclose .error true

theorem skip (h : Matches placed d e) (stop : TokenClass) :
    Matches placed (d.skip stop) (e.skip stop) := by
  have hdistance := h.state.distance stop
  cases hn : distance stop d.state.input.items with
  | zero => rwa [skip_of_distance_eq_zero hn, skip_of_distance_eq_zero (hdistance.trans hn)]
  | succ n =>
      have htokens := (blank h.state).tokenNodes (n + 1)
      rw [skip_of_distance hn, skip_of_distance (hdistance.trans hn)]
      refine h.attach none (htokens.wrapped.reportLast fun hplaced ↦ ?_)
      exact congrArg Problem.unexpected (h.state.current_eq hplaced)

theorem expect (h : Matches placed d e) (t : Terminal) :
    Matches placed (d.expect t) (e.expect t) := by
  have hskip := h.skip (.either (.only t) .synchronizing)
  have hcurrent : ((e.skip (.either (.only t) .synchronizing)).current = .terminal t) =
      ((d.skip (.either (.only t) .synchronizing)).current = .terminal t) :=
    TokenKind.congr_outline hskip.state.current (f := fun k ↦ k = .terminal t)
      fun k ↦ propext TokenKind.outline_eq_terminal
  simp only [Draft.expect, hcurrent]
  split
  · exact hskip.leaf none _ false
  · exact hskip.missing none _ fun hplaced ↦
      congrArg (Problem.expected _) (hskip.state.current_eq hplaced)

theorem word (h : Matches placed d e) (field : Option Field) (slot : Slot) :
    Matches placed (d.word field slot) (e.word field slot) := by
  have haccepts : slot.accepts? e.current = slot.accepts? d.current :=
    TokenKind.congr_outline h.state.current slot.accepts?_outline
  simp only [Draft.word, haccepts]
  split
  · exact h.leaf field _ false
  · exact h.missing field _ fun hplaced ↦
      congrArg (Problem.expected _) (h.state.current_eq hplaced)

theorem tooDeep {s t : State} (h : s.Matches placed t) :
    Matches placed (tooDeep s) (tooDeep t) := by
  rw [Draft.tooDeep, Draft.tooDeep, h.overrun]
  exact (((blank h).tokenNodes _).enclose .error true).reportLast fun _ ↦ rfl

theorem lockstep (placed : Bool) : Lockstep (Matches placed) where
  restart h := blank h.state
  size h := h.state.size
  current h := h.state.current
  upcoming h := h.state.upcoming
  expect t h := h.expect t
  take field h := h.take field
  word field slot h := h.word field slot
  literal h := h.literal
  skip stop h := h.skip stop
  absent h := h.missing none .identifier fun hplaced ↦
    congrArg (Problem.expected .expression) (h.state.current_eq hplaced)
  tooDeep h := tooDeep h.state
  attach field h hinner := h.attach field hinner
  enclose kind h := h.enclose kind false

end Matches

end Draft

end CoolTree
