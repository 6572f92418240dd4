import CoolTree.Proofs.Packaged
import CoolTree.Proofs.Placement
import CoolTree.Proofs.Rooted
import CoolTree.Proofs.Steps

/-!
# Spans nest

Whatever is put into a draft stands behind what is there and in front of what is left to read. A
node around other nodes reaches from the first of them to the last, and neither is a comment, since
comments wait for the token behind them.
-/

namespace CoolTree

namespace Node

/-- A node that stands in a source, with its children in a row inside it. -/
structure Placed (source : List Char) (n : Node) : Prop where
  start : n.span.start.In source
  stop : n.span.stop.In source
  row : Span.Row n.span.start.offset (n.children.map span) n.span.stop.offset

/-- A node that reaches from its first child to its last one, neither of which is a comment. -/
structure Settled (source : List Char) (n : Node) : Prop extends n.Placed source where
  first : ∀ c ∈ n.children.head?, c.span.start = n.span.start ∧ c.kind.isComment = false
  last : ∀ c ∈ n.children.getLast?, c.span.stop = n.span.stop ∧ c.kind.isComment = false
  comment : n.isExtra = n.kind.isComment

variable {source : List Char}

theorem Settled.assign {n : Node} (h : n.Settled source) (field : Option Field) :
    (n.assign field).Settled source where
  start := by
    rw [span_assign]
    exact h.start
  stop := by
    rw [span_assign]
    exact h.stop
  row := by
    rw [span_assign, children_assign]
    exact h.row
  first := by
    rw [span_assign, children_assign]
    exact h.first
  last := by
    rw [span_assign, children_assign]
    exact h.last
  comment := by
    rw [isExtra_assign, kind_assign]
    exact h.comment

theorem settled_leaf {label : Label} (hstart : label.span.start.In source)
    (hstop : label.span.stop.In source) (hle : label.span.start.offset ≤ label.span.stop.offset)
    (hcomment : label.extra = label.kind.isComment) : (mk label []).Settled source :=
  ⟨⟨hstart, hstop, .nil hle⟩, by simp, by simp, hcomment⟩

theorem settled_token {t : Token} (h : t.span.Shows source t.text) {label : Label}
    (hspan : label.span = t.span) (hcomment : label.extra = label.kind.isComment) :
    (mk label []).Settled source := by
  obtain ⟨hstart, hstop⟩ := h.in_source
  refine settled_leaf (hspan ▸ hstart) (hspan ▸ hstop) ?_ hcomment
  rw [hspan]
  exact t.start.offset_le_after t.text

theorem map_span_ofComments (cs : List Token) :
    (ofComments cs).map span = cs.map Token.span := by
  induction cs with
  | nil => rfl
  | cons c cs ih => exact congrArg _ ih

theorem settled_ofComments {cs : List Token} (hcomment : ∀ c ∈ cs, c.kind.isComment = true)
    (h : ∀ c ∈ cs, c.span.Shows source c.text) :
    ∀ n ∈ preorders (ofComments cs), n.Settled source := by
  induction cs with
  | nil => simp [ofComments]
  | cons c cs ih =>
      obtain ⟨hc, hcs⟩ := List.forall_mem_cons.mp h
      obtain ⟨hkind, hkinds⟩ := List.forall_mem_cons.mp hcomment
      rw [ofComments, preorders_cons, List.forall_mem_append]
      refine ⟨?_, ih hkinds hcs⟩
      have hextra : true = c.kind.leafKind.isComment := by
        rw [TokenKind.isComment_leafKind, hkind]
      simpa [ofComment, preorder_mk] using settled_token hc rfl hextra

theorem row_ofPieces (p : Position) (pieces : List (Kind × List Char)) :
    Span.Row p.offset ((ofPieces p pieces).map span)
      (p.after (pieces.flatMap Prod.snd)).offset := by
  induction pieces generalizing p with
  | nil => exact .nil le_rfl
  | cons piece pieces ih =>
      rw [List.flatMap_cons, Position.after_append]
      exact .cons le_rfl (p.offset_le_after piece.2) (ih _)

theorem stop_of_getLast?_ofPieces (p : Position)
    (pieces : List (Kind × List Char)) :
    ∀ n ∈ (ofPieces p pieces).getLast?,
      n.span.stop = p.after (pieces.flatMap Prod.snd) := by
  induction pieces generalizing p with
  | nil => simp [ofPieces]
  | cons piece pieces ih =>
      obtain ⟨kind, text⟩ := piece
      rw [ofPieces, List.flatMap_cons, Position.after_append]
      cases pieces with
      | nil => simp [ofPieces, span]
      | cons next pieces => simpa [ofPieces] using ih (p.after text)

theorem settled_ofPieces {before behind : List Char} {pieces : List (Kind × List Char)}
    (hsource : source = before ++ (pieces.flatMap Prod.snd ++ behind))
    (hkind : ∀ piece ∈ pieces, piece.1.isComment = false) :
    ∀ n ∈ preorders (ofPieces (Position.origin.after before) pieces),
      n.Settled source := by
  induction pieces generalizing before with
  | nil => simp [ofPieces]
  | cons piece pieces ih =>
      obtain ⟨kind, text⟩ := piece
      obtain ⟨hpiece, hpieces⟩ := List.forall_mem_cons.mp hkind
      have hrest : source = (before ++ text) ++ (pieces.flatMap Prod.snd ++ behind) := by
        simpa using hsource
      have htail := ih hrest hpieces
      rw [Position.after_append] at htail
      rw [ofPieces, preorders_cons, List.forall_mem_append]
      refine ⟨?_, htail⟩
      have hleaf : (mk ⟨kind, ⟨Position.origin.after before,
          (Position.origin.after before).after text⟩, none, false, false, false⟩ []).Settled
          source :=
        settled_leaf ⟨before, _, hsource, rfl⟩ ⟨before ++ text, _, hrest, by simp⟩
          (Position.offset_le_after _ text) hpiece.symm
      simpa [preorder_mk] using hleaf

/-- The node around nodes in a row. -/
theorem settled_over {p : Position} (hp : p.In source) {ns : List Node} {a b : Nat}
    (hrow : Span.Row a (ns.map span) b) (hns : ∀ n ∈ preorders ns, n.Settled source)
    (hfirst : ∀ n ∈ ns.head?, n.isExtra = false) (hlast : ∀ n ∈ ns.getLast?, n.isExtra = false)
    {label : Label} (hlabel : label.span = Span.over p ns) (hextra : label.extra = false)
    (hkind : label.kind.isComment = false) : (mk label ns).Settled source := by
  have hmem : ∀ n ∈ ns, n.Settled source := fun n hn ↦
    hns n (mem_preorders.mpr ⟨n, hn, n.self_mem_preorder⟩)
  have hcomment : (mk label ns).isExtra = (mk label ns).kind.isComment := hextra.trans hkind.symm
  rcases Span.over_eq p hrow with ⟨rfl, heq⟩ | ⟨first, last, hhead, hend, heq⟩
  · exact settled_leaf (by rwa [hlabel, heq]) (by rwa [hlabel, heq]) (by rw [hlabel, heq]; rfl)
      hcomment
  · have hspan : (mk label ns).span = ⟨first.span.start, last.span.stop⟩ := hlabel.trans heq
    have hfirstmem := hmem first (List.mem_of_head? hhead)
    have hlastmem := hmem last (List.mem_of_getLast? hend)
    refine ⟨⟨?_, ?_, ?_⟩, fun c hc ↦ ?_, fun c hc ↦ ?_, hcomment⟩
    · rw [hspan]
      exact hfirstmem.start
    · rw [hspan]
      exact hlastmem.stop
    · have htight : Span.Row first.span.start.offset (ns.map span) last.span.stop.offset :=
        hrow.tight (by simp [hhead]) (by simp [hend])
      rwa [hspan]
    · obtain rfl : first = c := by simpa [hhead] using hc
      exact ⟨(congrArg Span.start hspan).symm, hfirstmem.comment ▸ hfirst first hhead⟩
    · obtain rfl : last = c := by simpa [hend] using hc
      exact ⟨(congrArg Span.stop hspan).symm, hlastmem.comment ▸ hlast last hend⟩

end Node

/-- A state whose tokens stand in a source, in a row behind what was read. Some comments may stand
behind the last token. -/
structure State.Placed (source : List Char) (trailing : List Token) (s : State) : Prop where
  reached : s.reached.In source
  row : Span.Row s.reached.offset
    ((s.input.items.flatMap Item.tokens ++ trailing).map Token.span) (Source.byteLength source)
  shows : ∀ t ∈ s.input.items.flatMap Item.tokens, t.span.Shows source t.text
  sound : ∀ item ∈ s.input.items, item.Sound

namespace State.Placed

variable {source : List Char} {trailing : List Token} {s t : State}

theorem congr (h : s.Placed source trailing) (hinput : t.input = s.input)
    (hreached : t.reached = s.reached) : t.Placed source trailing := by
  refine ⟨hreached ▸ h.reached, ?_, hinput ▸ h.shows, hinput ▸ h.sound⟩
  rw [hinput, hreached]
  exact h.row

theorem shows_of_cons (h : s.Placed source trailing) {item : Item} {rest : List Item}
    (hitems : s.input.items = item :: rest) : ∀ t ∈ item.tokens, t.span.Shows source t.text :=
  fun t ht ↦ h.shows t (List.mem_flatMap.mpr ⟨item, hitems ▸ List.mem_cons_self, ht⟩)

/-- Taking an item, one reads a row up to the end of its token. -/
theorem take (h : s.Placed source trailing) {item : Item} {rest : List Item}
    (hitems : s.input.items = item :: rest) (hinput : t.input = s.input.tail)
    (hreached : t.reached = item.token.stop) :
    t.Placed source trailing ∧
      Span.Row s.reached.offset (item.tokens.map Token.span) t.reached.offset := by
  have hrest : t.input.items = rest := by
    rw [hinput, Input.items_tail, hitems, List.tail_cons]
  have hrow := h.row
  rw [hitems, List.flatMap_cons, List.append_assoc, List.map_append] at hrow
  obtain ⟨m, hitem, htail⟩ := hrow.of_append
  have hlast : (item.tokens.map Token.span).getLast? = some item.token.span := by
    simp [Item.tokens]
  have htoken : item.token.span ∈ item.tokens.map Token.span := List.mem_of_getLast? hlast
  have htight : Span.Row s.reached.offset (item.tokens.map Token.span) item.token.stop.offset := by
    cases hfirst : (item.tokens.map Token.span).head? with
    | none => simp [List.head?_eq_none_iff.mp hfirst] at htoken
    | some first =>
        exact (hitem.tight hfirst hlast).weaken (hitem.bounds (List.mem_of_head? hfirst)).1
  refine ⟨⟨?_, ?_, fun u hu ↦ ?_, fun i hi ↦ ?_⟩, hreached ▸ htight⟩
  · rw [hreached]
    exact (h.shows_of_cons hitems item.token (by simp [Item.tokens])).in_source.2
  · rw [hrest, hreached]
    exact htail.weaken (hitem.bounds htoken).2.2
  · refine h.shows u ?_
    rw [hrest] at hu
    rw [hitems, List.flatMap_cons]
    exact List.mem_append_right _ hu
  · exact h.sound i (hitems ▸ List.mem_cons_of_mem _ (hrest ▸ hi))

end State.Placed

namespace Draft

theorem not_isComment_of_mem_literalPieces (parts : List BodyPart) (closed : Bool) :
    ∀ piece ∈ BodyPart.pieces parts closed, piece.1.isComment = false := by
  have hquote : Kind.quote.isComment = false := rfl
  have hparts : ∀ part : BodyPart, part.piece.1.isComment = false := fun part ↦ by
    cases part <;> rfl
  cases closed <;> simp [BodyPart.pieces, hparts, hquote, or_imp, forall_and]

theorem row_literalChildren (item : Item) {parts : List BodyPart} {closed : Bool}
    (hspells : (TokenKind.string parts closed).Spells item.token.text) :
    Span.Row item.token.start.offset ((literalChildren item parts closed).map Node.span)
      item.token.stop.offset := by
  have hrow := Node.row_ofPieces item.token.start (BodyPart.pieces parts closed)
  rw [flatMap_snd_literalPieces, ← hspells.1, ← Token.stop] at hrow
  cases closed with
  | true => simpa [literalChildren] using hrow
  | false =>
      rw [literalChildren, if_neg (by simp), List.map_append]
      exact hrow.append (.singleton le_rfl le_rfl le_rfl)

/-- The last piece of a literal ends where the token does, and there a missing quote stands. -/
theorem stop_of_getLast?_literalChildren (item : Item) {parts : List BodyPart}
    {closed : Bool} (hspells : (TokenKind.string parts closed).Spells item.token.text) :
    ∀ n ∈ (literalChildren item parts closed).getLast?, n.span.stop = item.token.stop := by
  have hlast := Node.stop_of_getLast?_ofPieces item.token.start (BodyPart.pieces parts closed)
  rw [flatMap_snd_literalPieces, ← hspells.1, ← Token.stop] at hlast
  cases closed with
  | true => simpa [literalChildren] using hlast
  | false =>
      rw [literalChildren, if_neg (by simp), List.getLast?_concat]
      rintro n ⟨⟩
      rfl

variable {source : List Char}

theorem settled_literalChildren {item : Item} {parts : List BodyPart} {closed : Bool}
    (hspells : (TokenKind.string parts closed).Spells item.token.text)
    (hshows : item.token.span.Shows source item.token.text) :
    ∀ n ∈ Node.preorders (literalChildren item parts closed), n.Settled source := by
  have hstop := hshows.in_source.2
  obtain ⟨before, behind, hsource, hstart, -⟩ := hshows
  have hpieces : ∀ n ∈ Node.preorders
      (Node.ofPieces item.token.start (BodyPart.pieces parts closed)), n.Settled source := by
    rw [show item.token.start = Position.origin.after before from hstart]
    rw [hspells.1, ← flatMap_snd_literalPieces] at hsource
    exact Node.settled_ofPieces hsource (not_isComment_of_mem_literalPieces parts closed)
  cases closed with
  | true => simpa [literalChildren] using hpieces
  | false =>
      rw [literalChildren, if_neg (by simp), Node.preorders_append, List.forall_mem_append]
      refine ⟨hpieces, ?_⟩
      have habsent : (Node.absentAt none .quote
          item.token.stop).Settled source := Node.settled_leaf hstop hstop le_rfl rfl
      simpa [Node.absentAt, Node.preorder_mk] using habsent

/-- A string literal covers its token. -/
theorem span_literalNode {item : Item} {parts : List BodyPart} {closed : Bool}
    (hspells : (TokenKind.string parts closed).Spells item.token.text) :
    (literalNode item parts closed).span = item.token.span := by
  rcases Span.over_eq item.token.stop (row_literalChildren item hspells) with
    ⟨hnil, -⟩ | ⟨first, last, -, hlast, heq⟩
  · simp [literalChildren, BodyPart.pieces, Node.ofPieces] at hnil
  · have hspan : (literalNode item parts closed).span =
        ⟨first.span.start, last.span.stop⟩ := heq
    have hstart := start_literalNode item parts closed
    rw [hspan] at hstart ⊢
    rw [hstart, stop_of_getLast?_literalChildren item hspells last hlast, Token.span]

theorem settled_literalNode {item : Item} {parts : List BodyPart} {closed : Bool}
    (hspells : (TokenKind.string parts closed).Spells item.token.text)
    (hshows : item.token.span.Shows source item.token.text) :
    ∀ n ∈ (literalNode item parts closed).preorder, n.Settled source := by
  have hsettled := settled_literalChildren hspells hshows
  rw [Node.preorder_eq, List.forall_mem_cons]
  refine ⟨Node.settled_over hshows.in_source.2 (row_literalChildren item hspells) hsettled
    (fun n hn ↦ ?_) (fun n hn ↦ ?_) rfl rfl rfl, hsettled⟩
  · exact not_isExtra_of_mem_literalChildren (List.mem_of_head? hn)
  · exact not_isExtra_of_mem_literalChildren (List.mem_of_getLast? hn)

/-- A draft from a state on: its nodes stand in a row between what was read then and what has been
read now, and no comment stands at its end. -/
structure Placed (source : List Char) (trailing : List Token) (s : State) (d : Draft) : Prop where
  state : d.state.Placed source trailing
  row : Span.Row s.reached.offset (d.nodes.toList.map Node.span) d.state.reached.offset
  last : ∀ n ∈ d.nodes.toList.getLast?, n.isExtra = false
  settled : ∀ n ∈ Node.preorders d.nodes.toList, n.Settled source

namespace Placed

variable {trailing : List Token} {s : State} {d inner : Draft}

theorem blank (hs : s.Placed source trailing) : Placed source trailing s (blank s) :=
  ⟨hs, .nil le_rfl, by simp, by simp⟩

theorem add (h : Placed source trailing s d) {d' : Draft} {more : List Node}
    (hnodes : d'.nodes.toList = d.nodes.toList ++ more) (hstate : d'.state.Placed source trailing)
    (hrow : Span.Row d.state.reached.offset (more.map Node.span) d'.state.reached.offset)
    (hlast : ∀ n ∈ more.getLast?, n.isExtra = false)
    (hsettled : ∀ n ∈ Node.preorders more, n.Settled source) : Placed source trailing s d' where
  state := hstate
  row := by
    rw [hnodes, List.map_append]
    exact h.row.append hrow
  last := by
    rw [hnodes, List.getLast?_append]
    intro n hn
    cases hmore : more.getLast? with
    | none => exact h.last n (by simpa [hmore] using hn)
    | some m =>
        obtain rfl : m = n := by simpa [hmore] using hn
        exact hlast m hmore
  settled := by
    rw [hnodes, Node.preorders_append, List.forall_mem_append]
    exact ⟨h.settled, hsettled⟩

/-- A node for the next token, behind the comments in front of it. -/
theorem pass (h : Placed source trailing s d) {item : Item} {rest : List Item}
    (hitems : d.state.input.items = item :: rest) {d' : Draft} {node : Node}
    (hnodes : d'.nodes.toList = d.nodes.toList ++ Node.ofComments item.comments ++
      [node])
    (hinput : d'.state.input = d.state.input.tail) (hreached : d'.state.reached = item.token.stop)
    (hspan : node.span = item.token.span) (hextra : node.isExtra = false)
    (hnode : ∀ n ∈ node.preorder, n.Settled source) : Placed source trailing s d' := by
  obtain ⟨hstate, hrow⟩ := h.state.take hitems hinput hreached
  have hshows := h.state.shows_of_cons hitems
  refine h.add (hnodes.trans (List.append_assoc _ _ _)) hstate ?_ ?_ ?_
  · simpa [Node.map_span_ofComments, hspan, Item.tokens] using hrow
  · simpa using hextra
  · rw [Node.preorders_append, List.forall_mem_append]
    have hsound := h.state.sound item (hitems ▸ List.mem_cons_self)
    exact ⟨Node.settled_ofComments hsound.isComment
      (fun c hc ↦ hshows c (List.mem_append_left _ hc)), by simpa using hnode⟩

theorem leaf (h : Placed source trailing s d) {item : Item} {rest : List Item}
    (hitems : d.state.input.items = item :: rest) (field : Option Field) {kind : Kind}
    (hkind : kind.isComment = true → item.token.kind.isComment = true) (faulty : Bool) :
    Placed source trailing s (d.leaf field kind faulty) := by
  have hshows := h.state.shows_of_cons hitems item.token (by simp [Item.tokens])
  have hsound := h.state.sound item (hitems ▸ List.mem_cons_self)
  have htoken := TokenKind.IsSignificant.not_comment hsound.isSignificant
  have hcomment : kind.isComment = false := by
    rw [← Bool.not_eq_true]
    intro hk
    rw [hkind hk] at htoken
    cases htoken
  refine h.pass hitems (toList_nodes_leaf d hitems field kind faulty) ?_ ?_ rfl rfl ?_
  · rw [state_leaf d hitems]
  · rw [state_leaf d hitems]
  · simpa [Node.preorder_mk] using Node.settled_token hshows rfl hcomment.symm

theorem literal (h : Placed source trailing s d) {item : Item} {rest : List Item}
    (hitems : d.state.input.items = item :: rest) {parts : List BodyPart} {closed : Bool}
    (hkind : item.token.kind = .string parts closed) :
    Placed source trailing s (d.stringLiteral item parts closed) := by
  obtain ⟨hnodes, hinput, hreached, -⟩ := stringLiteral_eq d item parts closed
  have hspells := hkind ▸ (h.state.sound item (hitems ▸ List.mem_cons_self)).spells
  have hshows := h.state.shows_of_cons hitems item.token (by simp [Item.tokens])
  exact h.pass hitems hnodes hinput hreached (span_literalNode hspells) rfl
    (settled_literalNode hspells hshows)

theorem missing (h : Placed source trailing s d) (field : Option Field) {kind : Kind}
    (hkind : kind.isComment = false) (problem : Problem) :
    Placed source trailing s (d.missing field kind problem) := by
  have hreached := h.state.reached
  refine h.add (toList_nodes_missing d field kind problem) (h.state.congr rfl rfl)
    (.singleton le_rfl le_rfl le_rfl) ?_ ?_
  · rintro n ⟨⟩
    rfl
  · have hsettled : (Node.absentAt field kind d.state.reached).Settled source :=
      Node.settled_leaf hreached hreached le_rfl hkind.symm
    simpa [Node.absentAt, Node.preorder_mk] using hsettled

theorem enclose (h : Placed source trailing s d) {kind : Kind} (hkind : kind.isComment = false)
    (faulty : Bool) : Placed source trailing s (d.enclose kind faulty) := by
  let front := d.nodes.toList.takeWhile Node.isExtra
  let children := d.nodes.toList.dropWhile Node.isExtra
  have hsplit : front ++ children = d.nodes.toList := List.takeWhile_append_dropWhile
  have hrow := h.row
  have hsettled := h.settled
  rw [← hsplit, List.map_append] at hrow
  rw [← hsplit, Node.preorders_append, List.forall_mem_append] at hsettled
  obtain ⟨b, hfront, hchildren⟩ := hrow.of_append
  have hfirst : ∀ n ∈ children.head?, n.isExtra = false := by
    intro n hn
    have hhead := List.head?_dropWhile_not Node.isExtra d.nodes.toList
    rw [show (d.nodes.toList.dropWhile Node.isExtra).head? = some n from hn] at hhead
    exact hhead
  have hlast : ∀ n ∈ children.getLast?, n.isExtra = false := by
    intro n hn
    refine h.last n ?_
    rw [← hsplit, List.getLast?_append, Option.mem_def.mp hn]
    rfl
  have hnode : (d.enclosure kind faulty).Settled source :=
    Node.settled_over h.state.reached hchildren hsettled.2 hfirst hlast rfl rfl hkind
  refine ⟨h.state.congr rfl rfl, ?_, ?_, ?_⟩
  · rw [toList_nodes_enclose, List.map_append, List.map_singleton, span_enclosure]
    exact hfront.append (Span.row_over hchildren hchildren.le le_rfl)
  · rw [toList_nodes_enclose, List.getLast?_concat]
    rintro n ⟨⟩
    rfl
  · rw [toList_nodes_enclose, Node.preorders_append, List.forall_mem_append, Node.preorders_cons,
      Node.preorder_eq, Node.preorders_nil, List.append_nil, List.forall_mem_cons]
    exact ⟨hsettled.1, hnode, hsettled.2⟩

theorem attach (h : Placed source trailing s d) (hinner : Placed source trailing d.state inner)
    (field : Option Field) : Placed source trailing s (d.attach field inner) := by
  refine h.add (toList_nodes_attach d inner field) hinner.state ?_ ?_ ?_
  · have hspan : Node.span ∘ Node.assign field = Node.span := funext (Node.span_assign field)
    rw [List.map_map, hspan]
    exact hinner.row
  · intro n hn
    rw [List.getLast?_map] at hn
    obtain ⟨m, hm, rfl⟩ := Option.map_eq_some_iff.mp hn
    rw [Node.isExtra_assign]
    exact hinner.last m hm
  · exact Node.forall_mem_preorders_map (Node.children_assign field)
      (fun n hn ↦ hn.assign field) hinner.settled

end Placed

end Draft

/-- Every draft of a state whose tokens stand in a source stands there too. -/
theorem Stepwise.placed {source : List Char} {trailing : List Token} {s : State} {d : Draft}
    (h : Stepwise s d) (hs : s.Placed source trailing) : d.Placed source trailing s := by
  induction h with
  | blank s => exact .blank hs
  | leaf _ hitems field hkind faulty ih => exact (ih hs).leaf hitems field hkind faulty
  | literal _ hitems hkind ih => exact (ih hs).literal hitems hkind
  | missing _ field hkind problem ih => exact (ih hs).missing field hkind problem
  | enclose _ hkind faulty ih => exact (ih hs).enclose hkind faulty
  | attach _ field _ ih ihpart => exact (ih hs).attach (ihpart (ih hs).state) field
  | reportLast _ problem ih =>
      exact ⟨(ih hs).state.congr rfl rfl, (ih hs).row, (ih hs).last, (ih hs).settled⟩

namespace Tree

theorem parsedTokens_sublist (config : Config) (tokens : List Token) :
    (parsedTokens config tokens).Sublist tokens := by
  unfold parsedTokens
  split
  · exact .refl tokens
  · exact List.filter_sublist

/-- Parsing starts in front of all tokens of the source. -/
theorem placed_initialState (config : Config) (source : List Char) :
    let a := Arrangement.ofTokens (parsedTokens config (Token.ofSource source))
    (initialState a.items).Placed source a.trailing ∧
      ∀ t ∈ a.trailing, t.span.Shows source t.text := by
  intro a
  have hstream := Token.stream_ofSource source
  have hshows : ∀ t ∈ Token.ofSource source, t.span.Shows source t.text :=
    hstream.shows_of_mem (List.nil_append source).symm rfl
  have hspells : ∀ t ∈ parsedTokens config (Token.ofSource source), t.kind.Spells t.text :=
    fun t ht ↦ hstream.spells t (mem_of_mem_parsedTokens ht)
  have hmem : ∀ t ∈ a.items.flatMap Item.tokens ++ a.trailing, t ∈ Token.ofSource source := by
    intro t ht
    rw [Arrangement.flatMap_tokens] at ht
    exact mem_of_mem_parsedTokens (List.mem_filter.mp ht).1
  refine ⟨⟨.origin source, ?_, fun t ht ↦ ?_, Arrangement.sound hspells⟩, fun t ht ↦ ?_⟩
  · have hrow := hstream.row
    rw [Position.offset_after, Position.origin, Nat.zero_add] at hrow
    refine hrow.sublist (List.Sublist.map _ ?_)
    have hsub := parsedTokens_sublist config (Token.ofSource source)
    exact Arrangement.flatMap_tokens (parsedTokens config _) ▸ List.filter_sublist.trans hsub
  · exact hshows t (hmem t (List.mem_append_left _ ht))
  · exact hshows t (hmem t (List.mem_append_right _ ht))

/-- The root stands in its source, and whatever is below it reaches from child to child. -/
theorem settled_parse (language : Language) (config : Config) (source : String) :
    (parse language config source).root.Placed source.toList ∧
      ∀ n ∈ (parse language config source).nodesBelowRoot, n.Settled source.toList := by
  let a := arrangement config source
  let file := fileDraft language.levels config.maxDepth a
  obtain ⟨hstate, hshows⟩ := placed_initialState config source.toList
  obtain ⟨hend, hrow, -, hsettled⟩ :=
    (built_fileDraft language.levels config.maxDepth a).stepwise.placed hstate
  have hitems : file.state.input.items = [] :=
    items_fileDraft_arrangement language.levels config.maxDepth config source
  have hchildren : (parse language config source).root.children =
      file.nodes.toList ++ Node.ofComments a.trailing := children_root_parse language config source
  have htrailing := hend.row
  rw [show (fileDraft language.levels config.maxDepth a).state.input.items = [] from hitems,
    List.flatMap_nil, List.nil_append, ← Node.map_span_ofComments] at htrailing
  have hspan := span_root_parse language config source
  refine ⟨⟨hspan ▸ .origin _, hspan ▸ .after_source _, ?_⟩, ?_⟩
  · rw [hchildren, List.map_append, hspan, Position.offset_after, Position.origin, Nat.zero_add]
    exact hrow.append htrailing
  · rw [nodesBelowRoot_eq (sound_parse language config source), hchildren, Node.preorders_append,
      List.forall_mem_append]
    exact ⟨hsettled, Node.settled_ofComments (Arrangement.isComment_of_mem _).2 hshows⟩

end Tree

/-- The spans of a tree. The root covers the source. Any node starts and ends between characters of
the source, at the row and the column of these places, and its children stand inside it, one behind
the other. Below the root a node reaches from its first child to its last one, and comments are
neither. -/
theorem Parser.spans_of_parse {p q : Parser} {l : Language} (hlanguage : p.setLanguage l = .ok q)
    (config : Config) (source : String) :
    ∃ tree, (q.setConfig config).parse? source = some tree ∧
      tree.root.span.start.offset = 0 ∧
      tree.root.span.stop.offset = Source.byteLength source.toList ∧
      (∀ c ∈ (Cursor.ofTree tree).descendants,
        c.node.span.start.offset ≤ c.node.span.stop.offset ∧
        c.node.span.start.Marks source.toList ∧ c.node.span.stop.Marks source.toList ∧
        (∀ k ∈ c.children, c.node.span.start.offset ≤ k.node.span.start.offset ∧
          k.node.span.stop.offset ≤ c.node.span.stop.offset) ∧
        c.children.Pairwise fun a b ↦ a.node.span.stop.offset ≤ b.node.span.start.offset) ∧
      ∀ n ∈ tree.nodesBelowRoot, n.isExtra = n.kind.isComment ∧
        (∀ k ∈ n.children.head?, k.span.start = n.span.start ∧ k.kind.isComment = false) ∧
        ∀ k ∈ n.children.getLast?, k.span.stop = n.span.stop ∧ k.kind.isComment = false := by
  let tree := Tree.parse l config source
  obtain ⟨hroot, hbelow⟩ := Tree.settled_parse l config source
  have hspan := Tree.span_root_parse l config source
  have hsound := Tree.sound_parse l config source
  refine ⟨tree, ?_, by rw [hspan]; rfl, ?_, fun c hc ↦ ?_, fun n hn ↦ ?_⟩
  · simp [parse?, setConfig, language_of_setLanguage hlanguage, tree]
  · rw [hspan, Position.offset_after, Position.origin, Nat.zero_add]
  · have hplaced : c.node.Placed source.toList := by
      have hmem : c.node ∈ tree.root :: tree.nodesBelowRoot := by
        rw [Tree.nodesBelowRoot_eq hsound, ← Node.preorder_eq]
        exact Tree.mem_preorder_of_mem_descendants hsound hc
      rcases List.mem_cons.mp hmem with h | h
      · exact h ▸ hroot
      · exact (hbelow _ h).toPlaced
    have hchildren : c.node.children.map Node.span = c.children.map (·.node.span) := by
      have hstands := (Cursor.stands_ofTree hsound).of_mem_descendants hc
      rw [← hstands.map_node_children, List.map_map]
      rfl
    have hrow := hplaced.row
    rw [hchildren] at hrow
    refine ⟨hrow.le, hplaced.start.marks, hplaced.stop.marks, fun k hk ↦ ?_,
      List.pairwise_map.mp hrow.pairwise⟩
    obtain ⟨hlow, -, hhigh⟩ := hrow.bounds (List.mem_map_of_mem hk)
    exact ⟨hlow, hhigh⟩
  · exact ⟨(hbelow n hn).comment, (hbelow n hn).first, (hbelow n hn).last⟩

theorem Parser.spans_of_parse_comment_behind :
    Parser.setLanguage {} .cool = .ok { language := some .cool } ∧
      ∃ tree, (Parser.setConfig { language := some .cool } ⟨1, true⟩).parse?
          "class A \x7b\n x : (**) \x7d; (**)" = some tree ∧
        tree.root.span.stop.offset = 27 ∧
        ∀ n ∈ tree.nodesBelowRoot, ∀ k ∈ n.children.getLast?,
          k.span.stop = n.span.stop ∧ k.kind.isComment = false :=
  have hlanguage := setLanguage_cool {}
  have ⟨tree, hparse, _, hstop, _, hbelow⟩ :=
    spans_of_parse hlanguage ⟨1, true⟩ "class A \x7b\n x : (**) \x7d; (**)"
  ⟨hlanguage, tree, hparse, hstop, fun n hn ↦ (hbelow n hn).2.2⟩

end CoolTree
