import CoolTree.Proofs.Draft

/-!
# What the operations on drafts do

Each operation adds nodes behind those of the draft and moves the state on. The equations here say
which nodes these are and what becomes of the state, so that nothing later looks inside an
operation.
-/

namespace CoolTree

namespace Node

def ofComment (t : Token) : Node :=
  .mk ⟨t.kind.leafKind, t.span, none, true, false, t.kind == .blockComment false⟩ []

def ofComments : List Token → List Node
  | [] => []
  | t :: ts => ofComment t :: ofComments ts

def ofPieces (start : Position) : List (Kind × List Char) → List Node
  | [] => []
  | (kind, text) :: rest =>
    .mk ⟨kind, ⟨start, start.after text⟩, none, false, false, false⟩ [] ::
      ofPieces (start.after text) rest

/-- The node of something that is not there. -/
def absentAt (field : Option Field) (kind : Kind) (p : Position) : Node :=
  .mk ⟨kind, Span.emptyAt p, field, false, true, true⟩ []

@[simp] theorem length_ofComments (ts : List Token) : (ofComments ts).length = ts.length := by
  induction ts with
  | nil => rfl
  | cons t ts ih => exact congrArg (· + 1) ih

theorem isExtra_of_mem_ofComments {ts : List Token} {n : Node}
    (h : n ∈ ofComments ts) : n.isExtra = true := by
  induction ts with
  | nil => simp [ofComments] at h
  | cons t ts ih =>
      rcases List.mem_cons.mp h with rfl | h
      · rfl
      · exact ih h

theorem not_isExtra_of_mem_ofPieces {start : Position}
    {pieces : List (Kind × List Char)} {n : Node} (h : n ∈ ofPieces start pieces) :
    n.isExtra = false := by
  induction pieces generalizing start with
  | nil => simp [ofPieces] at h
  | cons piece pieces ih =>
      rcases List.mem_cons.mp h with rfl | h
      · rfl
      · exact ih h

@[simp] theorem assign_of_isExtra {field : Option Field} {n : Node} (h : n.isExtra = true) :
    n.assign field = n := by
  simp [assign, h]

theorem assign_inRole {n : Node} (h : n.isExtra = false) (f g : Option Field) :
    (n.inRole f).assign g = n.inRole g := by
  have hextra : (n.inRole f).isExtra = false := h
  rw [assign, if_neg (by simp [hextra])]
  rfl

@[simp] theorem children_assign (field : Option Field) (n : Node) :
    (n.assign field).children = n.children := by
  unfold assign
  split <;> rfl

theorem label_assign (field : Option Field) (n : Node) :
    ∃ role, (n.assign field).label = { n.label with field := role } := by
  unfold assign
  split
  · exact ⟨n.label.field, rfl⟩
  · exact ⟨field, rfl⟩

@[simp] theorem kind_assign (field : Option Field) (n : Node) : (n.assign field).kind = n.kind := by
  obtain ⟨role, h⟩ := label_assign field n
  simp [kind, h]

@[simp] theorem span_assign (field : Option Field) (n : Node) : (n.assign field).span = n.span := by
  obtain ⟨role, h⟩ := label_assign field n
  simp [span, h]

@[simp] theorem isExtra_assign (field : Option Field) (n : Node) :
    (n.assign field).isExtra = n.isExtra := by
  obtain ⟨role, h⟩ := label_assign field n
  simp [isExtra, h]

@[simp] theorem isMissing_assign (field : Option Field) (n : Node) :
    (n.assign field).isMissing = n.isMissing := by
  obtain ⟨role, h⟩ := label_assign field n
  simp [isMissing, h]

@[simp] theorem isFaulty_assign (field : Option Field) (n : Node) :
    (n.assign field).isFaulty = n.isFaulty := by
  obtain ⟨role, h⟩ := label_assign field n
  simp [isFaulty, h]

@[simp] theorem isError_assign (field : Option Field) (n : Node) :
    (n.assign field).isError = n.isError := by
  simp [isError]

end Node

namespace Draft

theorem ext_toList {d e : Draft} (hnodes : d.nodes.toList = e.nodes.toList)
    (hstate : d.state = e.state) : d = e := by
  cases d
  cases e
  obtain rfl := Array.toList_inj.mp hnodes
  exact congrArg (Draft.mk _) hstate

variable (d inner : Draft)

@[simp] theorem toList_nodes_blank (s : State) : (blank s).nodes.toList = [] := rfl

@[simp] theorem state_blank (s : State) : (blank s).state = s := rfl

@[simp] theorem toList_nodes_attach (field : Option Field) :
    (d.attach field inner).nodes.toList =
      d.nodes.toList ++ inner.nodes.toList.map (Node.assign field) := by
  simp [attach]

@[simp] theorem state_attach (field : Option Field) : (d.attach field inner).state = inner.state :=
  rfl

@[simp] theorem toList_nodes_addComments (cs : List Token) :
    (d.addComments cs).nodes.toList = d.nodes.toList ++ Node.ofComments cs := by
  unfold addComments
  induction cs generalizing d with
  | nil => simp [Node.ofComments]
  | cons c cs ih =>
      rw [List.foldl_cons, ih]
      simp [addComment, add, Node.ofComments, Node.ofComment]

@[simp] theorem state_addComments (cs : List Token) :
    (d.addComments cs).state = { d.state with made := d.state.made + cs.length } := by
  unfold addComments
  induction cs generalizing d with
  | nil => rfl
  | cons c cs ih =>
      rw [List.foldl_cons, ih]
      simp [addComment, add, Nat.add_comm 1, Nat.add_assoc]

@[simp] theorem toList_nodes_addPieces (start : Position) (pieces : List (Kind × List Char)) :
    (d.addPieces start pieces).nodes.toList =
      d.nodes.toList ++ Node.ofPieces start pieces := by
  induction pieces generalizing d start with
  | nil => simp [addPieces, Node.ofPieces]
  | cons piece pieces ih =>
      rw [addPieces, ih]
      simp [add, Node.ofPieces]

@[simp] theorem state_addPieces (start : Position) (pieces : List (Kind × List Char)) :
    (d.addPieces start pieces).state = { d.state with made := d.state.made + pieces.length } := by
  induction pieces generalizing d start with
  | nil => rfl
  | cons piece pieces ih =>
      rw [addPieces, ih]
      simp [add, Nat.add_comm 1, Nat.add_assoc]

@[simp] theorem toList_nodes_missing (field : Option Field) (kind : Kind) (problem : Problem) :
    (d.missing field kind problem).nodes.toList =
      d.nodes.toList ++ [Node.absentAt field kind d.state.reached] := by
  simp [missing, add, report, Node.absentAt]

@[simp] theorem state_missing (field : Option Field) (kind : Kind) (problem : Problem) :
    (d.missing field kind problem).state =
      { d.state with
        errors := ⟨problem, Span.emptyAt d.state.reached⟩ :: d.state.errors
        made := d.state.made + 1 } := rfl

@[simp] theorem toList_nodes_reportLast (problem : Problem) :
    (d.reportLast problem).nodes = d.nodes := rfl

theorem toList_nodes_leaf {item : Item} {rest : List Item} (h : d.state.input.items = item :: rest)
    (field : Option Field) (kind : Kind) (faulty : Bool) :
    (d.leaf field kind faulty).nodes.toList =
      d.nodes.toList ++ Node.ofComments item.comments ++
        [.mk ⟨kind, item.token.span, field, false, false,
          faulty⟩ []] := by
  simp [leaf, h, add, pass]

theorem state_leaf {item : Item} {rest : List Item} (h : d.state.input.items = item :: rest)
    (field : Option Field) (kind : Kind) (faulty : Bool) :
    (d.leaf field kind faulty).state =
      { d.state with
        input := d.state.input.tail
        reached := item.token.stop
        made := d.state.made + item.comments.length + 1 } := by
  simp [leaf, h, add, pass]

theorem leaf_of_nil (h : d.state.input.items = []) (field : Option Field) (kind : Kind)
    (faulty : Bool) : d.leaf field kind faulty = d := by
  simp [leaf, h]

end Draft

/-- The span over a row of nodes, or nothing at a position if there are none. -/
def Span.over (p : Position) (ns : List Node) : Span :=
  match ns.head?, ns.getLast? with
  | some first, some last => first.span.cover last.span
  | _, _ => .emptyAt p

theorem Span.over_eq_getD (p : Position) (ns : List Node) :
    Span.over p ns = ((ns.map Node.span).head?.bind fun first ↦
      (ns.map Node.span).getLast?.map first.cover).getD (.emptyAt p) := by
  rw [Span.over, List.head?_map, List.getLast?_map]
  cases ns.head? <;> cases ns.getLast? <;> rfl

theorem Span.start_over_cons (p : Position) (n : Node) (ns : List Node) :
    (Span.over p (n :: ns)).start = n.span.start := by
  rw [Span.over, List.head?_cons, List.getLast?_cons]
  rfl

namespace Draft

variable (d : Draft)

def enclosure (kind : Kind) (faulty : Bool) : Node :=
  let children := d.nodes.toList.dropWhile Node.isExtra
  .mk ⟨kind, Span.over d.state.reached children, none, false, false,
    faulty || children.any Node.isFaulty⟩ children

theorem span_enclosure (kind : Kind) (faulty : Bool) :
    (d.enclosure kind faulty).span =
      Span.over d.state.reached (d.nodes.toList.dropWhile Node.isExtra) := rfl

theorem toList_nodes_enclose (kind : Kind) (faulty : Bool) :
    (d.enclose kind faulty).nodes.toList =
      d.nodes.toList.takeWhile Node.isExtra ++ [d.enclosure kind faulty] := by
  simp only [enclose, enclosure, Array.toList_push]
  rfl

@[simp] theorem state_enclose (kind : Kind) (faulty : Bool) :
    (d.enclose kind faulty).state = { d.state with made := d.state.made + 1 } := rfl

@[simp] theorem snd_piece (part : BodyPart) : part.piece.2 = part.text := by
  cases part <;> rfl

theorem flatMap_snd_literalPieces (parts : List BodyPart) (closed : Bool) :
    (BodyPart.pieces parts closed).flatMap Prod.snd =
      '"' :: parts.flatMap BodyPart.text ++ if closed then ['"'] else [] := by
  cases closed <;> simp [BodyPart.pieces, List.flatMap_map]

/-- The children of a string literal: its pieces, and the missing quote if it is not closed. -/
def literalChildren (item : Item) (parts : List BodyPart) (closed : Bool) :
    List Node :=
  Node.ofPieces item.token.start (BodyPart.pieces parts closed) ++
    if closed then []
    else [Node.absentAt none .quote item.token.stop]

def literalNode (item : Item) (parts : List BodyPart) (closed : Bool) : Node :=
  let children := literalChildren item parts closed
  .mk ⟨.stringLiteral, Span.over item.token.stop children, none, false, false,
    children.any Node.isFaulty⟩ children

theorem not_isExtra_of_mem_literalChildren {item : Item} {parts : List BodyPart}
    {closed : Bool} {n : Node} (h : n ∈ literalChildren item parts closed) :
    n.isExtra = false := by
  rcases List.mem_append.mp h with h | h
  · exact Node.not_isExtra_of_mem_ofPieces h
  · cases closed
    · rw [List.mem_singleton.mp h]
      rfl
    · simp at h

theorem start_literalNode (item : Item) (parts : List BodyPart)
    (closed : Bool) : (literalNode item parts closed).span.start = item.token.start :=
  Span.start_over_cons item.token.stop _ _

theorem nodes_enclose_of_not_isExtra {kind : Kind} {faulty : Bool}
    (h : ∀ n ∈ d.nodes.toList, n.isExtra = false) :
    (d.enclose kind faulty).nodes.toList =
      [.mk ⟨kind, Span.over d.state.reached d.nodes.toList, none, false, false,
        faulty || d.nodes.toList.any Node.isFaulty⟩ d.nodes.toList] := by
  rw [toList_nodes_enclose, enclosure]
  cases hnodes : d.nodes.toList with
  | nil => rfl
  | cons n ns =>
      have hn : n.isExtra = false := h n (hnodes ▸ List.mem_cons_self)
      simp [hn]

/-- A string literal is one node behind the comments in front of its token. -/
theorem stringLiteral_eq (item : Item) (parts : List BodyPart) (closed : Bool) :
    (d.stringLiteral item parts closed).nodes.toList =
        d.nodes.toList ++ Node.ofComments item.comments ++ [literalNode item parts closed] ∧
      (d.stringLiteral item parts closed).state.input = d.state.input.tail ∧
      (d.stringLiteral item parts closed).state.reached = item.token.stop ∧
      (d.stringLiteral item parts closed).state.errors =
        (if closed then [] else [⟨.unterminatedString, Span.emptyAt item.token.stop⟩]) ++
          d.state.errors := by
  let before := (d.addComments item.comments).pass item.token
  let read := (blank before.state).addPieces item.token.start (BodyPart.pieces parts closed)
  let inner := if closed then read else read.missing none .quote .unterminatedString
  have hnodes : inner.nodes.toList = literalChildren item parts closed := by
    cases closed <;> simp [inner, read, before, literalChildren, pass]
  have hreached : inner.state.reached = item.token.stop := by
    cases closed <;> simp [inner, read, before, pass]
  have hliteral : d.stringLiteral item parts closed =
      before.attach none (inner.enclose .stringLiteral false) := rfl
  refine ⟨?_, ?_, ?_, ?_⟩
  · have hextra : ∀ n ∈ inner.nodes.toList, n.isExtra = false :=
      fun n hn ↦ not_isExtra_of_mem_literalChildren (hnodes ▸ hn)
    rw [hliteral, toList_nodes_attach, nodes_enclose_of_not_isExtra inner hextra, hnodes, hreached]
    simp [before, pass, literalNode, Node.assign, Node.isExtra]
  · cases closed <;> simp [hliteral, inner, read, before, pass]
  · simp [hliteral, hreached]
  · cases closed <;> simp [hliteral, inner, read, before, pass]

theorem tokenNode_of_string {item : Item} {rest : List Item} {parts : List BodyPart}
    {closed : Bool} (h : d.state.input.items = item :: rest)
    (hkind : item.token.kind = .string parts closed) :
    d.tokenNode = d.stringLiteral item parts closed := by
  simp [tokenNode, h, hkind]

theorem tokenNode_of_not_string {item : Item} {rest : List Item}
    (h : d.state.input.items = item :: rest)
    (hkind : ∀ parts closed, item.token.kind ≠ .string parts closed) :
    ∃ faulty, d.tokenNode = d.leaf none item.token.kind.leafKind faulty ∧
      (faulty = true ↔ ∃ c, item.token.kind = .unknown c) := by
  unfold tokenNode
  rw [h]
  dsimp only
  split
  · rename_i parts closed hk
    exact (hkind parts closed hk).elim
  · rename_i c hk
    exact ⟨true, by rw [hk], by simp [hk]⟩
  · rename_i hunknown
    exact ⟨false, rfl, by simpa using hunknown⟩

/-- A token that makes a node on its own is a string or makes a leaf. -/
theorem tokenNode_cases {item : Item} {rest : List Item} (h : d.state.input.items = item :: rest) :
    (∃ parts closed, item.token.kind = .string parts closed ∧
      d.tokenNode = d.stringLiteral item parts closed) ∨
    ∃ faulty, (∀ parts closed, item.token.kind ≠ .string parts closed) ∧
      d.tokenNode = d.leaf none item.token.kind.leafKind faulty ∧
      (faulty = true ↔ ∃ c, item.token.kind = .unknown c) := by
  by_cases hstring : ∃ parts closed, item.token.kind = .string parts closed
  · obtain ⟨parts, closed, hkind⟩ := hstring
    exact .inl ⟨parts, closed, hkind, tokenNode_of_string d h hkind⟩
  · have hkind : ∀ parts closed, item.token.kind ≠ .string parts closed :=
      fun parts closed hk ↦ hstring ⟨parts, closed, hk⟩
    obtain ⟨faulty, heq, hunknown⟩ := tokenNode_of_not_string d h hkind
    exact .inr ⟨faulty, hkind, heq, hunknown⟩

theorem tokenNode_of_nil (h : d.state.input.items = []) : d.tokenNode = d := by
  simp [tokenNode, h]

/-- A token that makes a node on its own makes one behind the comments in front of it, and nothing
but an unclosed string is reported. -/
theorem tokenNode_eq {item : Item} {rest : List Item} (h : d.state.input.items = item :: rest) :
    ∃ node : Node,
      d.tokenNode.nodes.toList =
        d.nodes.toList ++ Node.ofComments item.comments ++ [node] ∧
      node.isExtra = false ∧ node.isMissing = false ∧ node.span.start = item.token.start ∧
      d.tokenNode.state.input = d.state.input.tail ∧
      d.tokenNode.state.reached = item.token.stop ∧
      ∃ new, d.tokenNode.state.errors = new ++ d.state.errors ∧
        ∀ e ∈ new, e.span = Span.emptyAt item.token.stop := by
  rcases tokenNode_cases d h with ⟨parts, closed, -, heq⟩ | ⟨faulty, -, heq, -⟩
  · rw [heq]
    obtain ⟨hnodes, hinput, hreached, herrors⟩ :=
      stringLiteral_eq d item parts closed
    refine ⟨_, hnodes, rfl, rfl, ?_, hinput, hreached, _, herrors, ?_⟩
    · exact start_literalNode item parts closed
    · cases closed <;> simp
  · rw [heq, toList_nodes_leaf d h, state_leaf d h]
    exact ⟨_, rfl, rfl, rfl, rfl, rfl, rfl, [], rfl, by simp⟩

theorem tokenNodes_append (n : Nat) :
    ∃ more, (d.tokenNodes n).nodes.toList = d.nodes.toList ++ more := by
  induction n generalizing d with
  | zero => exact ⟨[], by simp [tokenNodes]⟩
  | succ n ih =>
      obtain ⟨more, hmore⟩ := ih d.tokenNode
      cases hitems : d.state.input.items with
      | nil =>
          rw [tokenNode_of_nil d hitems] at hmore
          exact ⟨more, by rw [tokenNodes, tokenNode_of_nil d hitems, hmore]⟩
      | cons item rest =>
          obtain ⟨node, hnode, -⟩ := tokenNode_eq d hitems
          exact ⟨_, by rw [tokenNodes, hmore, hnode, List.append_assoc, List.append_assoc]⟩

/-- Drafts in which tokens that fit nowhere are one error. A lone unknown character is an error
already, all else is enclosed. -/
inductive Swallowed (s : State) (n : Nat) : Draft → Prop
  | wrapped : Swallowed s n (((blank s).tokenNodes n).enclose .error true)
  | lone (node : Node)
      (only : ((blank s).tokenNodes n).nodes.toList.dropWhile Node.isExtra = [node])
      (error : node.isError = true) : Swallowed s n ((blank s).tokenNodes n)

namespace Swallowed

variable {s : State} {n : Nat} {w : Draft}

theorem state_eq (h : Swallowed s n w) :
    ∃ made, w.state = { ((blank s).tokenNodes n).state with made := made } := by
  cases h with
  | wrapped => exact ⟨_, rfl⟩
  | lone => exact ⟨_, rfl⟩

/-- Swallowed tokens are one node behind the comments in front of the first of them. -/
theorem nodes_eq (h : Swallowed s (n + 1) w) {item : Item} {rest : List Item}
    (hitems : s.input.items = item :: rest) :
    ∃ last : Node, w.nodes.toList = Node.ofComments item.comments ++ [last] ∧
      last.isExtra = false ∧ last.isMissing = false ∧ last.span.start = item.token.start ∧
      (last.children = ((blank s).tokenNodes (n + 1)).nodes.toList.dropWhile Node.isExtra ∨
        ((blank s).tokenNodes (n + 1)).nodes.toList.dropWhile Node.isExtra = [last]) := by
  obtain ⟨node, hnode, hextra, hmissing, hstart, -⟩ := tokenNode_eq (blank s) hitems
  obtain ⟨more, hmore⟩ := tokenNodes_append (blank s).tokenNode n
  have hnodes : ((blank s).tokenNodes (n + 1)).nodes.toList =
      Node.ofComments item.comments ++ node :: more := by
    rw [tokenNodes, hmore, hnode]
    simp
  have hcomments : ∀ c ∈ Node.ofComments item.comments, c.isExtra = true :=
    fun c hc ↦ Node.isExtra_of_mem_ofComments hc
  have hdrop : ((blank s).tokenNodes (n + 1)).nodes.toList.dropWhile Node.isExtra =
      node :: more := by
    rw [hnodes, List.dropWhile_append_of_pos hcomments]
    simp [hextra]
  cases h with
  | wrapped =>
      refine ⟨((blank s).tokenNodes (n + 1)).enclosure .error true, ?_, rfl, rfl, ?_, .inl rfl⟩
      · rw [toList_nodes_enclose, hnodes, List.takeWhile_append_of_pos hcomments]
        simp [hextra]
      · rw [span_enclosure, hdrop, Span.start_over_cons, hstart]
  | lone only hone _ =>
      obtain ⟨rfl, rfl⟩ := List.cons.inj (hdrop.symm.trans hone)
      exact ⟨_, hnodes, hextra, hmissing, hstart, .inr hdrop⟩

theorem start_last (h : Swallowed s (n + 1) w) {item : Item} {rest : List Item}
    (hitems : s.input.items = item :: rest) :
    ∃ before last, w.nodes.toList = before ++ [last] ∧ last.span.start = item.token.start := by
  obtain ⟨last, hnodes, -, -, hstart, -⟩ := h.nodes_eq hitems
  exact ⟨_, last, hnodes, hstart⟩

theorem nodes_zero (h : Swallowed s 0 w) :
    ∃ last : Node, w.nodes.toList = [] ++ [last] ∧ last.span = Span.emptyAt s.reached := by
  cases h with
  | wrapped => exact ⟨_, toList_nodes_enclose _ _ _, rfl⟩
  | lone node only _ => simp [tokenNodes] at only

end Swallowed

/-- Number of tokens before the first one that belongs to a class. -/
def distance (stop : TokenClass) (items : List Item) : Nat :=
  (items.takeWhile fun item ↦ !stop.has item.token.kind).length

theorem swallowed_wrap (s : State) (n : Nat) : Swallowed s n ((blank s).tokenNodes n).wrap := by
  unfold wrap
  split
  · rename_i node hnode
    by_cases herror : node.isError = true
    · rw [if_pos herror]
      exact .lone node hnode herror
    · rw [if_neg herror]
      exact .wrapped
  · exact .wrapped

/-- Skipping does nothing at a token where it stops; otherwise what it skips is one error. -/
theorem skipUntil_eq (stop : TokenKind → Bool) :
    ((d.state.input.items.takeWhile fun item ↦ !stop item.token.kind).length = 0 ∧
        d.skipUntil stop = d) ∨
      ∃ n w, (d.state.input.items.takeWhile fun item ↦ !stop item.token.kind).length = n + 1 ∧
        Swallowed d.state (n + 1) w ∧
        d.skipUntil stop = d.attach none (w.reportLast (.unexpected d.current)) := by
  unfold skipUntil
  split
  · rename_i h
    exact .inl ⟨h, rfl⟩
  · rename_i n h
    exact .inr ⟨n, _, h, swallowed_wrap d.state (n + 1), rfl⟩

theorem skip_eq (stop : TokenClass) :
    (distance stop d.state.input.items = 0 ∧ d.skip stop = d) ∨
      ∃ n w, distance stop d.state.input.items = n + 1 ∧ Swallowed d.state (n + 1) w ∧
        d.skip stop = d.attach none (w.reportLast (.unexpected d.current)) :=
  skipUntil_eq d stop.has

theorem skip_of_distance_eq_zero {d : Draft} {stop : TokenClass}
    (h : distance stop d.state.input.items = 0) : d.skip stop = d := by
  obtain ⟨-, heq⟩ | ⟨n, -, hn, -, -⟩ := skip_eq d stop
  · exact heq
  · cases hn.symm.trans h

end Draft

end CoolTree
