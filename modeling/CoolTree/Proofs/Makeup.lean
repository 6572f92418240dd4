import CoolTree.Proofs.Known
import CoolTree.Proofs.Rooted

/-!
# What nodes are made of

Whatever the source, a phrase adds its parts in order: a leaf for each token and each word, which
may stand for a missing one, an expression for each operand, and a construct for each node. Between
them stand errors around tokens that fit nowhere, and comments. `Phrase.Yields` says so without
drafts, with one constructor for each way in which a phrase can go, and `Node.Expression` says it
of expressions: at each level they are climbed to from a first construct, and where no level is left
they are errors around tokens.

Phrases say `take` only where the next token is known to be a certain terminal; `Phrase.signed`
checks this.
-/

namespace CoolTree

/-- Kinds of nodes for tokens, for words, for pieces of strings and for errors. All others are kinds
of constructs. -/
def Kind.isSimple : Kind → Bool
  | typeIdentifier | primitiveType | fieldIdentifier | identifier | selfValue | integerLiteral
  | stringLiteral | stringContent | escapeSequence | inlineComment | blockComment | error
  | terminal _ | quote => true
  | _ => false

theorem Kind.isSimple_leafKind (k : TokenKind) : k.leafKind.isSimple = true := by
  cases k <;> rfl

theorem Slot.isSimple_of_accepts? {slot : Slot} {k : TokenKind} {kind : Kind}
    (h : slot.accepts? k = some kind) : kind.isSimple = true := by
  cases slot <;> cases k <;> cases h <;> rfl

theorem Slot.isSimple_defaultKind (slot : Slot) : slot.defaultKind.isSimple = true := by
  cases slot <;> rfl

theorem Slot.ne_ending_of_accepts? {slot : Slot} {k : TokenKind} {kind : Kind}
    (h : slot.accepts? k = some kind) : k ≠ .ending := by
  rintro rfl
  cases slot <;> cases h

namespace Node

/-- A leaf for a token or a comment that is there. -/
structure TokenLeaf (n : Node) : Prop where
  children : n.children = []
  field : n.field? = none
  missing : n.isMissing = false
  kind : ∃ k : TokenKind, n.kind = k.leafKind

/-- A string literal around its pieces. -/
structure Literal (n : Node) : Prop where
  kind : n.kind = .stringLiteral
  field : n.field? = none
  extra : n.isExtra = false
  pieces : ∀ c ∈ n.children, c.children = [] ∧ c.field? = none ∧ c.kind.isSimple = true

/-- An error around tokens that fit nowhere. -/
structure Stray (n : Node) : Prop where
  kind : n.kind = .error
  field : n.field? = none
  extra : n.isExtra = false
  tokens : ∀ c ∈ n.children, c.TokenLeaf ∨ c.Literal

/-- A part without children in a role. -/
structure Leaf (field : Option Field) (n : Node) : Prop where
  children : n.children = []
  field : n.field? = field
  extra : n.isExtra = false
  simple : n.kind.isSimple = true

/-- A node in a role that is made of some parts and comments between them. -/
structure Around (field : Option Field) (kind : Kind) (ms : List Node) (n : Node) : Prop where
  kind : n.kind = kind
  field : n.field? = field
  extra : n.isExtra = false
  parts : n.parts = ms
  comments : ∀ c ∈ n.children, c.isExtra = true → c.TokenLeaf

end Node

namespace Phrase

/-- Whether a phrase takes tokens only where they are known to be certain terminals. -/
def signed : List Test → Phrase → Bool
  | _, done => true
  | known, take _ next =>
    (known.any fun
      | .within (.only _) => true
      | _ => false) && next.signed (known.filterMap Test.behind?)
  | known, word _ slot next =>
    if slot.takesNames && known.contains (.within .identifier) then
      next.signed (known.filterMap Test.behind?)
    else next.signed []
  | known, node _ _ body next => body.signed known && next.signed []
  | known, choose test yes no next =>
    yes.signed (test.units ++ known) && no.signed (test.failing ++ known) && next.signed []
  | _, loop test body next => body.signed test.units && next.signed []
  | _, expect _ next | _, operand _ _ next | _, skip _ next => next.signed []
  | _, literal _ | _, absent _ => false

/-- The parts a phrase can add if its operands are as `E` says. -/
inductive Yields (E : Node → Prop) : Phrase → List Node → Prop
  | done : Yields E .done []
  | expect {t : Terminal} {next : Phrase} {strays ms : List Node} {n : Node}
      (stray : ∀ m ∈ strays, m.Stray) (leaf : n.Leaf none) (kind : n.kind = .terminal t)
      (more : Yields E next ms) : Yields E (.expect t next) (strays ++ n :: ms)
  | take {field : Option Field} {next : Phrase} {ms : List Node} {n : Node} {t : Terminal}
      (leaf : n.Leaf field) (kind : n.kind = .terminal t) (more : Yields E next ms) :
      Yields E (.take field next) (n :: ms)
  | word {field : Option Field} {slot : Slot} {next : Phrase} {ms : List Node} {n : Node}
      (leaf : n.Leaf field) (more : Yields E next ms) : Yields E (.word field slot next) (n :: ms)
  | operand {field : Option Field} {bound : Bound} {next : Phrase} {ms : List Node} {n : Node}
      (extra : n.isExtra = false) (part : E n) (more : Yields E next ms) :
      Yields E (.operand field bound next) (n.assign field :: ms)
  | node {field : Option Field} {kind : Kind} {body next : Phrase} {inner ms : List Node}
      {n : Node} (around : n.Around field kind inner) (part : Yields E body inner)
      (more : Yields E next ms) : Yields E (.node field kind body next) (n :: ms)
  | yes {test : Test} {yes no next : Phrase} {ms ms' : List Node} (part : Yields E yes ms)
      (more : Yields E next ms') : Yields E (.choose test yes no next) (ms ++ ms')
  | no {test : Test} {yes no next : Phrase} {ms ms' : List Node} (part : Yields E no ms)
      (more : Yields E next ms') : Yields E (.choose test yes no next) (ms ++ ms')
  | again {test : Test} {body next : Phrase} {ms ms' : List Node} (part : Yields E body ms)
      (more : Yields E (.loop test body next) ms') : Yields E (.loop test body next) (ms ++ ms')
  | last {test : Test} {body next : Phrase} {ms : List Node} (more : Yields E next ms) :
      Yields E (.loop test body next) ms
  | skip {stop : TokenClass} {next : Phrase} {strays ms : List Node}
      (stray : ∀ m ∈ strays, m.Stray) (more : Yields E next ms) :
      Yields E (.skip stop next) (strays ++ ms)

end Phrase

/-- The ways in which an expression can go on. -/
def Continuation.all : List Continuation :=
  ⟨.value, .dispatchExpression, .dispatch⟩ ::
    Operator.all.map fun o ↦ ⟨.left, .binaryExpression, .binary o⟩

namespace Node

/-- Expressions on one level, if those inside are as `E` says. -/
inductive Climbs (E : Node → Prop) : Node → Prop
  | leaf {n : Node} (h : n.Leaf none) : Climbs E n
  | literal {n : Node} (h : n.Literal) : Climbs E n
  | stray {n : Node} (h : n.Stray) : Climbs E n
  | construct {known : List Test} {kind : Kind} {body : Phrase} {n : Node} {ms : List Node}
      (mem : (known, kind, body) ∈ Phrase.constructs) (around : n.Around none kind ms)
      (parts : body.Yields E ms) : Climbs E n
  | continued {next : Continuation} {first n : Node} {ms : List Node}
      (mem : next ∈ Continuation.all) (part : Climbs E first) (extra : first.isExtra = false)
      (around : n.Around none next.kind (first.assign (some next.field) :: ms))
      (parts : next.phrase.Yields E ms) : Climbs E n

/-- Expressions with at most so many levels. -/
def Expression : Nat → Node → Prop
  | 0 => Stray
  | depth + 1 => Climbs (Expression depth)

end Node

namespace Node

variable {n : Node} {field : Option Field}

theorem Stray.assign (h : n.Stray) : (n.assign none).Stray where
  kind := (n.kind_assign none).trans h.kind
  field := field_assign h.extra none
  extra := (n.isExtra_assign none).trans h.extra
  tokens := by
    rw [children_assign]
    exact h.tokens

theorem Around.assign {old : Option Field} {kind : Kind} {ms : List Node} (h : n.Around old kind ms)
    (field : Option Field) : (n.assign field).Around field kind ms where
  kind := (n.kind_assign field).trans h.kind
  field := field_assign h.extra field
  extra := (n.isExtra_assign field).trans h.extra
  parts := by rw [Node.parts, children_assign, ← Node.parts, h.parts]
  comments := by
    rw [children_assign]
    exact h.comments

/-- What is below a node is one of its parts or a comment. -/
theorem Around.mem_or_comment {kind : Kind} {ms : List Node} (h : n.Around field kind ms) {c : Node}
    (hc : c ∈ n.children) : c ∈ ms ∨ c.isExtra = true ∧ c.TokenLeaf := by
  cases hextra : c.isExtra with
  | true => exact .inr ⟨rfl, h.comments c hc hextra⟩
  | false =>
      left
      rw [← h.parts]
      exact List.mem_filter.mpr ⟨hc, by rw [hextra]; rfl⟩

theorem tokenLeaf_of_mem_ofComments {cs : List Token} {n : Node}
    (h : n ∈ ofComments cs) : n.TokenLeaf := by
  induction cs with
  | nil => cases h
  | cons c cs ih =>
      rcases List.mem_cons.mp h with rfl | h
      · exact ⟨rfl, rfl, rfl, c.kind, rfl⟩
      · exact ih h

theorem field_of_mem_ofPieces {p : Position} {pieces : List (Kind × List Char)}
    {n : Node} (h : n ∈ ofPieces p pieces) : n.field? = none := by
  induction pieces generalizing p with
  | nil => cases h
  | cons piece pieces ih =>
      rcases List.mem_cons.mp h with rfl | h
      · rfl
      · exact ih h

theorem literal_literalNode (item : Item) (parts : List BodyPart)
    (closed : Bool) : (Draft.literalNode item parts closed).Literal := by
  refine ⟨rfl, rfl, rfl, fun c hc ↦ ?_⟩
  obtain ⟨hchildren, hkind⟩ := Draft.leaf_of_mem_literalChildren hc
  refine ⟨hchildren, ?_, ?_⟩
  · rcases List.mem_append.mp hc with hc | hc
    · exact field_of_mem_ofPieces hc
    · cases closed with
      | true => cases hc
      | false => rw [List.mem_singleton.mp hc]; rfl
  · cases hk : c.kind <;> rw [hk] at hkind <;> first | rfl | cases hkind

end Node

namespace Draft

/-- What a draft holds: some parts and comments. -/
structure Bears (d : Draft) (ns : List Node) : Prop where
  parts : d.nodes.toList.filter (!·.isExtra) = ns
  comments : ∀ c ∈ d.nodes.toList, c.isExtra = true → c.TokenLeaf

namespace Bears

variable {d inner : Draft} {ns ms : List Node}

theorem blank (s : State) : Bears (blank s) [] :=
  ⟨rfl, by simp⟩

theorem not_isExtra (h : Bears d ns) {n : Node} (hn : n ∈ ns) : n.isExtra = false := by
  rw [← h.parts, List.mem_filter] at hn
  simpa using hn.2

/-- A node behind some comments. -/
theorem add (h : Bears d ns) {d' : Draft} {cs : List Token} {n : Node}
    (hnodes : d'.nodes.toList = d.nodes.toList ++ Node.ofComments cs ++ [n])
    (hn : n.isExtra = false) : Bears d' (ns ++ [n]) where
  parts := by
    rw [hnodes, List.filter_append, List.filter_append, h.parts, Node.filter_ofComments,
      List.append_nil, List.filter_cons_of_pos (by simp [hn]), List.filter_nil]
  comments := by
    rw [hnodes, List.forall_mem_append, List.forall_mem_append]
    refine ⟨⟨h.comments, fun c hc _ ↦ Node.tokenLeaf_of_mem_ofComments hc⟩, ?_⟩
    simp [hn]

theorem leaf (h : Bears d ns) {item : Item} {rest : List Item}
    (hitems : d.state.input.items = item :: rest) (field : Option Field) {kind : Kind}
    (hkind : kind.isSimple = true) (faulty : Bool) :
    ∃ n : Node, Bears (d.leaf field kind faulty) (ns ++ [n]) ∧ n.Leaf field ∧ n.kind = kind :=
  ⟨_, h.add (toList_nodes_leaf d hitems field kind faulty) rfl, ⟨rfl, rfl, rfl, hkind⟩, rfl⟩

theorem missing (h : Bears d ns) (field : Option Field) {kind : Kind}
    (hkind : kind.isSimple = true) (problem : Problem) :
    ∃ n : Node, Bears (d.missing field kind problem) (ns ++ [n]) ∧ n.Leaf field ∧
      n.kind = kind := by
  have hnodes : (d.missing field kind problem).nodes.toList = d.nodes.toList ++
      Node.ofComments [] ++ [Node.absentAt field kind d.state.reached] := by
    rw [toList_nodes_missing, Node.ofComments, List.append_nil]
  exact ⟨_, h.add hnodes rfl, ⟨rfl, rfl, rfl, hkind⟩, rfl⟩

theorem attach (h : Bears d ns) (hinner : Bears inner ms) (field : Option Field) :
    Bears (d.attach field inner) (ns ++ ms.map (Node.assign field)) where
  parts := by
    rw [toList_nodes_attach, List.filter_append, h.parts, Node.filter_map_assign, hinner.parts]
  comments := by
    rw [toList_nodes_attach, List.forall_mem_append, List.forall_mem_map]
    refine ⟨h.comments, fun c hc hextra ↦ ?_⟩
    rw [Node.isExtra_assign] at hextra
    rw [Node.assign_of_isExtra hextra]
    exact hinner.comments c hc hextra

theorem enclose (h : Bears d ns) (kind : Kind) (faulty : Bool) :
    Bears (d.enclose kind faulty) [d.enclosure kind faulty] ∧
      (d.enclosure kind faulty).Around none kind ns := by
  refine ⟨⟨(Single.enclose d kind faulty).filter_eq, ?_⟩, rfl, rfl, rfl,
    (Node.filter_dropWhile_isExtra _).trans h.parts,
    fun c hc ↦ h.comments c (List.dropWhile_subset _ hc)⟩
  rw [toList_nodes_enclose, List.forall_mem_append]
  refine ⟨fun c hc ↦ h.comments c (List.takeWhile_subset _ hc), fun c hc hextra ↦ ?_⟩
  rw [List.mem_singleton.mp hc] at hextra
  cases hextra

/-- A construct behind what is there. -/
theorem node (h : Bears d ns) (hinner : Bears inner ms) (field : Option Field) (kind : Kind) :
    ∃ n : Node, Bears (d.attach field (inner.enclose kind false)) (ns ++ [n]) ∧
      n.Around field kind ms := by
  obtain ⟨hwhole, haround⟩ := hinner.enclose kind false
  exact ⟨_, h.attach hwhole field, haround.assign field⟩

theorem stringLiteral (h : Bears d ns) (item : Item) (parts : List BodyPart) (closed : Bool) :
    ∃ n : Node, Bears (d.stringLiteral item parts closed) (ns ++ [n]) ∧ n.Literal := by
  obtain ⟨hnodes, -⟩ := stringLiteral_eq d item parts closed
  exact ⟨_, h.add hnodes rfl, Node.literal_literalNode item parts closed⟩

theorem tokenNode (h : Bears d ns) {item : Item} {rest : List Item}
    (hitems : d.state.input.items = item :: rest) :
    ∃ n : Node, Bears d.tokenNode (ns ++ [n]) ∧ (n.TokenLeaf ∨ n.Literal) := by
  rcases tokenNode_cases d hitems with ⟨parts, closed, -, heq⟩ | ⟨faulty, -, heq, -⟩
  · obtain ⟨n, hn, hliteral⟩ := h.stringLiteral item parts closed
    exact ⟨n, heq ▸ hn, .inr hliteral⟩
  · rw [heq]
    exact ⟨_, h.add (toList_nodes_leaf d hitems none _ faulty) rfl,
      .inl ⟨rfl, rfl, rfl, item.token.kind, rfl⟩⟩

theorem tokenNodes (h : Bears d ns) (n : Nat) :
    ∃ ms, Bears (d.tokenNodes n) (ns ++ ms) ∧ ∀ m ∈ ms, m.TokenLeaf ∨ m.Literal := by
  induction n generalizing d ns with
  | zero => exact ⟨[], by rwa [List.append_nil], by simp⟩
  | succ n ih =>
      cases hitems : d.state.input.items with
      | nil =>
          rw [Draft.tokenNodes, tokenNode_of_nil d hitems]
          exact ih h
      | cons item rest =>
          obtain ⟨m, hm, htoken⟩ := h.tokenNode hitems
          obtain ⟨ms, hms, htokens⟩ := ih hm
          refine ⟨m :: ms, ?_, List.forall_mem_cons.mpr ⟨htoken, htokens⟩⟩
          rwa [List.append_assoc] at hms

theorem swallowed {s : State} {n : Nat} {w : Draft} (h : Swallowed s n w) :
    ∃ m : Node, Bears w [m] ∧ m.Stray := by
  obtain ⟨ms, hms, htokens⟩ := (Bears.blank s).tokenNodes n
  rw [List.nil_append] at hms
  cases h with
  | wrapped =>
      obtain ⟨hwhole, haround⟩ := hms.enclose .error true
      refine ⟨_, hwhole, haround.kind, haround.field, haround.extra, fun c hc ↦ ?_⟩
      cases hextra : c.isExtra with
      | true => exact .inl (haround.comments c hc hextra)
      | false =>
          refine htokens c ?_
          rw [← haround.parts]
          exact List.mem_filter.mpr ⟨hc, by rw [hextra]; rfl⟩
  | lone m only error =>
      have hsingle : ((Draft.blank s).tokenNodes n).Single m := only
      obtain rfl : ms = [m] := hms.parts.symm.trans hsingle.filter_eq
      have hkind : m.kind = .error := eq_of_beq error
      rcases htokens m List.mem_cons_self with hleaf | hliteral
      · refine ⟨m, hms, hkind, hleaf.field, hsingle.not_isExtra, fun c hc ↦ ?_⟩
        rw [hleaf.children] at hc
        cases hc
      · cases hliteral.kind.symm.trans hkind

theorem reportLast (h : Bears d ns) (problem : Problem) : Bears (d.reportLast problem) ns :=
  ⟨h.parts, h.comments⟩

theorem tooDeep (s : State) : ∃ n : Node, Bears (tooDeep s) [n] ∧ n.Stray := by
  obtain ⟨n, hn, hstray⟩ := swallowed (s := s) (n := overrun 0 s.input.items) .wrapped
  exact ⟨n, hn.reportLast .tooDeep, hstray⟩

/-- Skipping adds an error, unless it stops where it is. -/
theorem skip_cases (h : Bears d ns) (stop : TokenClass) :
    (distance stop d.state.input.items = 0 ∧ Bears (d.skip stop) ns) ∨
      ∃ m : Node, Bears (d.skip stop) (ns ++ [m]) ∧ m.Stray := by
  rcases skip_eq d stop with ⟨hzero, heq⟩ | ⟨n, w, -, hw, heq⟩
  · exact .inl ⟨hzero, by rwa [heq]⟩
  · obtain ⟨m, hm, hstray⟩ := swallowed hw
    rw [heq]
    exact .inr ⟨m.assign none, h.attach (hm.reportLast _) none, hstray.assign⟩

theorem skip (h : Bears d ns) (stop : TokenClass) :
    ∃ strays, Bears (d.skip stop) (ns ++ strays) ∧ ∀ m ∈ strays, m.Stray := by
  rcases h.skip_cases stop with ⟨-, hd⟩ | ⟨m, hm, hstray⟩
  · exact ⟨[], by rwa [List.append_nil], by simp⟩
  · exact ⟨[m], hm, List.forall_mem_singleton.mpr hstray⟩

theorem expect (h : Bears d ns) (t : Terminal) :
    ∃ strays n, Bears (d.expect t) (ns ++ (strays ++ [n])) ∧ (∀ m ∈ strays, m.Stray) ∧
      n.Leaf none ∧ n.kind = .terminal t := by
  obtain ⟨strays, hskip, hstrays⟩ := h.skip (.either (.only t) .synchronizing)
  have hsimple : (Kind.terminal t).isSimple = true := rfl
  simp only [Draft.expect]
  split
  · rename_i hcurrent
    obtain ⟨item, rest, hitems, -⟩ := items_of_current hcurrent (by rintro ⟨⟩)
    obtain ⟨n, hn, hleaf⟩ := hskip.leaf hitems none hsimple false
    exact ⟨strays, n, by rwa [List.append_assoc] at hn, hstrays, hleaf⟩
  · obtain ⟨n, hn, hleaf⟩ := hskip.missing none hsimple
      (.expected (.terminal t) (d.skip (.either (.only t) .synchronizing)).current)
    exact ⟨strays, n, by rwa [List.append_assoc] at hn, hstrays, hleaf⟩

theorem word (h : Bears d ns) (field : Option Field) (slot : Slot) :
    ∃ n : Node, Bears (d.word field slot) (ns ++ [n]) ∧ n.Leaf field := by
  unfold Draft.word
  split
  · rename_i kind hkind
    obtain ⟨item, rest, hitems, -⟩ := items_of_current rfl (Slot.ne_ending_of_accepts? hkind)
    obtain ⟨n, hn, hleaf, -⟩ := h.leaf hitems field (Slot.isSimple_of_accepts? hkind) false
    exact ⟨n, hn, hleaf⟩
  · obtain ⟨n, hn, hleaf, -⟩ := h.missing field slot.isSimple_defaultKind
      (.expected slot.wanted d.current)
    exact ⟨n, hn, hleaf⟩

theorem take (h : Bears d ns) {k : TokenKind} (hcurrent : d.current = k) (hk : k ≠ .ending)
    (field : Option Field) :
    ∃ n : Node, Bears (d.take field) (ns ++ [n]) ∧ n.Leaf field ∧ n.kind = k.leafKind := by
  obtain ⟨item, rest, hitems, -⟩ := items_of_current hcurrent hk
  rw [Draft.take, hcurrent]
  exact h.leaf hitems field (Kind.isSimple_leafKind k) false

end Bears

end Draft

open Draft

variable {v : Levels} {x : Int → State → Draft} {E : Node → Prop}

theorem Input.Knows.exists_terminal {i : Input} {known : List Test} (h : i.Knows known)
    (hany : (known.any fun
      | .within (.only _) => true
      | _ => false) = true) : ∃ t, i.current = .terminal t := by
  obtain ⟨test, htest, hone⟩ := List.any_eq_true.mp hany
  split at hone
  · rename_i t
    exact ⟨t, by simpa [Test.holds, TokenClass.has] using h _ htest⟩
  · cases hone

/-- The rounds of a loop add their parts one behind the other. -/
theorem Phrase.yields_loop {test : Test} {body next : Phrase}
    (hround : ∀ (d : Draft) (ns : List Node), test.holds d.state.input = true → d.Bears ns →
      ∃ ms, (body.run v x d).Bears (ns ++ ms) ∧ body.Yields E ms)
    (hnext : ∀ (d : Draft) (ns : List Node), d.Bears ns →
      ∃ ms, (next.run v x d).Bears (ns ++ ms) ∧ next.Yields E ms)
    (d : Draft) : ∀ ns : List Node, d.Bears ns →
      ∃ ms, (next.run v x (d.repeatWhile test (body.run v x))).Bears (ns ++ ms) ∧
        (Phrase.loop test body next).Yields E ms := by
  fun_induction repeatWhile test (body.run v x) d with
  | case1 d htest _ _ ih =>
      intro ns hd
      obtain ⟨ms, hms, hpart⟩ := hround d ns htest hd
      obtain ⟨ms', hms', hmore⟩ := ih (ns ++ ms) hms
      exact ⟨ms ++ ms', by rwa [List.append_assoc] at hms', .again hpart hmore⟩
  | case2 d htest _ _ =>
      intro ns hd
      obtain ⟨ms, hms, hpart⟩ := hround d ns htest hd
      obtain ⟨ms', hms', hmore⟩ := hnext _ (ns ++ ms) hms
      exact ⟨ms ++ ms', by rwa [List.append_assoc] at hms', .again hpart (.last hmore)⟩
  | case3 d _ =>
      intro ns hd
      obtain ⟨ms, hms, hmore⟩ := hnext d ns hd
      exact ⟨ms, hms, .last hmore⟩

/-- A signed phrase adds its parts to a draft. -/
theorem Phrase.yields_run (hx : ∀ least s, ∃ n, (x least s).Bears [n] ∧ E n) (p : Phrase)
    {known : List Test} (hp : p.signed known = true) {d : Draft}
    (hknown : d.state.input.Knows known) {ns : List Node} (hd : d.Bears ns) :
    ∃ ms, (p.run v x d).Bears (ns ++ ms) ∧ p.Yields E ms := by
  induction p generalizing known d ns with
  | done => exact ⟨[], by rwa [List.append_nil], .done⟩
  | expect t next ih =>
      obtain ⟨strays, n, hn, hstrays, hleaf, hkind⟩ := hd.expect t
      obtain ⟨ms, hms, hmore⟩ := ih hp (Input.knows_nil _) hn
      refine ⟨strays ++ n :: ms, ?_, .expect hstrays hleaf hkind hmore⟩
      rwa [List.append_assoc, List.append_assoc] at hms
  | take field next ih =>
      rw [signed, Bool.and_eq_true] at hp
      obtain ⟨t, ht⟩ := hknown.exists_terminal hp.1
      obtain ⟨item, rest, hitems, -⟩ := items_of_current ht (by rintro ⟨⟩)
      obtain ⟨n, hn, hleaf, hkind⟩ := hd.take ht (by rintro ⟨⟩) field
      obtain ⟨ms, hms, hmore⟩ := ih hp.2 (knows_leaf hitems hknown field _ false) hn
      exact ⟨n :: ms, by rwa [List.append_assoc] at hms, .take hleaf hkind hmore⟩
  | word field slot next ih =>
      obtain ⟨n, hn, hleaf⟩ := hd.word field slot
      have hnext : ∃ ms, (next.run v x (d.word field slot)).Bears (ns ++ [n] ++ ms) ∧
          next.Yields E ms := by
        rw [signed] at hp
        split at hp
        · rename_i hname
          rw [Bool.and_eq_true, List.contains_iff_mem] at hname
          obtain ⟨item, rest, kind, hitems, heq⟩ :=
            word_of_takesNames hname.1 (hknown _ hname.2) (d := d) field
          exact ih hp (heq ▸ knows_leaf hitems hknown field kind false) hn
        · exact ih hp (Input.knows_nil _) hn
      obtain ⟨ms, hms, hmore⟩ := hnext
      exact ⟨n :: ms, by rwa [List.append_assoc] at hms, .word hleaf hmore⟩
  | literal next _ => cases hp
  | operand field bound next ih =>
      obtain ⟨n, hn, hpart⟩ := hx (v.bound bound) d.state
      obtain ⟨ms, hms, hmore⟩ := ih hp (d := d.attach field (x (v.bound bound) d.state))
        (Input.knows_nil _) (hd.attach hn field)
      exact ⟨n.assign field :: ms, by rwa [List.append_assoc] at hms,
        .operand (hn.not_isExtra List.mem_cons_self) hpart hmore⟩
  | node field kind body next ihbody ihnext =>
      rw [signed, Bool.and_eq_true] at hp
      obtain ⟨inner, hinner, hpart⟩ := ihbody hp.1 (d := blank d.state) hknown (.blank d.state)
      obtain ⟨n, hn, haround⟩ := hd.node hinner field kind
      obtain ⟨ms, hms, hmore⟩ := ihnext hp.2 (Input.knows_nil _) hn
      exact ⟨n :: ms, by rwa [List.append_assoc] at hms, .node haround hpart hmore⟩
  | choose test yes no next ihyes ihno ihnext =>
      simp only [signed, Bool.and_eq_true] at hp
      obtain ⟨⟨hyes, hno⟩, hnext⟩ := hp
      rw [run]
      split
      · rename_i htest
        obtain ⟨ms, hms, hpart⟩ := ihyes hyes ((Input.knows_units htest).append hknown) hd
        obtain ⟨ms', hms', hmore⟩ := ihnext hnext (Input.knows_nil _) hms
        exact ⟨ms ++ ms', by rwa [List.append_assoc] at hms', .yes hpart hmore⟩
      · rename_i htest
        obtain ⟨ms, hms, hpart⟩ := ihno hno ((Input.knows_failing htest).append hknown) hd
        obtain ⟨ms', hms', hmore⟩ := ihnext hnext (Input.knows_nil _) hms
        exact ⟨ms ++ ms', by rwa [List.append_assoc] at hms', .no hpart hmore⟩
  | loop test body next ihbody ihnext =>
      rw [signed, Bool.and_eq_true] at hp
      exact yields_loop (fun d ns htest hd ↦ ihbody hp.1 (Input.knows_units htest) hd)
        (fun d ns hd ↦ ihnext hp.2 (Input.knows_nil _) hd) d ns hd
  | skip stop next ih =>
      obtain ⟨strays, hskip, hstrays⟩ := hd.skip stop
      obtain ⟨ms, hms, hmore⟩ := ih hp (Input.knows_nil _) hskip
      exact ⟨strays ++ ms, by rwa [List.append_assoc] at hms, .skip hstrays hmore⟩
  | absent next _ => cases hp

theorem Phrase.signed_file : file.signed [] = true := by
  decide

namespace Draft

/-- A first construct of an expression. -/
theorem bears_opens (hx : ∀ least s, ∃ n, (x least s).Bears [n] ∧ E n) {s : State} {p : Phrase}
    (h : Phrase.Opens s.input p) : ∃ n, (p.run v x (blank s)).Bears [n] ∧ n.Climbs E := by
  have hblank : (blank s).Bears [] := .blank s
  cases h with
  | construct knows mem =>
      have hall : ∀ entry ∈ Phrase.constructs, entry.2.2.signed entry.1 = true := by decide
      obtain ⟨ms, hms, hparts⟩ := Phrase.yields_run (v := v) hx _ (hall _ mem) (d := blank s)
        knows hblank
      obtain ⟨n, hn, haround⟩ := hblank.node hms none _
      exact ⟨n, hn, .construct mem haround hparts⟩
  | name _ =>
      obtain ⟨n, hn, hleaf⟩ := hblank.word none .identifier
      exact ⟨n, hn, .leaf hleaf⟩
  | plain hplain =>
      obtain ⟨n, hn, hleaf, -⟩ := hblank.take (k := s.input.current) rfl
        (by rcases hplain with h | h <;> rw [h] <;> rintro ⟨⟩) none
      exact ⟨n, hn, .leaf hleaf⟩
  | literal hkind =>
      obtain ⟨item, -, -, -, heq⟩ := literal_of_string (d := blank s) hkind
      obtain ⟨n, hn, hliteral⟩ := hblank.stringLiteral item _ _
      rw [Phrase.run, Phrase.run, heq]
      exact ⟨n, hn, .literal hliteral⟩
  | absent _ =>
      obtain ⟨n, hn, hleaf, -⟩ := hblank.missing none Slot.identifier.isSimple_defaultKind
        (.expected .expression (blank s).current)
      exact ⟨n, hn, .leaf hleaf⟩
  | skip hnot hsync =>
      have hne : (blank s).current ≠ .ending := by
        intro hending
        rw [show s.input.current = .ending from hending] at hsync
        cases hsync
      have hstop : (TokenClass.either .synchronizing .expressionStart).has (blank s).current =
          false := Bool.or_eq_false_iff.mpr ⟨hsync, hnot⟩
      rcases hblank.skip_cases (.either .synchronizing .expressionStart) with
        ⟨hzero, -⟩ | ⟨n, hn, hstray⟩
      · exact (distance_ne_zero hne hstop hzero).elim
      · exact ⟨n, hn, .stray hstray⟩

/-- A larger expression around one that goes on. -/
theorem bears_continued (hx : ∀ least s, ∃ n, (x least s).Bears [n] ∧ E n) {least : Int}
    {d : Draft} {next : Continuation} (h : Continuation.of? v least d.current = some next)
    {first : Node} (hd : d.Bears [first]) (hfirst : first.Climbs E) :
    ∃ n, (continued v x next d).Bears [n] ∧ n.Climbs E := by
  let inside := (blank d.state).attach (some next.field) d
  have hinside : inside.Bears [first.assign (some next.field)] := (Bears.blank d.state).attach hd _
  obtain ⟨known, hknown, hsigned, hmem⟩ : ∃ known, inside.state.input.Knows known ∧
      next.phrase.signed known = true ∧ next ∈ Continuation.all := by
    obtain ⟨-, rfl⟩ | ⟨o, ho, rfl⟩ := Continuation.of?_cases h
    · exact ⟨[], Input.knows_nil _, by decide, List.mem_cons_self⟩
    · exact ⟨_, Input.knows_only ho, rfl,
        List.mem_cons_of_mem _ (List.mem_map_of_mem o.mem_all)⟩
  obtain ⟨ms, hms, hparts⟩ := Phrase.yields_run (v := v) hx next.phrase hsigned hknown hinside
  obtain ⟨hwhole, haround⟩ := hms.enclose next.kind false
  exact ⟨_, hwhole,
    .continued hmem hfirst (hd.not_isExtra List.mem_cons_self) haround hparts⟩

theorem bears_climb (hx : ∀ least s, ∃ n, (x least s).Bears [n] ∧ E n) (least : Int) (d : Draft) :
    ∀ first : Node, d.Bears [first] → first.Climbs E →
      ∃ n, (climb v x least d).Bears [n] ∧ n.Climbs E := by
  fun_induction climb v x least d with
  | case1 d _ => exact fun first hd hfirst ↦ ⟨first, hd, hfirst⟩
  | case2 d next hnext _ _ _ ih =>
      intro first hd hfirst
      obtain ⟨n, hn, hclimbs⟩ := bears_continued hx hnext hd hfirst
      exact ih n hn hclimbs
  | case3 d next hnext _ _ _ => exact fun first hd hfirst ↦ bears_continued hx hnext hd hfirst

/-- What is drafted as an expression is one. -/
theorem bears_expression (v : Levels) (depth : Nat) (least : Int) (s : State) :
    ∃ n, (Draft.expression v depth least s).Bears [n] ∧ n.Expression depth := by
  induction depth generalizing least s with
  | zero => exact Bears.tooDeep s
  | succ depth ih =>
      obtain ⟨first, hfirst, hopens⟩ := bears_opens (v := v) ih (Phrase.opens_opening s.input)
      exact bears_climb ih least _ first hfirst hopens

end Draft

/-- The children of a root are what a file is made of. -/
theorem Tree.exists_yields_parse (l : Language) (config : Config) (source : String) :
    ∃ ms, (parse l config source).root.Around none .sourceFile ms ∧
      Phrase.file.Yields (Node.Expression config.maxDepth) ms := by
  let a := arrangement config source
  have hfile : ∃ ms, (fileDraft l.levels config.maxDepth a).Bears ([] ++ ms) ∧
      Phrase.file.Yields (Node.Expression config.maxDepth) ms :=
    Phrase.yields_run (bears_expression l.levels config.maxDepth) .file Phrase.signed_file
      (Input.knows_nil _) (.blank _)
  obtain ⟨ms, hms, hyields⟩ := hfile
  have hchildren : (parse l config source).root.children =
      (fileDraft l.levels config.maxDepth a).nodes.toList ++
        Node.ofComments a.trailing :=
    children_root_parse l config source
  have hroot := root_parse l config source
  refine ⟨ms, ⟨by rw [hroot]; rfl, by rw [hroot]; rfl, by rw [hroot]; rfl, ?_, ?_⟩, hyields⟩
  · rw [Node.parts, hchildren, List.filter_append, hms.parts, Node.filter_ofComments,
      List.append_nil, List.nil_append]
  · rw [hchildren, List.forall_mem_append]
    exact ⟨hms.comments, fun c hc _ ↦ Node.tokenLeaf_of_mem_ofComments hc⟩

end CoolTree
