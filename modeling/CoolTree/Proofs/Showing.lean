import CoolTree.Proofs.Assembly
import CoolTree.Proofs.Single

/-!
# Parsing with an arena shows the drafts

Each way to add a child to a construct shows what the same does to a draft, and so do phrases, what
goes on with an expression, and expressions of any depth.
-/

namespace CoolTree

open Workspace

namespace Draft

variable (d : Draft)

/-- A node that is added to a draft can be put into a draft of its own first. -/
theorem attach_add (field : Option Field) (kind : Kind) (span : Span) (missing faulty : Bool) :
    d.attach field ((blank d.state).add ⟨kind, span, none, false, missing, faulty⟩) =
      d.add ⟨kind, span, field, false, missing, faulty⟩ :=
  ext_toList (by simp [add, Node.assign, Node.isExtra]) rfl

/-- The next token and the comments in front of it, as a draft of their own. -/
def token (s : State) (item : Item) : Draft :=
  ((blank s).addComments item.comments).pass item.token

theorem toList_nodes_token (s : State) (item : Item) :
    (token s item).nodes.toList = Node.ofComments item.comments := by
  simp [token, pass]

theorem attach_token {item : Item} {rest : List Item} (h : d.state.input.items = item :: rest)
    (field : Option Field) (kind : Kind) (faulty : Bool) :
    d.attach field ((token d.state item).add
        ⟨kind, item.token.span, none, false, false, faulty⟩) = d.leaf field kind faulty := by
  have hcomments : (Node.ofComments item.comments).map (Node.assign field) =
      Node.ofComments item.comments := Node.map_assign_ofComments field item.comments
  refine ext_toList ?_ ?_
  · rw [toList_nodes_leaf d h]
    simp [add, toList_nodes_token, hcomments, Node.assign, Node.isExtra]
  · rw [state_leaf d h]
    simp [add, token, pass]

/-- Comments in front of what is enclosed stay in front of it. -/
theorem toList_nodes_enclose_append {d inner : Draft} {cs : List Node}
    (hcs : ∀ c ∈ cs, c.isExtra = true) (hinner : ∀ n ∈ inner.nodes.toList, n.isExtra = false)
    (hnodes : d.nodes.toList = cs ++ inner.nodes.toList) (hstate : d.state = inner.state)
    (kind : Kind) (faulty : Bool) :
    (d.enclose kind faulty).nodes.toList = cs ++ (inner.enclose kind faulty).nodes.toList := by
  have hsplit : d.nodes.toList.takeWhile Node.isExtra = cs ∧
      d.nodes.toList.dropWhile Node.isExtra = inner.nodes.toList := by
    rw [hnodes, List.takeWhile_append_of_pos hcs, List.dropWhile_append_of_pos hcs]
    cases hlist : inner.nodes.toList with
    | nil => simp
    | cons n ns =>
        have hn : n.isExtra = false := hinner n (hlist ▸ List.mem_cons_self)
        simp [hn]
  rw [toList_nodes_enclose, enclosure, hsplit.1, hsplit.2, hstate,
    nodes_enclose_of_not_isExtra inner hinner]

/-- The quote at the end of a string literal is missing unless the literal is closed. -/
def endLiteral (closed : Bool) (d : Draft) : Draft :=
  if closed then d else d.missing none .quote .unterminatedString

theorem attach_endLiteral (item : Item) (parts : List BodyPart) (closed : Bool) :
    d.attach none ((((token d.state item).addPieces item.token.start
      (BodyPart.pieces parts closed)).endLiteral closed).enclose .stringLiteral false) =
        d.stringLiteral item parts closed := by
  let before := (d.addComments item.comments).pass item.token
  let inner := ((blank before.state).addPieces item.token.start
    (BodyPart.pieces parts closed)).endLiteral closed
  let whole := ((token d.state item).addPieces item.token.start
    (BodyPart.pieces parts closed)).endLiteral closed
  have hstart : (token d.state item).state = before.state := by simp [token, before, pass]
  have hnodes : whole.nodes.toList = Node.ofComments item.comments ++ inner.nodes.toList := by
    cases closed <;> simp [whole, inner, endLiteral, toList_nodes_token, hstart]
  have hstate : whole.state = inner.state := by
    cases closed <;> simp [whole, inner, endLiteral, hstart]
  have hinner : ∀ n ∈ inner.nodes.toList, n.isExtra = false := by
    have hchildren : inner.nodes.toList = literalChildren item parts closed := by
      cases closed <;> simp [inner, endLiteral, before, literalChildren, pass]
    rw [hchildren]
    exact fun n hn ↦ not_isExtra_of_mem_literalChildren hn
  have hliteral : d.stringLiteral item parts closed =
      before.attach none (inner.enclose .stringLiteral false) := rfl
  rw [hliteral]
  refine ext_toList ?_ ?_
  · rw [toList_nodes_attach, toList_nodes_attach, toList_nodes_enclose_append
      (fun c hc ↦ Node.isExtra_of_mem_ofComments hc) hinner hnodes hstate, List.map_append,
      Node.map_assign_ofComments]
    simp [before, pass]
  · rw [state_attach, state_attach, state_enclose, state_enclose]
    exact congrArg (fun s : State ↦ { s with made := s.made + 1 }) hstate

end Draft

theorem Parsing.bind_items {α : Type} (f : List Item → Parsing α) (w : Workspace) :
    (items >>= f) w = f w.input.items w := rfl

/-- Nothing is skipped where there is nothing to skip. -/
theorem Builder.skipUntil_eq_self {b : Builder} {w : Workspace} {stop : TokenKind → Bool}
    (h : (w.input.items.takeWhile fun item ↦ !stop item.token.kind).length = 0) :
    b.skipUntil stop w = (b, w) := by
  show (ite (_ = 0) _ _ : Parsing Builder) w = _
  rw [if_pos h]
  rfl

namespace Workspace

variable {w : Workspace} {rest : List Nat} {b : Builder} {d : Draft} {item : Item}
  {items : List Item}

namespace Shows

/-- A node without children is added. -/
theorem add (h : w.Shows rest b d) {e : Entry} (hchildren : e.children = [])
    (hfields : e.fields = []) (hparent : e.parent = none) (hextra : e.extra = false)
    (field : Option Field) :
    w.Reaches rest (b.push field ⟨w.arena.size, []⟩, { w with arena := w.arena.push e })
      (d.add ⟨e.kind, e.span, field, false, e.missing, e.faulty⟩) := by
  have hpush := h.push (h.blank.alloc hchildren hfields hparent hextra) field
  rwa [Draft.attach_add] at hpush

theorem missing (h : w.Shows rest b d) (field : Option Field) (kind : Kind) (problem : Problem) :
    w.Reaches rest (b.missing field kind problem w) (d.missing field kind problem) := by
  have hreport := h.report problem (Span.emptyAt w.reached)
  have hadd := hreport.2.add (e :=
    { kind := kind, span := Span.emptyAt w.reached, missing := true, faulty := true })
    rfl rfl rfl rfl field
  have hdraft : d.missing field kind problem = (d.report problem (Span.emptyAt w.reached)).add
      ⟨kind, Span.emptyAt w.reached, field, false, true, true⟩ := by
    rw [h.reached]
    rfl
  rw [hdraft]
  exact hadd.of_grows hreport.1

/-- The next token becomes a leaf, with the comments in front of it. -/
theorem alone (h : w.Shows rest b d) (hitems : d.state.input.items = item :: items) (kind : Kind)
    (faulty : Bool) :
    let next := (w.pass item.token).fetch
    w.Yields (rest ++ b.leading ++ b.children.toList) (⟨next.arena.size, w.pending.toList⟩,
        { next with
          arena := next.arena.push
            { kind := kind, span := item.token.span, faulty := faulty } })
      ((Draft.token d.state item).add ⟨kind, item.token.span, none, false, false, faulty⟩) := by
  have htoken := h.blank.consume hitems
  have hadd := htoken.2.add (e := { kind := kind, span := item.token.span, faulty := faulty })
    rfl rfl rfl rfl none
  refine ⟨none, ?_⟩
  simpa [Parcel.alone, Builder.push, Draft.token] using hadd.of_grows htoken.1

theorem leaf (h : w.Shows rest b d) (field : Option Field) (kind : Kind) (faulty : Bool) :
    w.Reaches rest (b.leaf field kind faulty w) (d.leaf field kind faulty) := by
  cases hitems : d.state.input.items with
  | nil =>
      have heq : b.leaf field kind faulty w = (b, w) := by
        rw [Builder.leaf, Parsing.bind_items, h.input, hitems]
        rfl
      rw [heq, Draft.leaf_of_nil d hitems]
      exact h.reaches
  | cons item items =>
      have hpush := h.push (h.alone hitems kind faulty) field
      rw [Draft.attach_token d hitems] at hpush
      have heq : b.leaf field kind faulty w = (b.push field
          ⟨(w.pass item.token).fetch.arena.size, w.pending.toList⟩,
          { (w.pass item.token).fetch with
            arena := (w.pass item.token).fetch.arena.push
              { kind := kind, span := item.token.span, faulty := faulty } }) := by
        rw [Builder.leaf, Parsing.bind_items, h.input, hitems]
        rfl
      rw [heq]
      exact hpush

theorem addPieces (h : w.Shows rest b d) (start : Position) (pieces : List (Kind × List Char)) :
    w.Reaches rest (b.addPieces start pieces w) (d.addPieces start pieces) := by
  induction pieces generalizing start w b d with
  | nil => exact h.reaches
  | cons piece pieces ih =>
      obtain ⟨kind, text⟩ := piece
      have hadd := h.add (e := { kind := kind, span := ⟨start, start.after text⟩ })
        rfl rfl rfl rfl none
      exact hadd.bind fun hadd ↦ ih hadd (start.after text)

theorem stringLiteral (h : w.Shows rest b d) (hitems : d.state.input.items = item :: items)
    (parts : List BodyPart) (closed : Bool) :
    w.Reaches rest (b.stringLiteral item.token parts closed w)
      (d.stringLiteral item parts closed) := by
  have htoken := h.blank.consume hitems
  have hpieces := htoken.bind fun htoken ↦
    htoken.addPieces item.token.start (BodyPart.pieces parts closed)
  rw [← d.attach_endLiteral]
  cases closed with
  | true => exact h.push (hpieces.finish .stringLiteral false) none
  | false =>
      have hmissing := hpieces.bind fun hpieces ↦
        hpieces.missing none .quote .unterminatedString
      exact h.push (hmissing.finish .stringLiteral false) none

/-- A token that is next is taken as the node it makes on its own. -/
theorem tokenNode (h : w.Shows rest b d) : w.Reaches rest (b.tokenNode w) d.tokenNode := by
  cases hitems : d.state.input.items with
  | nil =>
      have heq : b.tokenNode w = (b, w) := by
        rw [Builder.tokenNode, Parsing.bind_items, h.input, hitems]
        rfl
      rw [heq, Draft.tokenNode_of_nil d hitems]
      exact h.reaches
  | cons item items =>
      have heq : b.tokenNode w = b.own item.token w := by
        rw [Builder.tokenNode, Parsing.bind_items, h.input, hitems]
      rw [heq, Draft.tokenNode, hitems, Builder.own]
      dsimp only
      generalize item.token.kind = kind
      cases kind with
      | string parts closed => exact h.stringLiteral hitems parts closed
      | unknown c => exact h.leaf none _ true
      | _ => exact h.leaf none _ false

theorem tokenNodes (h : w.Shows rest b d) (n : Nat) :
    w.Reaches rest (b.tokenNodes n w) (d.tokenNodes n) := by
  induction n generalizing w b d with
  | zero => exact h.reaches
  | succ n ih => exact h.tokenNode.bind ih

theorem literal (h : w.Shows rest b d) : w.Reaches rest (b.literal w) d.literal := by
  cases hitems : d.state.input.items with
  | nil =>
      have heq : b.literal w = (b, w) := by
        rw [Builder.literal, Parsing.bind_items, h.input, hitems]
        rfl
      rw [heq, Draft.literal, hitems]
      exact h.reaches
  | cons item items =>
      have heq : b.literal w = b.quoted item.token w := by
        rw [Builder.literal, Parsing.bind_items, h.input, hitems]
      rw [heq, Draft.literal, hitems, Builder.quoted]
      dsimp only
      generalize item.token.kind = kind
      cases kind with
      | string parts closed => exact h.stringLiteral hitems parts closed
      | _ => exact h.reaches

/-- A builder with one child is the builder for that child alone. -/
theorem eq_alone (h : w.Shows rest b d) {n : Node} (hn : d.Single n) :
    ∃ role, b = b.only.alone role ∧ n = (w.arena.node b.only.id).inRole role := by
  have hnodes : w.arena.nodesIn b.children.toList b.fields.toList = [n] :=
    h.split_nodes.2.symm.trans hn
  have hlength := congrArg List.length hnodes
  rw [Arena.nodesIn, List.length_zipWith, ← h.length_fields, Nat.min_self] at hlength
  obtain ⟨child, hchild⟩ := List.length_eq_one_iff.mp hlength
  obtain ⟨role, hrole⟩ := List.length_eq_one_iff.mp (h.length_fields.symm.trans hlength)
  have hchildren : b.children = #[child] := Array.toList_inj.mp hchild
  have hfields : b.fields = #[role] := Array.toList_inj.mp hrole
  rw [hchild, hrole] at hnodes
  refine ⟨role, ?_, ?_⟩
  · calc
      b = ⟨b.leading, #[child], #[role]⟩ := by rw [← hchildren, ← hfields]
      _ = b.only.alone role := by simp [Builder.only, Parcel.alone, Builder.push, hchildren]
  · rw [Builder.only, hchildren]
    exact (List.singleton_inj.mp hnodes).symm

theorem yields_only (h : w.Shows rest b d) {n : Node} (hn : d.Single n) :
    w.Yields rest (b.only, w) d := by
  obtain ⟨role, heq, -⟩ := h.eq_alone hn
  exact ⟨role, .refl w, heq ▸ h⟩

/-- A lone unknown character is an error node already, all else is enclosed. -/
theorem wrap (h : w.Shows rest b d) : w.Yields rest (b.wrap w) d.wrap := by
  have hlength := congrArg List.length h.split_nodes.2
  rw [Arena.nodesIn, List.length_zipWith, ← h.length_fields, Nat.min_self] at hlength
  unfold Draft.wrap
  split
  case h_1 node hnode =>
    obtain ⟨role, -, hrole⟩ := h.eq_alone hnode
    rw [hnode] at hlength
    obtain ⟨child, hchild⟩ := List.length_eq_one_iff.mp hlength.symm
    have honly : b.only.id = child := by
      rw [Builder.only, Array.toList_inj.mp hchild]
      rfl
    have hlt : child < w.arena.size := h.lt_size (by simp [hchild])
    have hkind : node.isError = ((w.arena.entry child).kind == .error) := by
      rw [hrole, honly, ← w.arena.kind_node hlt]
      rfl
    have heq : b.wrap w =
        if (w.arena.entry child).kind == .error then (b.only, w) else b.finish .error true w := by
      rw [Builder.wrap, hchild]
      show (if (w.arena.entry child).kind == .error then (pure b.only : Parsing Parcel)
        else b.finish .error true) w = _
      split <;> rfl
    rw [heq, hkind]
    split
    · exact h.yields_only hnode
    · exact h.finish .error true
  case h_2 hmany =>
    have heq : b.wrap w = b.finish .error true w := by
      rw [Builder.wrap]
      match hids : b.children.toList with
      | [] => rfl
      | [_] =>
        rw [hids] at hlength
        obtain ⟨node, hnode⟩ := List.length_eq_one_iff.mp hlength
        exact (hmany node hnode).elim
      | _ :: _ :: _ => rfl
    rw [heq]
    exact h.finish .error true

end Shows

/-- A problem is reported at a node that is finished. -/
theorem Yields.reportAt {p : Parcel} {w' : Workspace} (h : w.Yields rest (p, w') d)
    (problem : Problem) :
    w.Yields rest (p, (Parsing.reportAt p.id problem w').2) (d.reportLast problem) := by
  obtain ⟨role, hgrows, hshows⟩ := h
  have hnodes : d.nodes.toList = (p.alone role).leading.map w'.arena.node ++
      [(w'.arena.node p.id).inRole role] := hshows.nodes
  have hlt : p.id < w'.arena.size := hshows.lt_size (by simp [Parcel.alone, Builder.push])
  have hlast : d.nodes.back?.map Node.span = some (w'.arena.entry p.id).span := by
    rw [← Array.getLast?_toList, hnodes, List.getLast?_concat, ← w'.arena.span_node hlt]
    rfl
  have hreport := hshows.report problem (w'.arena.entry p.id).span
  refine ⟨role, ?_⟩
  rw [Draft.reportLast, hlast]
  exact hreport.of_grows hgrows

namespace Shows

theorem current (h : w.Shows rest b d) : w.input.current = d.current := by
  rw [h.input, Draft.current]

/-- Tokens up to one at which to stop are wrapped in an error. -/
theorem skipUntil (h : w.Shows rest b d) (stop : TokenKind → Bool) :
    w.Reaches rest (b.skipUntil stop w) (d.skipUntil stop) := by
  let count (i : Input) := (i.items.takeWhile fun item ↦ !stop item.token.kind).length
  rw [Draft.skipUntil]
  cases hcount : count d.state.input with
  | zero =>
      rw [Builder.skipUntil_eq_self (h.input ▸ hcount)]
      simp only [count] at hcount
      rw [hcount]
      exact h.reaches
  | succ n =>
      have hcount' : count w.input = n + 1 := h.input ▸ hcount
      let skipped := Builder.tokenNodes {} (count w.input) w
      let parcel := skipped.1.wrap skipped.2
      have heq : b.skipUntil stop w = (b.push none parcel.1,
          (Parsing.reportAt parcel.1.id (.unexpected w.input.current) parcel.2).2) := by
        show (ite (count w.input = 0) _ _ : Parsing Builder) w = _
        rw [if_neg (by rw [hcount']; exact n.succ_ne_zero)]
        rfl
      have htokens := h.blank.tokenNodes (count w.input)
      have hwrap : w.Yields _ parcel _ :=
        htokens.2.wrap.of_grows htokens.1
      have hpush := h.push (hwrap.reportAt (.unexpected d.current)) none
      rw [hcount'] at hpush
      simp only [count] at hcount
      rw [heq, hcount, h.current]
      exact hpush

theorem skip (h : w.Shows rest b d) (stop : TokenClass) :
    w.Reaches rest (b.skip stop w) (d.skip stop) :=
  h.skipUntil stop.has

theorem expect (h : w.Shows rest b d) (t : Terminal) :
    w.Reaches rest (b.expect t w) (d.expect t) := by
  refine (h.skip (.either (.only t) .synchronizing)).bind fun hskip ↦ ?_
  let skipped := b.skip (.either (.only t) .synchronizing) w
  have hcurrent : skipped.2.input.current =
      (d.skip (.either (.only t) .synchronizing)).current := hskip.current
  have hexpect : b.expect t w = (ite (skipped.2.input.current = .terminal t)
      (skipped.1.leaf none (.terminal t) false)
      (skipped.1.missing none (.terminal t)
        (.expected (.terminal t) skipped.2.input.current))) skipped.2 := rfl
  rw [hexpect, Draft.expect, hcurrent]
  split
  · exact hskip.leaf none _ false
  · exact hskip.missing none _ _

theorem word (h : w.Shows rest b d) (field : Option Field) (slot : Slot) :
    w.Reaches rest (b.word field slot w) (d.word field slot) := by
  have heq : b.word field slot w = b.fill field slot w.input.current w := rfl
  rw [heq, Draft.word, ← h.current, Builder.fill]
  cases slot.accepts? w.input.current with
  | some kind => exact h.leaf field kind false
  | none => exact h.missing field _ _

theorem take (h : w.Shows rest b d) (field : Option Field) :
    w.Reaches rest (b.take field w) (d.take field) := by
  have heq : b.take field w = b.leaf field w.input.current.leafKind false w := rfl
  rw [heq, h.current]
  exact h.leaf field _ false

theorem absent (h : w.Shows rest b d) : w.Reaches rest (b.absent w) d.absent := by
  have heq :
      b.absent w = b.missing none .identifier (.expected .expression w.input.current) w := rfl
  rw [heq, h.current]
  exact h.missing none _ _

theorem repeatWhile {round : Builder → Parsing Builder} {f : Draft → Draft}
    (hround : ∀ {w b d}, Shows w rest b d → w.Reaches rest (round b w) (f d)) (test : Test)
    (h : w.Shows rest b d) :
    w.Reaches rest (b.repeatWhile test round w) (d.repeatWhile test f) := by
  -- on the number of tokens left, since each round but the last takes one
  induction hsize : w.input.size using Nat.strongRecOn generalizing w b d with
  | ind size ih =>
      rw [Builder.repeatWhile, Draft.repeatWhile, ← h.input]
      split
      case isTrue =>
        obtain ⟨hgrows, hnext⟩ := hround h
        dsimp only
        rw [← hnext.input]
        split
        case isTrue hless => exact (ih _ (hsize ▸ hless) hnext rfl).of_grows hgrows
        case isFalse => exact ⟨hgrows, hnext⟩
      case isFalse => exact h.reaches

end Shows

end Workspace

variable {v : Levels} {x : Int → Parsing Parcel} {e : Int → State → Draft}

/-- A choice goes on with one of its phrases, by what is next. -/
theorem Phrase.build_choose (test : Test) (yes no next : Phrase) (b : Builder) (w : Workspace) :
    (choose test yes no next).build v x b w =
      let chosen := (if test.holds w.input = true then yes else no).build v x b w
      next.build v x chosen.1 chosen.2 := by
  show (ite (test.holds w.input = true) _ _ : Parsing Builder) w = _
  by_cases htest : test.holds w.input = true
  · rw [if_pos htest, if_pos htest]
    rfl
  · rw [if_neg htest, if_neg htest]
    rfl

namespace Workspace

variable {w : Workspace} {rest : List Nat} {b : Builder} {d : Draft}

/-- Parsing expressions shows how they are drafted. -/
def Expresses (x : Int → Parsing Parcel) (e : Int → State → Draft) : Prop :=
  ∀ least w rest s, Shows w rest {} (.blank s) → w.Yields rest (x least w) (e least s)

/-- A phrase builds what it drafts, if this holds of the expressions in it. -/
theorem Shows.build (hx : Expresses x e) (p : Phrase) (h : w.Shows rest b d) :
    w.Reaches rest (p.build v x b w) (p.run v e d) := by
  induction p generalizing w rest b d with
  | done => exact h.reaches
  | expect t next ih => exact (h.expect t).bind ih
  | take field next ih => exact (h.take field).bind ih
  | word field slot next ih => exact (h.word field slot).bind ih
  | literal next ih => exact h.literal.bind ih
  | operand field bound next ih => exact (h.push (hx _ w _ _ h.blank) field).bind ih
  | node field kind body next ihbody ih =>
      have hfinish := (ihbody h.blank).finish kind false
      exact (h.push hfinish field).bind ih
  | choose test yes no next ihyes ihno ih =>
      rw [Phrase.run, ← h.input, Phrase.build_choose]
      by_cases htest : test.holds w.input = true
      · rw [if_pos htest, if_pos htest]
        exact (ihyes h).bind ih
      · rw [if_neg htest, if_neg htest]
        exact (ihno h).bind ih
  | loop test body next ihbody ih => exact (h.repeatWhile (fun h ↦ ihbody h) test).bind ih
  | skip stop next ih => exact (h.skip stop).bind ih
  | absent next ih => exact h.absent.bind ih

/-- An expression is put into another role. -/
theorem Shows.assign {p : Parcel} {role : Option Field} (h : w.Shows rest (p.alone role) d)
    (field : Option Field) :
    w.Shows rest (p.alone field) ((Draft.blank d.state).attach field d) :=
  { h with
    nodes := by
      rw [Draft.toList_nodes_attach, h.map_assign]
      rfl }

/-- Whatever goes on with an expression makes one node of it. -/
theorem Shows.extend (hx : Expresses x e) (c : Continuation) {p : Parcel} {role : Option Field}
    (h : w.Shows rest (p.alone role) d) :
    w.Yields rest (Parsing.extend v x c p w)
      ((c.phrase.run v e ((Draft.blank d.state).attach (some c.field) d)).enclose c.kind
        false) :=
  ((h.assign (some c.field)).build hx c.phrase).finish c.kind false

theorem Shows.climb (hx : Expresses x e) (least : Int) {p : Parcel} {role : Option Field}
    (h : w.Shows rest (p.alone role) d) :
    w.Yields rest (Parsing.climb v x least p w) (d.climb v e least) := by
  -- on the number of tokens left, since each continuation but the last takes one
  induction hsize : w.input.size using Nat.strongRecOn generalizing w p role d with
  | ind size ih =>
      rw [Parsing.climb, Draft.climb, h.current]
      cases hnext : Continuation.of? v least d.current with
      | none => exact ⟨role, h.reaches⟩
      | some next =>
          obtain ⟨role', hgrows, hwhole⟩ := h.extend hx next
          dsimp only
          rw [← h.input, ← hwhole.input]
          split
          case isTrue hless =>
            exact (ih _ (hsize ▸ hless) hwhole rfl).of_grows hgrows
          case isFalse => exact ⟨role', hgrows, hwhole⟩

theorem Shows.tooDeep {s : State} (h : w.Shows rest {} (.blank s)) :
    w.Yields rest (Parsing.tooDeep w) (.tooDeep s) := by
  have hfinish := (h.tokenNodes (overrun 0 w.input.items)).finish .error true
  rw [Draft.tooDeep, ← Draft.state_blank s, ← h.input]
  exact hfinish.reportAt .tooDeep

/-- What an expression starts with is one node, with comments in front. -/
theorem Shows.opening (hx : Expresses x e) {s : State} (h : w.Shows rest {} (.blank s)) :
    let opening := Phrase.opening s.input.current s.input.upcoming
    let first := opening.build v x {} w
    w.Yields rest (first.1.only, first.2) (opening.run v e (.blank s)) := by
  obtain ⟨hgrows, hfirst⟩ :=
    h.build (v := v) hx (Phrase.opening s.input.current s.input.upcoming)
  obtain ⟨n, hn, -⟩ := Phrase.single_run (v := v) (x := e)
    (Phrase.makesOne_opening s.input.current s.input.upcoming)
  exact (hfirst.yields_only hn).of_grows hgrows

theorem expression_succ (v : Levels) (depth : Nat) (least : Int) (w : Workspace) :
    let opening := Phrase.opening w.input.current w.input.upcoming
    let first := opening.build v (Parsing.expression v depth) {} w
    Parsing.expression v (depth + 1) least w =
      Parsing.climb v (Parsing.expression v depth) least first.1.only first.2 := rfl

theorem expresses_expression (v : Levels) (depth : Nat) :
    Expresses (Parsing.expression v depth) (Draft.expression v depth) := by
  induction depth with
  | zero => exact fun least w rest s h ↦ h.tooDeep
  | succ depth ih =>
      intro least w rest s h
      obtain ⟨role, hgrows, hfirst⟩ := h.opening (v := v) ih
      have hclimb := hfirst.climb (v := v) ih least
      rw [expression_succ, show w.input = s.input from h.input]
      exact hclimb.of_grows hgrows

end Workspace

end CoolTree
