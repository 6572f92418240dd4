import CoolTree.Proofs.Confined
import CoolTree.Proofs.Edge
import CoolTree.Proofs.Single

/-!
# Operands are bound as their operators say

While an expression is drafted, nothing on the edge of its last node could go on with the next
token. Every operation keeps this: a leaf has no edge to speak of, and an operand stops where
nothing binds as tightly as it was asked to. So when an operator or a call takes an expression as
its first part, nothing on the edge of that part could have taken the operator or the call.
-/

namespace CoolTree

open Draft

namespace Draft

/-- Drafts of well bound nodes whose last one cannot go on with the next token. -/
structure Bounded (v : Levels) (d : Draft) : Prop where
  edge : ∀ n ∈ d.nodes.toList.getLast?, ∀ b, n.Asks b →
    Continuation.of? v (v.bound b) d.current = none
  grouped : ∀ m ∈ Node.preorders d.nodes.toList, m.Grouped v

namespace Bounded

variable {v : Levels} {d d' inner : Draft} {s : State}

theorem blank (s : State) : Bounded v (blank s) :=
  ⟨by simp, by simp⟩

/-- A node that asks for nothing, behind some comments. -/
theorem add (h : Bounded v d) {cs : List Token} {n : Node}
    (hnodes : d'.nodes.toList = d.nodes.toList ++ Node.ofComments cs ++ [n])
    (hn : ∀ m ∈ n.preorder, m.Grouped v) (hasks : ∀ b, ¬n.Asks b) : Bounded v d' := by
  constructor
  · intro last hlast b hb
    rw [hnodes, List.getLast?_concat] at hlast
    obtain rfl := Option.some.inj hlast
    exact (hasks b hb).elim
  · rw [hnodes, Node.preorders_append, Node.preorders_append, List.forall_mem_append,
      List.forall_mem_append]
    exact ⟨⟨h.grouped, Node.Grouped.ofComments cs⟩, by simpa using hn⟩

theorem leaf (h : Bounded v d) (field : Option Field) {kind : Kind}
    (hkind : kind.endsOpen = false) (faulty : Bool) : Bounded v (d.leaf field kind faulty) := by
  cases hitems : d.state.input.items with
  | nil => rwa [leaf_of_nil d hitems]
  | cons item rest =>
      refine h.add (toList_nodes_leaf d hitems field kind faulty) (fun m hm ↦ ?_) fun b ↦
        Node.not_asks_of_leaf rfl hkind
      obtain rfl := List.mem_singleton.mp hm
      exact .leaf rfl hkind

theorem missing (h : Bounded v d) (field : Option Field) {kind : Kind}
    (hkind : kind.endsOpen = false) (problem : Problem) :
    Bounded v (d.missing field kind problem) := by
  have hnodes : (d.missing field kind problem).nodes.toList =
      d.nodes.toList ++ Node.ofComments [] ++
        [Node.absentAt field kind d.state.reached] := by
    rw [toList_nodes_missing, Node.ofComments, List.append_nil]
  refine h.add hnodes (fun m hm ↦ ?_) fun b ↦ Node.not_asks_of_leaf rfl hkind
  obtain rfl := List.mem_singleton.mp hm
  exact .leaf rfl hkind

theorem stringLiteral (h : Bounded v d) (item : Item) (parts : List BodyPart) (closed : Bool) :
    Bounded v (d.stringLiteral item parts closed) := by
  obtain ⟨hnodes, -⟩ := stringLiteral_eq d item parts closed
  exact h.add hnodes (Node.Grouped.literalNode item parts closed) fun b ↦
    Node.not_asks_literalNode item parts closed

theorem literal (h : Bounded v d) : Bounded v d.literal := by
  unfold Draft.literal
  split
  · split
    · exact h.stringLiteral _ _ _
    · exact h
  · exact h

theorem tokenNode (h : Bounded v d) : Bounded v d.tokenNode := by
  cases hitems : d.state.input.items with
  | nil => rwa [tokenNode_of_nil d hitems]
  | cons item rest =>
      rcases tokenNode_cases d hitems with ⟨parts, closed, -, heq⟩ | ⟨faulty, -, heq, -⟩
      · rw [heq]
        exact h.stringLiteral item parts closed
      · rw [heq]
        exact h.leaf none (Kind.endsOpen_leafKind _) faulty

theorem tokenNodes (h : Bounded v d) (n : Nat) : Bounded v (d.tokenNodes n) := by
  induction n generalizing d with
  | zero => exact h
  | succ n ih => exact ih h.tokenNode

/-- A node around a draft. -/
theorem enclose (h : Bounded v d) (kind : Kind) (faulty : Bool)
    (hwants : ∀ b, (d.enclosure kind faulty).Wants b →
      Continuation.of? v (v.bound b) d.current = none)
    (hnode : (d.enclosure kind faulty).Grouped v) : Bounded v (d.enclose kind faulty) := by
  constructor
  · intro last hlast b hb
    rw [toList_nodes_enclose, List.getLast?_concat] at hlast
    obtain rfl := Option.some.inj hlast
    rcases Node.asks_iff.mp hb with hb | ⟨c, hchild, hb⟩
    · exact hwants b hb
    · exact h.edge c (Node.getLast?_of_dropWhile hchild) b hb
  · intro m hm
    rcases mem_preorders_enclose hm with hm | rfl
    · exact h.grouped m hm
    · exact hnode

/-- A node around a draft that does not end in an operand. -/
theorem enclose_closed (h : Bounded v d) {kind : Kind} (hkind : kind.endsOpen = false)
    (hreceiver : kind = .dispatchExpression →
      ∀ n ∈ d.nodes.toList, n.isExtra = false → n.field? ≠ some .value) (faulty : Bool) :
    Bounded v (d.enclose kind faulty) := by
  have hclosed : (d.enclosure kind faulty).kind.endsOpen = false := hkind
  refine h.enclose kind faulty (fun b hb ↦ (Node.not_wants hclosed hb).elim) ?_
  refine .of_closed hkind fun hdispatch c hc ↦ ?_
  obtain ⟨hmem, hextra⟩ := List.mem_filter.mp hc
  exact hreceiver hdispatch c (List.dropWhile_subset Node.isExtra hmem) (by simpa using hextra)

theorem attach (h : Bounded v d) (hinner : Bounded v inner) (hne : inner.nodes.toList ≠ [])
    (field : Option Field) : Bounded v (d.attach field inner) := by
  constructor
  · intro last hlast b hb
    rw [toList_nodes_attach, List.getLast?_append, List.getLast?_map] at hlast
    cases hinnerlast : inner.nodes.toList.getLast? with
    | none => exact (hne (List.getLast?_eq_none_iff.mp hinnerlast)).elim
    | some n =>
        rw [hinnerlast] at hlast
        obtain rfl := Option.some.inj hlast
        exact hinner.edge n hinnerlast b ((Node.asks_assign field).mp hb)
  · rw [toList_nodes_attach, Node.preorders_append, List.forall_mem_append]
    exact ⟨h.grouped, Node.forall_mem_preorders_map (Node.children_assign field)
      (fun n hn ↦ hn.assign field) hinner.grouped⟩

theorem swallowed {n : Nat} {w : Draft} (h : Swallowed s n w) : Bounded v w := by
  have htokens : Bounded v ((Draft.blank s).tokenNodes n) := (blank s).tokenNodes n
  cases h with
  | wrapped => exact htokens.enclose_closed rfl (by rintro ⟨⟩) true
  | lone => exact htokens

theorem reportLast (h : Bounded v d) (problem : Problem) : Bounded v (d.reportLast problem) :=
  ⟨h.edge, h.grouped⟩

end Bounded

/-- Drafts of an expression that was to bind as tightly as `least`: a single node, whose operator
does so, and nothing that binds so tightly next. -/
structure Finished (v : Levels) (least : Int) (d : Draft) : Prop where
  bounded : Bounded v d
  single : ∃ n, d.Single n ∧ ∀ o, n.Joins o → least ≤ (v.operator o).strength
  stops : Continuation.of? v least d.current = none

namespace Bounded

variable {v : Levels} {d : Draft}

theorem skip (h : Bounded v d) (stop : TokenClass) : Bounded v (d.skip stop) := by
  rcases skip_eq d stop with ⟨-, heq⟩ | ⟨n, w, -, hw, heq⟩
  · rwa [heq]
  · obtain ⟨m, hm, -⟩ := Single.swallowed hw
    rw [heq]
    exact h.attach ((swallowed hw).reportLast _) hm.ne_nil none

theorem expect (h : Bounded v d) (t : Terminal) : Bounded v (d.expect t) := by
  have hskip := h.skip (.either (.only t) .synchronizing)
  unfold Draft.expect
  dsimp only
  split
  · exact hskip.leaf none rfl false
  · exact hskip.missing none rfl _

theorem word (h : Bounded v d) (field : Option Field) (slot : Slot) :
    Bounded v (d.word field slot) := by
  unfold Draft.word
  split
  · rename_i kind hkind
    exact h.leaf field (Kind.endsOpen_of_accepts? hkind) false
  · exact h.missing field (Kind.endsOpen_defaultKind slot) _

theorem take (h : Bounded v d) (field : Option Field) : Bounded v (d.take field) :=
  h.leaf field (Kind.endsOpen_leafKind _) false

theorem absent (h : Bounded v d) : Bounded v d.absent :=
  h.missing none rfl _

theorem repeatWhile {test : Test} {round : Draft → Draft}
    (hround : ∀ d : Draft, Bounded v d → Bounded v (round d)) (h : Bounded v d) :
    Bounded v (Draft.repeatWhile test round d) := by
  fun_induction Draft.repeatWhile test round d with
  | case1 d _ next _ ih => exact ih (hround d h)
  | case2 d _ next _ => exact hround d h
  | case3 d _ => exact h

end Bounded

end Draft

namespace Phrase

variable {v : Levels} {x : Int → State → Draft}

/-- A phrase that ends in an operand puts an expression with its bound behind all else. -/
theorem run_of_lastBound? {p : Phrase} {b : Bound} (h : p.lastBound? = some b) (d : Draft) :
    ∃ (field : Option Field) (e : Draft),
      p.run v x d = e.attach field (x (v.bound b) e.state) := by
  induction p generalizing d with
  | done => cases h
  | operand field bound next ih =>
      rw [lastBound?] at h
      split at h
      · rename_i hdone
        cases h
        exact ⟨field, d, by rw [run, hdone, run]⟩
      · exact ih h _
  | expect _ _ ih | take _ _ ih | word _ _ _ ih | literal _ ih | skip _ _ ih | absent _ ih =>
      exact ih h _
  | node _ _ _ _ _ ih | loop _ _ _ _ ih => exact ih h _
  | choose _ _ _ _ _ _ ih => exact ih h _

theorem exists_of_isSigned {p : Phrase} (h : p.isSigned = true) :
    ∃ b, p = .take none (.operand none b .done) := by
  unfold isSigned at h
  split at h
  · exact ⟨_, rfl⟩
  · cases h

theorem endsOpen_of_mem_take {s : State} {n : Node}
    (h : n ∈ ((blank s).take none).nodes.toList) : n.kind.endsOpen = false := by
  cases hitems : s.input.items with
  | nil =>
      rw [Draft.take, leaf_of_nil _ hitems] at h
      cases h
  | cons item rest =>
      rw [Draft.take, toList_nodes_leaf _ hitems, toList_nodes_blank, List.nil_append,
        List.mem_append] at h
      rcases h with h | h
      · obtain ⟨-, k, hkind⟩ := Node.leaf_of_mem_ofComments h
        exact hkind ▸ Kind.endsOpen_leafKind k
      · rw [List.mem_singleton.mp h]
        exact Kind.endsOpen_leafKind _

/-- In a construct of a sign and an operand, what ends in an operand is the last part. -/
theorem getLast?_of_isSigned (hx : ∀ least s, Finished v least (x least s)) {body : Phrase}
    (hbody : body.isSigned = true) {s : State} {kind : Kind} {c : Node}
    (hc : c ∈ ((body.run v x (blank s)).enclosure kind false).parts)
    (hopen : c.kind.endsOpen = true) :
    ((body.run v x (blank s)).enclosure kind false).children.getLast? = some c := by
  obtain ⟨b, rfl⟩ := exists_of_isSigned hbody
  let sign := (blank s).take none
  let operand := x (v.bound b) sign.state
  obtain ⟨n, hn, -⟩ := (hx (v.bound b) sign.state).single
  obtain ⟨hmem, hextra⟩ := List.mem_filter.mp hc
  have hnode : c ∈ (sign.attach none operand).nodes.toList :=
    List.dropWhile_subset Node.isExtra hmem
  rw [toList_nodes_attach, List.mem_append] at hnode
  rcases hnode with hsign | hoperand
  · rw [endsOpen_of_mem_take hsign] at hopen
    cases hopen
  · obtain ⟨m, hm, rfl⟩ := List.mem_map.mp hoperand
    rw [Node.isExtra_assign] at hextra
    obtain rfl := List.mem_singleton.mp (hn.filter_eq ▸ List.mem_filter.mpr ⟨hm, hextra⟩)
    exact hn.getLast?_children sign none kind false

/-- A construct that ends in an operand. -/
theorem bounded_construct_open (hx : ∀ least s, Finished v least (x least s)) {kind : Kind}
    {b : Bound} (hkind : kind.lastBound? = some b) {body : Phrase}
    (hbody : body.lastBound? = some b) (hsigned : kind.isPrefix = true → body.isSigned = true)
    {s : State} (h : Bounded v (body.run v x (blank s))) :
    Bounded v ((body.run v x (blank s)).enclose kind false) := by
  obtain ⟨field, e, hrun⟩ := run_of_lastBound? (v := v) (x := x) hbody (blank s)
  obtain ⟨n, hn, hjoins⟩ := (hx (v.bound b) e.state).single
  have hbinary : kind ≠ .binaryExpression := by
    rintro rfl
    cases hkind
  have hwants : ∀ b', ((body.run v x (blank s)).enclosure kind false).Wants b' → b' = b := by
    rintro b' (hb' | ⟨o, ho, -⟩)
    · exact Option.some.inj (hb'.symm.trans hkind)
    · exact (hbinary ho.kind_eq).elim
  have hchild : ((body.run v x (blank s)).enclosure kind false).children.getLast? =
      some (n.assign field) := by
    rw [hrun]
    exact hn.getLast?_children e field kind false
  refine h.enclose kind false (fun b' hb' ↦ ?_)
    ⟨fun b' hb' ↦ ?_, fun hk ↦ (hbinary hk).elim, fun hk c hc hopen ↦ ?_, fun hk ↦ ?_⟩
  · rw [hwants b' hb', hrun]
    exact (hx (v.bound b) e.state).stops
  · obtain rfl := hwants b' hb'
    exact ⟨n.assign field, hchild, (n.isExtra_assign field).trans hn.not_isExtra,
      fun o ho ↦ hjoins o ((Node.joins_assign field).mp ho)⟩
  · exact getLast?_of_isSigned hx (hsigned hk) hc hopen
  · obtain rfl : kind = .dispatchExpression := hk
    cases hkind

/-- A phrase that keeps bounds drafts well bound nodes if the expressions in it are finished. -/
theorem bounded_run (hx : ∀ least s, Finished v least (x least s)) (p : Phrase)
    (hp : p.keepsBounds = true) {d : Draft} (h : Bounded v d) : Bounded v (p.run v x d) := by
  induction p generalizing d with
  | done => exact h
  | expect t next ih => exact ih hp (h.expect t)
  | take field next ih => exact ih hp (h.take field)
  | word field slot next ih => exact ih hp (h.word field slot)
  | literal next ih => exact ih hp h.literal
  | operand field bound next ih =>
      have hfinished := hx (v.bound bound) d.state
      obtain ⟨n, hn, -⟩ := hfinished.single
      exact ih hp (h.attach hfinished.bounded hn.ne_nil field)
  | node field kind body next ihbody ihnext =>
      simp only [keepsBounds, Bool.and_eq_true, bne_iff_ne, Bool.or_eq_true, Bool.not_eq_true',
        beq_iff_eq] at hp
      obtain ⟨⟨⟨⟨⟨hbinary, hbound⟩, hsigned⟩, hreceiver⟩, hbody⟩, hnext⟩ := hp
      have hinner := ihbody hbody (.blank d.state)
      -- only a construct that ends in an operand can be gone on with
      have hwhole : Bounded v ((body.run v x (blank d.state)).enclose kind false) := by
        cases hkind : kind.lastBound? with
        | none =>
            have hclosed : kind.endsOpen = false := by simp [Kind.endsOpen, hkind, hbinary]
            refine hinner.enclose_closed hclosed (fun hdispatch n hn hextra hfield ↦ ?_) false
            have havoids := hreceiver.resolve_left (not_not_intro hdispatch)
            cases adds_run body havoids (blank d.state) n hn hextra hfield
        | some b =>
            rw [hkind] at hbound
            have hbody : body.lastBound? = some b := hbound.resolve_left (by simp)
            refine bounded_construct_open hx hkind hbody (fun hk ↦ ?_) hinner
            exact hsigned.resolve_left (by simp [hk])
      exact ihnext hnext (h.attach hwhole (Single.enclose _ kind false).ne_nil field)
  | choose test yes no next ihyes ihno ihnext =>
      simp only [keepsBounds, Bool.and_eq_true] at hp
      obtain ⟨⟨hyes, hno⟩, hnext⟩ := hp
      rw [run]
      split
      · exact ihnext hnext (ihyes hyes h)
      · exact ihnext hnext (ihno hno h)
  | loop test body next ihbody ihnext =>
      simp only [keepsBounds, Bool.and_eq_true] at hp
      exact ihnext hp.2 (h.repeatWhile fun _ hd ↦ ihbody hp.1 hd)
  | skip stop next ih => exact ih hp (h.skip stop)
  | absent next ih => exact ih hp h.absent

end Phrase

end CoolTree
