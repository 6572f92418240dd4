import CoolTree.Proofs.Bound
import CoolTree.Proofs.Climbing

/-!
# How tightly expressions are bound

An expression is one node, well bound down to its leaves, and it ends where nothing goes on with it.
This holds of what is nested too deeply, since that ends at a token that closes or separates
something. Any other expression starts as one node. A call or an operator makes one node of the
expression so far, and each takes a token, so that climbing stops only where nothing goes on.
-/

namespace CoolTree

open Draft

namespace Continuation

variable {v : Levels} {least : Int}

theorem of?_of_isSynchronizing {k : TokenKind} (h : k.isSynchronizing = true) :
    of? v least k = none := by
  cases k with
  | terminal t => cases t <;> first | rfl | cases h
  | _ => rfl

theorem least_le_of_of? {o : Operator} {next : Continuation}
    (h : of? v least (.terminal o.terminal) = some next) : least ≤ (v.operator o).strength := by
  by_contra hnot
  rw [of?_looser hnot] at h
  cases h

theorem lt_of_of?_operator {o : Operator} (h : of? v least (.terminal o.terminal) = none) :
    (v.operator o).strength < least := by
  by_contra hnot
  rw [of?_operator (Int.not_lt.mp hnot)] at h
  cases h

/-- Where a call does not go on with an expression, calls are too loose. -/
theorem lt_of_of?_call {k : TokenKind} (hk : k = .terminal .dot ∨ k = .terminal .atSign)
    (h : of? v least k = none) : v.call < least ∨ v.super < least := by
  rcases hk with rfl | rfl
  · left
    by_contra hnot
    simp [of?, Int.not_lt.mp hnot] at h
  · right
    by_contra hnot
    simp [of?, Int.not_lt.mp hnot] at h

end Continuation

namespace Draft

theorem items_tokenNodes (d : Draft) (n : Nat) :
    (d.tokenNodes n).state.input.items = d.state.input.items.drop n := by
  induction n generalizing d with
  | zero => rfl
  | succ n ih =>
      rw [tokenNodes, ih]
      cases hitems : d.state.input.items with
      | nil => rw [tokenNode_of_nil d hitems, hitems, List.drop_nil, List.drop_nil]
      | cons item rest =>
          obtain ⟨-, -, -, -, -, hinput, -⟩ := tokenNode_eq d hitems
          rw [hinput, Input.items_tail, hitems, List.tail_cons, List.drop_succ_cons]

theorem items_tooDeep (s : State) :
    (tooDeep s).state.input.items = s.input.items.drop (overrun 0 s.input.items) :=
  items_tokenNodes (blank s) _

/-- What is nested too deeply ends in front of a token that closes or separates something. -/
theorem isSynchronizing_overrun (opened : Nat) (items : List Item) :
    ∀ item ∈ (items.drop (overrun opened items)).head?,
      item.token.kind.isSynchronizing = true := by
  induction items generalizing opened with
  | nil => simp
  | cons item rest ih =>
      rw [overrun_cons]
      split
      · exact ih _
      · split
        · split
          · simpa
          · exact ih _
        · split
          · exact ih _
          · exact ih _

theorem isSynchronizing_tooDeep (s : State) : (tooDeep s).current.isSynchronizing = true := by
  have hstops := isSynchronizing_overrun 0 s.input.items
  rw [← items_tooDeep] at hstops
  unfold current Input.current
  split
  · rename_i item rest hcons
    exact hstops item (by rw [hcons]; rfl)
  · rfl

variable {v : Levels} {x : Int → State → Draft}

theorem finished_tooDeep (least : Int) (s : State) : Finished v least (tooDeep s) where
  bounded := (Bounded.swallowed .wrapped).reportLast _
  single := ⟨_, Single.enclose _ .error true, fun _ ho ↦ (Node.not_joins rfl ho).elim⟩
  stops := Continuation.of?_of_isSynchronizing (isSynchronizing_tooDeep s)

/-- An operand on which a call goes on. -/
theorem bounded_call (hx : ∀ least s, Finished v least (x least s)) {d : Draft} {n : Node}
    (h : Bounded v d) (hn : d.Single n)
    (hcall : d.current = .terminal .dot ∨ d.current = .terminal .atSign) :
    Bounded v (continued v x ⟨.value, .dispatchExpression, .dispatch⟩ d) := by
  let inside := (blank d.state).attach (some .value) d
  have hinside : Bounded v inside := (Bounded.blank d.state).attach h hn.ne_nil (some .value)
  have hrun : Bounded v (Phrase.dispatch.run v x inside) :=
    Phrase.bounded_run hx .dispatch (by decide) hinside
  refine hrun.enclose .dispatchExpression false (fun b hb ↦ (Node.not_wants rfl hb).elim)
    ⟨fun b hb ↦ (Node.not_wants rfl hb).elim, by rintro ⟨⟩, by rintro ⟨⟩, ?_⟩
  intro _ c hc hfield b hb
  obtain ⟨hmem, hextra⟩ := List.mem_filter.mp hc
  have hold : c ∈ inside.nodes.toList := Phrase.adds_run .dispatch (by decide) inside c
    (List.dropWhile_subset Node.isExtra hmem) (by simpa using hextra) hfield
  have hparts := (hn.attach d.state (some .value)).filter_eq
  obtain rfl := List.mem_singleton.mp (hparts ▸ List.mem_filter.mpr ⟨hold, hextra⟩)
  rw [Node.asks_assign] at hb
  exact Continuation.lt_of_of?_call hcall (h.edge n hn.getLast? b hb)

/-- An operator between two operands, with comments or without. -/
theorem binary_enclosure {d inner : Draft} {n k : Node} (hn : d.Single n) (hk : inner.Single k)
    {o : Operator} (hcurrent : d.current = .terminal o.terminal) :
    (((((blank d.state).attach (some .left) d).take (some .operator)).attach (some .right)
      inner).enclosure .binaryExpression false).Binary (n.assign (some .left)) o
        (k.assign (some .right)) := by
  let inside := (blank d.state).attach (some .left) d
  let sign := inside.take (some .operator)
  have hinside : inside.current = .terminal o.terminal := hcurrent
  obtain ⟨item, rest, hitems, -⟩ := items_of_current hinside (by rintro ⟨⟩)
  let c : Node := .mk ⟨inside.current.leafKind,
    item.token.span, some .operator, false, false, false⟩ []
  have hleft : inside.nodes.toList.filter (!·.isExtra) = [n.assign (some .left)] :=
    (hn.attach d.state (some .left)).filter_eq
  have hsign : sign.nodes.toList.filter (!·.isExtra) = [n.assign (some .left), c] := by
    have hnodes : sign.nodes.toList =
        inside.nodes.toList ++ Node.ofComments item.comments ++ [c] :=
      toList_nodes_leaf inside hitems (some .operator) inside.current.leafKind false
    rw [hnodes, List.filter_append, List.filter_append, hleft, Node.filter_ofComments]
    rfl
  refine ⟨rfl, c, ?_, Node.field_assign hn.not_isExtra _, rfl, Node.field_assign hk.not_isExtra _,
    congrArg TokenKind.leafKind hinside⟩
  rw [Node.parts, enclosure, Node.children_mk, Node.filter_dropWhile_isExtra, toList_nodes_attach,
    List.filter_append, Node.filter_map_assign, hk.filter_eq, hsign]
  rfl

/-- An operand with which an operator goes on. -/
theorem bounded_binary (hx : ∀ least s, Finished v least (x least s)) {d : Draft} {n : Node}
    (h : Bounded v d) (hn : d.Single n) {o : Operator}
    (hcurrent : d.current = .terminal o.terminal) :
    Bounded v (continued v x ⟨.left, .binaryExpression, .binary o⟩ d) ∧
      ∃ m, (continued v x ⟨.left, .binaryExpression, .binary o⟩ d).Single m ∧
        ∀ o', m.Joins o' → o' = o := by
  let sign := ((blank d.state).attach (some .left) d).take (some .operator)
  let right := x (v.bound (.rightOf o)) sign.state
  let whole := sign.attach (some .right) right
  have hright : Finished v (v.bound (.rightOf o)) right := hx _ _
  obtain ⟨k, hk, hleast⟩ := hright.single
  have hbinary : (whole.enclosure .binaryExpression false).Binary (n.assign (some .left)) o
      (k.assign (some .right)) := binary_enclosure hn hk hcurrent
  have hwants : ∀ b, (whole.enclosure .binaryExpression false).Wants b → b = .rightOf o := by
    rintro b (hb | ⟨o', ho', rfl⟩)
    · cases hb
    · rw [hbinary.eq_of_joins ho']
  have hsign : Bounded v sign :=
    ((Bounded.blank d.state).attach h hn.ne_nil (some .left)).take (some .operator)
  have hwhole : Bounded v whole := hsign.attach hright.bounded hk.ne_nil (some .right)
  have hnode : (whole.enclosure .binaryExpression false).Grouped v := by
    refine ⟨fun b hb ↦ ?_, fun _ ↦ ?_, by rintro ⟨⟩, by rintro ⟨⟩⟩
    · rw [hwants b hb]
      exact ⟨_, hk.getLast?_children sign (some .right) .binaryExpression false,
        (k.isExtra_assign _).trans hk.not_isExtra,
        fun o' ho' ↦ hleast o' ((Node.joins_assign _).mp ho')⟩
    · refine ⟨_, o, _, hbinary, fun b hb ↦ ?_⟩
      rw [Node.asks_assign] at hb
      exact Continuation.lt_of_of?_operator (hcurrent ▸ h.edge n hn.getLast? b hb)
  refine ⟨hwhole.enclose .binaryExpression false (fun b hb ↦ ?_) hnode, _,
    Single.enclose whole .binaryExpression false, fun o' ho' ↦ hbinary.eq_of_joins ho'⟩
  rw [hwants b hb]
  exact hright.stops

/-- What goes on with an expression makes one node of it, which binds as tightly as asked for. -/
theorem bounded_continued (hx : ∀ least s, Finished v least (x least s)) {least : Int} {d : Draft}
    {n : Node} (h : Bounded v d) (hn : d.Single n) {next : Continuation}
    (hnext : Continuation.of? v least d.current = some next) :
    Bounded v (continued v x next d) ∧ ∃ m, (continued v x next d).Single m ∧
      ∀ o, m.Joins o → least ≤ (v.operator o).strength := by
  obtain ⟨hcall, rfl⟩ | ⟨o, hcurrent, rfl⟩ := Continuation.of?_cases hnext
  · refine ⟨bounded_call hx h hn hcall, _, Single.enclose _ .dispatchExpression false, ?_⟩
    exact fun o ho ↦ (Node.not_joins rfl ho).elim
  · obtain ⟨hbounded, m, hm, hjoins⟩ := bounded_binary hx h hn hcurrent
    refine ⟨hbounded, m, hm, fun o' ho' ↦ ?_⟩
    rw [hjoins o' ho']
    exact Continuation.least_le_of_of? (hcurrent ▸ hnext)

/-- What follows the sign `@` in a call. -/
def typedCall : Phrase :=
  .word (some .type) .typeName <| .expect .dot .call

/-- What is drafted behind a token is drafted from less input. -/
theorem size_run_leaf_lt (hadvances : ∀ least s, State.Advances s (x least s).state) {d : Draft}
    (hne : d.current ≠ .ending) (field : Option Field) (kind : Kind) (p : Phrase) :
    (p.run v x (d.leaf field kind false)).state.input.size < d.state.input.size := by
  obtain ⟨item, rest, hitems, -⟩ := items_of_current rfl hne
  exact Nat.lt_of_le_of_lt (p.advances_run hadvances _).size_le
    (size_leaf_lt d hitems field kind false)

theorem run_dispatch_of_dot {d : Draft} (h : d.current = .terminal .dot) :
    Phrase.dispatch.run v x d = Phrase.call.run v x (d.leaf none (.terminal .dot) false) := by
  have htest : (Test.within (.only .atSign)).holds d.state.input = false := by
    rw [Test.holds, show d.state.input.current = .terminal .dot from h]
    rfl
  rw [← expect_of_current h, Phrase.dispatch, Phrase.run, htest]
  rfl

theorem run_dispatch_of_atSign {d : Draft} (h : d.current = .terminal .atSign) :
    Phrase.dispatch.run v x d = typedCall.run v x (d.take none) := by
  have htest : (Test.within (.only .atSign)).holds d.state.input = true := by
    rw [Test.holds, show d.state.input.current = .terminal .atSign from h]
    rfl
  simp only [Phrase.dispatch, Phrase.run, htest]
  rfl

theorem size_dispatch_lt (hadvances : ∀ least s, State.Advances s (x least s).state) {d : Draft}
    (h : d.current = .terminal .dot ∨ d.current = .terminal .atSign) :
    (Phrase.dispatch.run v x d).state.input.size < d.state.input.size := by
  have hne : d.current ≠ .ending := by
    rcases h with h | h <;> rw [h] <;> decide
  rcases h with hdot | hat
  · rw [run_dispatch_of_dot hdot]
    exact size_run_leaf_lt hadvances hne none (.terminal .dot) .call
  · rw [run_dispatch_of_atSign hat, take]
    exact size_run_leaf_lt hadvances hne none d.current.leafKind typedCall

/-- What goes on with an expression takes the token it starts with. -/
theorem size_continued_lt (hadvances : ∀ least s, State.Advances s (x least s).state)
    {least : Int} {d : Draft} {next : Continuation}
    (hnext : Continuation.of? v least d.current = some next) :
    (continued v x next d).state.input.size < d.state.input.size := by
  have hne : d.current ≠ .ending := by
    intro hending
    rw [hending] at hnext
    cases hnext
  obtain ⟨hcall, rfl⟩ | ⟨o, -, rfl⟩ := Continuation.of?_cases hnext
  · let inside := (blank d.state).attach (some .value) d
    have hinside : inside.current = .terminal .dot ∨ inside.current = .terminal .atSign := hcall
    rw [continued, state_enclose]
    dsimp only
    exact size_dispatch_lt hadvances hinside
  · let inside := (blank d.state).attach (some .left) d
    have hinside : inside.current ≠ .ending := hne
    rw [continued, state_enclose]
    dsimp only
    exact size_run_leaf_lt hadvances hinside (some .operator) inside.current.leafKind
      (.operand (some .right) (.rightOf o) .done)

/-- Climbing ends where nothing binds as tightly as asked for. -/
theorem finished_climb (hadvances : ∀ least s, State.Advances s (x least s).state)
    (hx : ∀ least s, Finished v least (x least s)) (least : Int) {d : Draft} {n : Node}
    (h : Bounded v d) (hn : d.Single n)
    (hleast : ∀ o, n.Joins o → least ≤ (v.operator o).strength) :
    Finished v least (climb v x least d) := by
  -- on the number of tokens left, since each continuation takes one
  induction hsize : d.state.input.size using Nat.strongRecOn generalizing d n with
  | ind size ih =>
      cases hnext : Continuation.of? v least d.current with
      | none =>
          rw [climb, hnext]
          exact ⟨h, ⟨n, hn, hleast⟩, hnext⟩
      | some next =>
          have hless := size_continued_lt hadvances hnext
          obtain ⟨hbounded, m, hm, hjoins⟩ := bounded_continued hx h hn hnext
          rw [climb_of_some hnext, if_pos hless]
          exact ih _ (hsize ▸ hless) hbounded hm hjoins rfl

end Draft

namespace Draft

variable (v : Levels)

theorem finished_expression (depth : Nat) (least : Int) (s : State) :
    Finished v least (Draft.expression v depth least s) := by
  induction depth generalizing least s with
  | zero => exact finished_tooDeep least s
  | succ depth ih =>
      let opening := Phrase.opening s.input.current s.input.upcoming
      have hopening : Bounded v (opening.run v (Draft.expression v depth) (blank s)) :=
        opening.bounded_run ih (Phrase.keepsBounds_opening _ _) (.blank s)
      obtain ⟨n, hn, hkind⟩ := Phrase.single_run (v := v) (x := Draft.expression v depth)
        (Phrase.makesOne_opening s.input.current s.input.upcoming)
      exact finished_climb (advances_expression depth) ih least hopening hn
        fun o ho ↦ (hkind ho.kind_eq).elim

end Draft

end CoolTree
