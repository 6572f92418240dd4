import CoolTree.Proofs.Execution
import CoolTree.Proofs.Roleless
import CoolTree.Proofs.Packaged
import CoolTree.Proofs.Report
import Mathlib.Algebra.Order.BigOperators.Group.List
import Mathlib.Algebra.Order.Group.Nat
import Mathlib.Algebra.Order.Ring.Int

/-!
# How many nodes a tree has

Parsing ends, and what it makes is paid by the tokens it takes. A token pays sixteen for itself, for
each comment in front of it and for each part inside it; its own nodes cost far less. What is left
pays for the nodes that stand for missing input and for those around others. `Phrase.cost` adds up
what a phrase can cost beyond what the tokens pay that it is known to take, and no construct that
starts with a token costs anything. So no loop costs anything either, however often it goes round.
-/

namespace CoolTree

open Draft

/-- Number of parts inside a token. -/
def TokenKind.partCount : TokenKind → Nat
  | .string parts _ => parts.length
  | _ => 0

/-- Number of tokens of an item and of the parts inside it. -/
def Item.weight (item : Item) : Nat :=
  item.comments.length + 1 + item.token.kind.partCount

/-- The nodes made so far, and what the tokens left can pay. -/
def State.potential (s : State) : Int :=
  s.made + 16 * (s.input.items.map Item.weight).sum

namespace Draft

variable (d : Draft)

theorem potential_missing (field : Option Field) (kind : Kind) (problem : Problem) :
    (d.missing field kind problem).state.potential = d.state.potential + 1 := by
  simp only [State.potential, state_missing]
  omega

theorem potential_enclose (kind : Kind) (faulty : Bool) :
    (d.enclose kind faulty).state.potential = d.state.potential + 1 := by
  simp only [State.potential, state_enclose]
  omega

theorem potential_leaf {item : Item} {rest : List Item} (h : d.state.input.items = item :: rest)
    (field : Option Field) (kind : Kind) (faulty : Bool) :
    (d.leaf field kind faulty).state.potential ≤ d.state.potential - 15 := by
  simp only [State.potential, state_leaf d h, Input.items_tail, h, List.tail_cons, List.map_cons,
    List.sum_cons, Item.weight]
  omega

theorem made_stringLiteral (item : Item) (parts : List BodyPart) (closed : Bool) :
    (d.stringLiteral item parts closed).state.made =
      d.state.made + item.comments.length + parts.length + 3 := by
  cases closed <;> simp [stringLiteral, pass, BodyPart.pieces] <;> omega

theorem potential_stringLiteral {item : Item} {rest : List Item}
    (h : d.state.input.items = item :: rest) {parts : List BodyPart} {closed : Bool}
    (hkind : item.token.kind = .string parts closed) :
    (d.stringLiteral item parts closed).state.potential ≤ d.state.potential - 13 := by
  obtain ⟨-, hinput, -⟩ := stringLiteral_eq d item parts closed
  simp only [State.potential, hinput, made_stringLiteral, Input.items_tail, h, List.tail_cons,
    List.map_cons, List.sum_cons, Item.weight, hkind, TokenKind.partCount]
  omega

theorem potential_tokenNode {item : Item} {rest : List Item}
    (h : d.state.input.items = item :: rest) :
    d.tokenNode.state.potential ≤ d.state.potential - 13 := by
  rcases tokenNode_cases d h with ⟨parts, closed, hkind, heq⟩ | ⟨faulty, -, heq, -⟩
  · rw [heq]
    exact potential_stringLiteral d h hkind
  · have hleaf := potential_leaf d h none item.token.kind.leafKind faulty
    rw [heq]
    omega

theorem potential_tokenNodes {n : Nat} (h : n ≤ d.state.input.items.length) :
    (d.tokenNodes n).state.potential ≤ d.state.potential - 13 * n := by
  induction n generalizing d with
  | zero => simp [tokenNodes]
  | succ n ih =>
      obtain ⟨item, rest, hitems⟩ := List.exists_cons_of_length_pos (Nat.zero_lt_of_lt h)
      obtain ⟨-, -, -, -, -, hinput, -⟩ := tokenNode_eq d hitems
      have hrest : n ≤ d.tokenNode.state.input.items.length := by
        rw [hinput, Input.items_tail, List.length_tail]
        omega
      have hfirst := potential_tokenNode d hitems
      have hmore := ih d.tokenNode hrest
      rw [tokenNodes]
      omega

theorem potential_reportLast (problem : Problem) :
    (d.reportLast problem).state.potential = d.state.potential := rfl

theorem potential_tooDeep (s : State) :
    (tooDeep s).state.potential ≤ s.potential + 1 - 13 * overrun 0 s.input.items := by
  have htokens := potential_tokenNodes (blank s) (overrun_le 0 s.input.items)
  rw [tooDeep, potential_reportLast, potential_enclose]
  rw [state_blank] at htokens
  omega

theorem potential_swallowed {s : State} {n : Nat} {w : Draft} (h : Swallowed s n w)
    (hn : n ≤ s.input.items.length) : w.state.potential ≤ s.potential + 1 - 13 * n := by
  have htokens := potential_tokenNodes (blank s) hn
  rw [state_blank] at htokens
  cases h with
  | wrapped =>
      rw [potential_enclose]
      omega
  | lone => omega

theorem potential_skip (stop : TokenClass) :
    (d.skip stop).state.potential ≤ d.state.potential := by
  rcases skip_eq d stop with ⟨-, heq⟩ | ⟨n, w, hn, hw, heq⟩
  · rw [heq]
  · have hswallowed := potential_swallowed hw (hn ▸ distance_le stop d.state.input.items)
    rw [heq, state_attach, potential_reportLast]
    omega

theorem potential_expect (t : Terminal) :
    (d.expect t).state.potential ≤ d.state.potential + 1 := by
  have hskip := potential_skip d (.either (.only t) .synchronizing)
  simp only [expect]
  split
  · rename_i hcurrent
    obtain ⟨item, rest, hitems, -⟩ := items_of_current hcurrent (by rintro ⟨⟩)
    have hleaf := potential_leaf _ hitems none (.terminal t) false
    omega
  · rw [potential_missing]
    omega

theorem potential_leaf_le (field : Option Field) (kind : Kind) (faulty : Bool) :
    (d.leaf field kind faulty).state.potential ≤ d.state.potential := by
  cases hitems : d.state.input.items with
  | nil => rw [leaf_of_nil d hitems]
  | cons item rest =>
      have hleaf := potential_leaf d hitems field kind faulty
      omega

theorem potential_word (field : Option Field) (slot : Slot) :
    (d.word field slot).state.potential ≤ d.state.potential + 1 := by
  unfold word
  split
  · have hleaf := potential_leaf_le d field ‹Kind› false
    omega
  · rw [potential_missing]

theorem potential_literal : d.literal.state.potential ≤ d.state.potential := by
  unfold literal
  split
  · rename_i item rest hitems
    split
    · have hliteral := potential_stringLiteral d hitems ‹_›
      omega
    · exact le_rfl
  · exact le_rfl

/-- What an expression costs: one node at most, and less than nothing where it starts. -/
structure Cheap (s : State) (d : Draft) : Prop where
  le_add_one : d.state.potential ≤ s.potential + 1
  le_sub_one : s.input.current.startsExpression = true → d.state.potential ≤ s.potential - 1

/-- If no round costs anything, the loop costs nothing. -/
theorem potential_repeatWhile {test : Test} {round : Draft → Draft}
    (h : ∀ d : Draft, test.holds d.state.input = true →
      (round d).state.potential ≤ d.state.potential) :
    (d.repeatWhile test round).state.potential ≤ d.state.potential := by
  fun_induction repeatWhile test round d with
  | case1 d htest _ _ ih => exact ih.trans (h d htest)
  | case2 d htest _ _ => exact h d htest
  | case3 d _ => exact le_rfl

end Draft

namespace Phrase

/-- What a phrase can cost at most, given what is known of the next tokens. -/
def cost : List Test → Phrase → Int
  | _, done => 0
  | known, take _ next =>
    if Input.knowsToken known then next.cost (known.filterMap Test.behind?) - 15 else next.cost []
  | known, word _ slot next =>
    if slot.takesNames && known.contains (.within .identifier) then
      next.cost (known.filterMap Test.behind?) - 15
    else next.cost [] + 1
  | known, operand _ _ next =>
    next.cost [] + if known.contains (.within .expressionStart) then -1 else 1
  | known, node _ _ body next => body.cost known + 1 + next.cost []
  | known, choose test yes no next =>
    max (yes.cost (test.units ++ known)) (no.cost (test.failing ++ known)) + next.cost []
  | _, expect _ next | _, absent next => next.cost [] + 1
  | _, literal next | _, loop _ _ next | _, skip _ next => next.cost []

/-- Whether no round of a loop in a phrase costs anything. -/
def thrifty : Phrase → Bool
  | done => true
  | choose _ yes no next => yes.thrifty && no.thrifty && next.thrifty
  | node _ _ body next => body.thrifty && next.thrifty
  | loop test body next => body.cost test.units ≤ 0 && body.thrifty && next.thrifty
  | expect _ next | take _ next | word _ _ next | literal next | operand _ _ next | skip _ next
  | absent next => next.thrifty

theorem thrifty_file : file.thrifty = true := by
  decide

theorem Opens.thrifty {i : Input} {p : Phrase} (h : Opens i p) : p.thrifty = true := by
  cases h with
  | construct _ mem =>
      have hall : ∀ entry ∈ constructs, entry.2.2.thrifty = true := by decide
      rw [Phrase.thrifty, hall _ mem]
      rfl
  | _ => rfl

end Phrase

variable {v : Levels} {x : Int → State → Draft}

/-- A phrase costs no more than was added up, if expressions are cheap. -/
theorem Phrase.potential_run (hx : ∀ least s, Cheap s (x least s)) (p : Phrase)
    (hp : p.thrifty = true) {known : List Test} {d : Draft} (hknown : d.state.input.Knows known) :
    (p.run v x d).state.potential ≤ d.state.potential + p.cost known := by
  induction p generalizing known d with
  | done =>
      rw [run, cost]
      omega
  | expect t next ih =>
      have hpart := potential_expect d t
      have hnext := ih hp (Input.knows_nil (d.expect t).state.input)
      rw [run, cost]
      omega
  | take field next ih =>
      rw [run, cost, Draft.take]
      split
      · rename_i htoken
        obtain ⟨item, rest, hitems⟩ := hknown.exists_cons htoken
        have hpart := potential_leaf d hitems field d.current.leafKind false
        have hnext := ih hp (knows_leaf hitems hknown field d.current.leafKind false)
        omega
      · have hpart := potential_leaf_le d field d.current.leafKind false
        have hnext := ih hp
          (Input.knows_nil (d.leaf field d.current.leafKind false).state.input)
        omega
  | word field slot next ih =>
      rw [run, cost]
      split
      · rename_i hname
        rw [Bool.and_eq_true, List.contains_iff_mem] at hname
        obtain ⟨item, rest, kind, hitems, heq⟩ :=
          word_of_takesNames hname.1 (hknown _ hname.2) (d := d) field
        have hpart := potential_leaf d hitems field kind false
        have hnext := ih hp (knows_leaf hitems hknown field kind false)
        rw [heq]
        omega
      · have hpart := potential_word d field slot
        have hnext := ih hp (Input.knows_nil (d.word field slot).state.input)
        omega
  | literal next ih =>
      have hpart := potential_literal d
      have hnext := ih hp (Input.knows_nil d.literal.state.input)
      rw [run, cost]
      omega
  | operand field bound next ih =>
      let whole := d.attach field (x (v.bound bound) d.state)
      have hnext : (next.run v x whole).state.potential ≤
          (x (v.bound bound) d.state).state.potential + next.cost [] :=
        ih hp (d := whole) (Input.knows_nil _)
      rw [run, cost]
      refine hnext.trans ?_
      split
      · rename_i hstart
        have hpart := (hx (v.bound bound) d.state).le_sub_one
          (hknown _ (List.contains_iff_mem.mp hstart))
        omega
      · have hpart := (hx (v.bound bound) d.state).le_add_one
        omega
  | node field kind body next ihbody ihnext =>
      simp only [thrifty, Bool.and_eq_true] at hp
      let inner := body.run v x (blank d.state)
      let whole := d.attach field (inner.enclose kind false)
      have hbody : inner.state.potential ≤ d.state.potential + body.cost known :=
        ihbody hp.1 (d := blank d.state) hknown
      have hnext : (next.run v x whole).state.potential ≤
          (inner.enclose kind false).state.potential + next.cost [] :=
        ihnext hp.2 (d := whole) (Input.knows_nil _)
      rw [potential_enclose] at hnext
      rw [run, cost]
      refine hnext.trans ?_
      omega
  | choose test yes no next ihyes ihno ihnext =>
      simp only [thrifty, Bool.and_eq_true] at hp
      obtain ⟨⟨hyes, hno⟩, hp⟩ := hp
      rw [run, cost]
      split
      · rename_i htest
        have hpart := ihyes hyes ((Input.knows_units htest).append hknown)
        have hnext := ihnext hp (Input.knows_nil (yes.run v x d).state.input)
        omega
      · rename_i htest
        have hpart := ihno hno ((Input.knows_failing htest).append hknown)
        have hnext := ihnext hp (Input.knows_nil (no.run v x d).state.input)
        omega
  | loop test body next ihbody ihnext =>
      simp only [thrifty, Bool.and_eq_true, decide_eq_true_eq] at hp
      obtain ⟨⟨hcost, hbody⟩, hp⟩ := hp
      have hround : ∀ d : Draft, test.holds d.state.input = true →
          (body.run v x d).state.potential ≤ d.state.potential := fun d htest ↦ by
        have hbody := ihbody hbody (Input.knows_units htest)
        omega
      have hpart := potential_repeatWhile d hround
      have hnext := ihnext hp (Input.knows_nil (d.repeatWhile test (body.run v x)).state.input)
      rw [run, cost]
      omega
  | skip stop next ih =>
      have hpart := potential_skip d stop
      have hnext := ih hp (Input.knows_nil (d.skip stop).state.input)
      rw [run, cost]
      omega
  | absent next ih =>
      have hpart := potential_missing d none .identifier (.expected .expression d.current)
      have hnext := ih hp (Input.knows_nil d.absent.state.input)
      rw [run, cost]
      rw [Draft.absent] at hnext ⊢
      omega

namespace Draft

/-- A construct costs less than nothing if it starts with a token of its own. -/
theorem cheap_opens (hx : ∀ least s, Cheap s (x least s)) {s : State} {p : Phrase}
    (h : Phrase.Opens s.input p) : Cheap s (p.run v x (blank s)) := by
  cases h with
  | @construct known kind body knows mem =>
      have hall : ∀ entry ∈ Phrase.constructs, entry.2.2.cost entry.1 ≤ -2 := by decide
      have hcost : body.cost known ≤ -2 := hall _ mem
      have hrun := Phrase.potential_run (v := v) hx _ (Phrase.Opens.construct knows mem).thrifty
        knows (d := blank s)
      rw [Phrase.cost, Phrase.cost, state_blank] at hrun
      exact ⟨by omega, fun _ ↦ by omega⟩
  | name hname =>
      have hslot : Slot.identifier.takesNames = true := rfl
      obtain ⟨item, rest, kind, hitems, heq⟩ :=
        word_of_takesNames (d := blank s) hslot hname none
      have hleaf := potential_leaf (blank s) hitems none kind false
      rw [Phrase.run, Phrase.run, heq]
      rw [state_blank] at hleaf
      exact ⟨by omega, fun _ ↦ by omega⟩
  | plain hplain =>
      obtain ⟨item, rest, hitems, -⟩ := items_of_current (d := blank s) (k := s.input.current) rfl
        (by rcases hplain with h | h <;> rw [h] <;> rintro ⟨⟩)
      have hleaf := potential_leaf (blank s) hitems none (blank s).current.leafKind false
      rw [Phrase.run, Phrase.run, take]
      rw [state_blank] at hleaf
      exact ⟨by omega, fun _ ↦ by omega⟩
  | literal hkind =>
      obtain ⟨item, rest, hitems, hitem, heq⟩ := literal_of_string (d := blank s) hkind
      have hliteral := potential_stringLiteral (blank s) hitems hitem
      rw [Phrase.run, Phrase.run, heq]
      rw [state_blank] at hliteral
      exact ⟨by omega, fun _ ↦ by omega⟩
  | absent hnot =>
      have habsent := potential_missing (blank s) none .identifier
        (.expected .expression (blank s).current)
      exact ⟨habsent.le, fun hstart ↦ by cases hnot.symm.trans hstart⟩
  | skip hnot _ =>
      have hskip := potential_skip (blank s) (.either .synchronizing .expressionStart)
      exact ⟨hskip.trans (Int.le_add_one le_rfl), fun hstart ↦ by cases hnot.symm.trans hstart⟩

theorem potential_dispatch (hx : ∀ least s, Cheap s (x least s)) {d : Draft}
    (h : d.current = .terminal .dot ∨ d.current = .terminal .atSign) :
    (Phrase.dispatch.run v x d).state.potential ≤ d.state.potential - 1 := by
  have hne : d.current ≠ .ending := by
    rcases h with h | h <;> rw [h] <;> decide
  obtain ⟨item, rest, hitems, -⟩ := items_of_current rfl hne
  have hleaf := potential_leaf d hitems none
  rcases h with hdot | hat
  · rw [run_dispatch_of_dot hdot]
    have hrun := Phrase.potential_run (v := v) hx .call (by decide)
      (Input.knows_nil (d.leaf none (.terminal .dot) false).state.input)
    have hcost : Phrase.call.cost [] = 4 := by decide
    have := hleaf (.terminal .dot) false
    omega
  · rw [run_dispatch_of_atSign hat, take]
    have hrun := Phrase.potential_run (v := v) hx typedCall (by decide)
      (Input.knows_nil (d.leaf none d.current.leafKind false).state.input)
    have hcost : typedCall.cost [] = 6 := by decide
    have := hleaf d.current.leafKind false
    omega

/-- What goes on with an expression costs nothing. -/
theorem potential_continued (hx : ∀ least s, Cheap s (x least s)) {least : Int} {d : Draft}
    {next : Continuation} (h : Continuation.of? v least d.current = some next) :
    (continued v x next d).state.potential ≤ d.state.potential := by
  rw [continued, potential_enclose]
  obtain ⟨hcall, rfl⟩ | ⟨o, ho, rfl⟩ := Continuation.of?_cases h
  · have hdispatch := potential_dispatch (v := v) hx
      (d := (blank d.state).attach (some .value) d) hcall
    rw [state_attach] at hdispatch
    dsimp only
    omega
  · let inside := (blank d.state).attach (some .left) d
    have hknows : inside.state.input.Knows [.within (.only o.terminal)] := Input.knows_only ho
    have hcost : (Phrase.binary o).cost [.within (.only o.terminal)] = -14 := by
      cases o <;> rfl
    have hrun : ((Phrase.binary o).run v x inside).state.potential ≤
        d.state.potential + (Phrase.binary o).cost [.within (.only o.terminal)] :=
      Phrase.potential_run hx (.binary o) rfl hknows
    rw [hcost] at hrun
    exact (Int.add_le_add_right hrun 1).trans (by omega)

theorem potential_climb (hx : ∀ least s, Cheap s (x least s)) (least : Int) (d : Draft) :
    (climb v x least d).state.potential ≤ d.state.potential := by
  fun_induction climb v x least d with
  | case1 d _ => exact le_rfl
  | case2 d next hnext _ _ _ ih => exact ih.trans (potential_continued hx hnext)
  | case3 d next hnext _ _ _ => exact potential_continued hx hnext

theorem cheap_tooDeep (s : State) : Cheap s (tooDeep s) := by
  have htooDeep := potential_tooDeep s
  refine ⟨by omega, fun hstart ↦ ?_⟩
  have hone := one_le_overrun hstart
  omega

theorem cheap_expression (v : Levels) (depth : Nat) (least : Int) (s : State) :
    Cheap s (Draft.expression v depth least s) := by
  induction depth generalizing least s with
  | zero => exact cheap_tooDeep s
  | succ depth ih =>
      have hclimb := potential_climb (v := v) ih least
        ((Phrase.opening s.input.current s.input.upcoming).run v (Draft.expression v depth)
          (blank s))
      obtain ⟨hone, hless⟩ := cheap_opens (v := v) ih (Phrase.opens_opening s.input)
      exact ⟨hclimb.trans hone, fun hstart ↦ hclimb.trans (hless hstart)⟩

end Draft

namespace Tree

/-- A file costs nothing beyond what its tokens pay. -/
theorem made_fileDraft_le (v : Levels) (depth : Nat) (a : Arrangement) :
    (fileDraft v depth a).state.made ≤ 16 * (a.items.map Item.weight).sum := by
  have hrun : (fileDraft v depth a).state.potential ≤
      (initialState a.items).potential + Phrase.file.cost [] :=
    Phrase.potential_run (cheap_expression v depth) .file Phrase.thrifty_file (Input.knows_nil _)
      (d := .blank (initialState a.items))
  have hcost : Phrase.file.cost [] = 0 := by decide
  have hinitial : (initialState a.items).potential = 16 * (a.items.map Item.weight).sum :=
    Int.zero_add _
  rw [hcost, hinitial, State.potential] at hrun
  omega

theorem sum_weight_le (items : List Item) : (items.map Item.weight).sum ≤
    (items.flatMap Item.tokens).length +
      ((items.flatMap Item.tokens).map (·.kind.partCount)).sum := by
  induction items with
  | nil => rfl
  | cons item rest ih =>
      simp only [List.map_cons, List.sum_cons, Item.weight, List.flatMap_cons, Item.tokens,
        List.length_append, List.map_append, List.sum_append, List.length_cons, List.length_nil,
        List.map_nil, List.sum_nil]
      omega

/-- The items of a source weigh no more than its tokens and the parts inside them. -/
theorem sum_weight_add_length_le (config : Config) (source : String) :
    ((arrangement config source).items.map Item.weight).sum +
        (arrangement config source).trailing.length ≤
      (Token.ofSource source.toList).length +
        ((Token.ofSource source.toList).map (·.kind.partCount)).sum := by
  have hsub : ((arrangement config source).items.flatMap Item.tokens ++
      (arrangement config source).trailing).Sublist (Token.ofSource source.toList) := by
    rw [arrangement, Arrangement.flatMap_tokens]
    refine List.filter_sublist.trans ?_
    unfold parsedTokens
    split
    · exact List.Sublist.refl _
    · exact List.filter_sublist
  have hlength := hsub.length_le
  have hparts := (hsub.map (·.kind.partCount)).sum_le_sum fun _ _ ↦ Nat.zero_le _
  have hitems := sum_weight_le (arrangement config source).items
  rw [List.length_append] at hlength
  rw [List.map_append, List.sum_append] at hparts
  omega

end Tree

/-- Parsing ends, and its tree is small. The file is executed, in one way only, to the draft whose
nodes are the children of the root; each round of each loop in it takes a token; and there are at
most sixteen nodes for each token and each part of a string literal, and sixteen more. Parsing goes
along with every execution. -/
theorem Parser.bounded_of_parse {p q : Parser} {l : Language} (hlanguage : p.setLanguage l = .ok q)
    (config : Config) (source : String) :
    ∃ tree, (q.setConfig config).parse? source = some tree ∧
      (let a := Tree.arrangement config source
      ∃ e k, Executes l.levels config.maxDepth Consumes (.phrase .file) 0
          (.blank (Tree.initialState a.items)) 0 e k ∧
        tree.root.children = (e.addComments a.trailing).nodes.toList ∧
        (Workspace.start a.items a.trailing).Reaches []
          (Phrase.file.build l.levels (Parsing.expression l.levels config.maxDepth) {}
            (.start a.items a.trailing)) e ∧
        ∀ R c e' k', Executes l.levels config.maxDepth R (.phrase .file) 0
          (.blank (Tree.initialState a.items)) c e' k' → e' = e) ∧
      (∀ R p c d c' e k, p.steady = true →
        Executes l.levels config.maxDepth R (.phrase p) c d c' e k →
        ∀ (w : Workspace) (rest : List Nat) (b : Builder), w.Shows rest b d → w.Reaches rest
          (p.build l.levels (Parsing.expression l.levels (config.maxDepth - c)) b w) e) ∧
      (Cursor.ofTree tree).descendants.length = tree.nodeCount ∧
      tree.nodeCount ≤ 16 * ((Token.ofSource source.toList).length +
        ((Token.ofSource source.toList).map (·.kind.partCount)).sum + 1) := by
  obtain ⟨k, hfile⟩ := Tree.executes_fileDraft l.levels config.maxDepth
    (Tree.arrangement config source)
  have hchildren := Tree.children_root_eq_draft l config source
  refine ⟨_, parse?_of_setLanguage hlanguage config source,
    ⟨_, k, hfile, hchildren, hfile.reaches Phrase.steady_file (Workspace.shows_start _),
      fun R c e' k' h ↦ (hfile.unique h).2.1⟩,
    fun R p c d c' e k hsteady h w rest b hw ↦ h.reaches hsteady hw,
    Tree.length_descendants (Tree.sound_parse l config source), ?_⟩
  have hmade := Tree.made_fileDraft_le l.levels config.maxDepth (Tree.arrangement config source)
  have hweight := Tree.sum_weight_add_length_le config source
  rw [Tree.nodeCount_parse, Tree.made_draft]
  omega

/-- A source in which nearly everything is missing. -/
theorem Parser.bounded_of_parse_broken :
    let s := "class A \x7b -- c\n f ( \"a\\nb"
    Parser.setLanguage {} .cool = .ok { language := some .cool } ∧
      (Token.ofSource s.toList).length = 8 ∧
      ((Token.ofSource s.toList).map (·.kind.partCount)).sum = 3 ∧
      ∃ tree, (Parser.setConfig { language := some .cool } ⟨1, true⟩).parse? s = some tree ∧
        tree.nodeCount = 27 ∧ tree.nodeCount ≤ 16 * (8 + 3 + 1) := by
  intro s
  have hlength : (Token.ofSource s.toList).length = 8 := by decide +kernel
  have hparts : ((Token.ofSource s.toList).map (·.kind.partCount)).sum = 3 := by decide +kernel
  obtain ⟨tree, htree, -, -, -, hbound⟩ := bounded_of_parse (setLanguage_cool {}) ⟨1, true⟩ s
  rw [hlength, hparts] at hbound
  refine ⟨setLanguage_cool {}, hlength, hparts, tree, htree, ?_, hbound⟩
  obtain rfl := Option.some.inj htree
  decide +kernel

end CoolTree
