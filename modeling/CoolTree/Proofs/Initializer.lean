import CoolTree.Proofs.Acceptance
import CoolTree.Proofs.Climbing
import CoolTree.Proofs.Kinship

/-!
# Chains as initializers

The initializer of an attribute is an expression that may be as loose as an assignment, and all
infix operators bind at least that tightly. So it takes a chain as a whole, wherever the attribute
is read.
-/

namespace CoolTree

open Grouping Draft

/-- The tokens of an attribute in front of its initializer. -/
structure Token.Heads (x colon type arrow : Token) : Prop where
  name : (Slot.attributeName.accepts? x.kind).isSome = true
  colon : colon.kind = .terminal .colon
  type : (Slot.typeName.accepts? type.kind).isSome = true
  arrow : arrow.kind = .terminal .assign

/-- The tokens in front of the initializer of a class with a single attribute. -/
inductive Token.Opens : List Token → Prop
  | mk {word name opening x colon type arrow : Token} (word_kind : word.kind = .terminal .classWord)
      (name_kind : (Slot.className.accepts? name.kind).isSome = true)
      (opening_kind : opening.kind = .terminal .leftBrace) (heads : Heads x colon type arrow) :
      Opens [word, name, opening, x, colon, type, arrow]

theorem Slot.isIdentifier_of_accepts? {k : TokenKind}
    (h : (attributeName.accepts? k).isSome = true) : k.isIdentifier = true := by
  cases k <;> first | rfl | cases h

theorem Phrase.not_has_featuresEnd {k : TokenKind} (h : k.isIdentifier = true) :
    featuresEnd.has k = false := by
  cases k <;> first | rfl | cases h

/-- An attribute whose only child in the role of a right side is drawn like a grouping, without
anything wrong in it. -/
def Node.Initializes (n : Node) (g : Grouping) : Prop :=
  n.kind = .attributeDeclaration ∧ ∃ others e, n.parts = others ++ [e] ∧
    (∀ k ∈ others, k.field? ≠ some .right) ∧ e.field? = some .right ∧ e.isFaulty = false ∧ e.Draws g

namespace Draft

variable {v : Levels} {errors : List SyntaxError} {depth : Nat} {d : Draft} {ps : List Node}
  {x colon type arrow first stop : Token} {links : List Link} {behind : List Token}

/-- An attribute whose initializer is a chain, wherever it is read. -/
theorem flawless_attributeItem (hv : v.Exact) (hassign : ∀ o, v.assign ≤ (v.operator o).strength)
    (hheads : Token.Heads x colon type arrow) (hfirst : first.kind.operandKind?.isSome = true)
    (hlinks : ∀ l ∈ links, l.Written) (hstop : stop.kind.EndsChain) (hdepth : links.length < depth)
    (h : Flawless errors d ps (x :: colon :: type :: arrow :: first ::
      (links.flatMap Link.tokens ++ stop :: behind))) :
    ∃ qs e, Flawless errors (Phrase.attributeItem.run v (Draft.expression v depth) d)
        (ps ++ qs ++ [e]) (stop :: behind) ∧
      (∀ n ∈ qs, n.field? ≠ some .right) ∧ e.field? = some .right ∧
      e.Draws (ofChain v first links) := by
  obtain ⟨xkind, hx⟩ := Option.isSome_iff_exists.mp hheads.name
  obtain ⟨tkind, ht⟩ := Option.isSome_iff_exists.mp hheads.type
  have hname := h.word hx (some .name)
  have hcolon := hname.expect hheads.colon
  have htype := hcolon.word ht (some .type)
  have harrow := htype.take none
  obtain ⟨node, hnode, hdraws⟩ := takesChains_expression hv depth (v.bound .assign) _ first links
    stop behind hdepth hfirst hlinks hstop harrow.ahead
  have hall : ∀ l ∈ links, l.binds v (v.bound .assign) = true :=
    fun l _ ↦ decide_eq_true (hassign _)
  rw [List.takeWhile_eq_self_iff.mpr hall] at hdraws
  rw [List.dropWhile_eq_nil_iff.mpr hall] at hnode
  have hwhole := harrow.attach (harrow.errors_eq ▸ hnode) (some .right)
  have htest : (Test.within (.only .assign)).holds (((d.word (some .name) .attributeName).expect
      .colon).word (some .type) .typeName).state.input = true := by
    rw [Test.holds, htype.ahead.current, hheads.arrow]
    rfl
  refine ⟨[.ofToken xkind (some .name) x, .ofToken (.terminal .colon) none colon,
    .ofToken tkind (some .type) type, .ofToken arrow.kind.leafKind none arrow],
    node.assign (some .right), ?_, ?_, ?_, hdraws.assign _⟩
  · simp only [Phrase.attributeItem, Phrase.initializer, Phrase.run, htest, if_true]
    simpa using hwhole
  · simp [Node.ofToken, Node.field?]
  · exact Node.field_assign (hnode.not_isExtra node List.mem_cons_self) _

theorem flawless_feature (hv : v.Exact) (hassign : ∀ o, v.assign ≤ (v.operator o).strength)
    (hheads : Token.Heads x colon type arrow) (hfirst : first.kind.operandKind?.isSome = true)
    (hlinks : ∀ l ∈ links, l.Written) (hstop : stop.kind = .terminal .semicolon)
    (hdepth : links.length < depth)
    (h : Flawless errors d ps (x :: colon :: type :: arrow :: first ::
      (links.flatMap Link.tokens ++ stop :: behind))) :
    ∃ n k, Flawless errors (Phrase.feature.run v (Draft.expression v depth) d) (ps ++ [n] ++ [k])
        behind ∧ n.Initializes (ofChain v first links) := by
  have hchain : stop.kind.EndsChain := hstop ▸ TokenKind.endsChain_semicolon
  have hblank := Flawless.blank h.ahead
  obtain ⟨others, e, hitem, hothers, hfield, hdraws⟩ :=
    flawless_attributeItem hv hassign hheads hfirst hlinks hchain hdepth hblank
  obtain ⟨n, hnode, hkind, hparts⟩ := h.node (h.errors_eq ▸ hitem) none .attributeDeclaration
  have hend := hnode.expect hstop
  have htest : (Test.ahead (.only .leftParen)).holds d.state.input = false := by
    rw [Test.holds, h.ahead.upcoming, hheads.colon]
    rfl
  refine ⟨n, .ofToken (.terminal .semicolon) none stop, ?_, hkind, others, e, hparts,
    hothers, hfield, ?_, hdraws⟩
  · simp only [Phrase.feature, Phrase.run, htest]
    exact hend
  · exact hitem.not_isFaulty e (by simp)

/-- A list of features with a single attribute. -/
theorem flawless_features (hv : v.Exact) (hassign : ∀ o, v.assign ≤ (v.operator o).strength)
    (hheads : Token.Heads x colon type arrow) (hfirst : first.kind.operandKind?.isSome = true)
    (hlinks : ∀ l ∈ links, l.Written) (hstop : stop.kind = .terminal .semicolon)
    (hdepth : links.length < depth) {opening closing : Token}
    (hopening : opening.kind = .terminal .leftBrace)
    (hclosing : closing.kind = .terminal .rightBrace)
    (h : Flawless errors d ps (opening :: x :: colon :: type :: arrow :: first ::
      (links.flatMap Link.tokens ++ stop :: closing :: behind))) :
    ∃ ns, Flawless errors (Phrase.features.run v (Draft.expression v depth) d) (ps ++ ns) behind ∧
      ∃ n ∈ ns, n.Initializes (ofChain v first links) := by
  have hopen := h.expect hopening
  obtain ⟨n, k, hfeature, hn⟩ :=
    flawless_feature hv hassign hheads hfirst hlinks hstop hdepth hopen
  have hclose := hfeature.expect hclosing
  have hname := Slot.isIdentifier_of_accepts? hheads.name
  have htest :
      (Test.outside Phrase.featuresEnd).holds (d.expect .leftBrace).state.input = true := by
    rw [Test.holds, hopen.ahead.current, Phrase.not_has_featuresEnd hname]
    rfl
  have hwithin : (Test.within .identifier).holds (d.expect .leftBrace).state.input = true := by
    rw [Test.holds, hopen.ahead.current]
    exact hname
  have hbody := Flawless.choose hwithin hfeature
    (.skip (.either .identifier (.either (.only .rightBrace) (.only .classWord))) .done)
  refine ⟨[.ofToken (.terminal .leftBrace) none opening, n, k,
    .ofToken (.terminal .rightBrace) none closing], ?_, n, by simp, hn⟩
  rw [Phrase.features, Phrase.run, Phrase.run_loop_once hopen hbody htest ?hend (by simp; omega),
    Phrase.run_choose_pos hwithin]
  case hend =>
    rw [Test.holds, hbody.ahead.current, hclosing]
    rfl
  simpa [Phrase.run] using hclose

/-- A class with a single attribute. -/
theorem flawless_classItem (hv : v.Exact) (hassign : ∀ o, v.assign ≤ (v.operator o).strength)
    (hheads : Token.Heads x colon type arrow) (hfirst : first.kind.operandKind?.isSome = true)
    (hlinks : ∀ l ∈ links, l.Written) (hstop : stop.kind = .terminal .semicolon)
    (hdepth : links.length < depth) {word name opening closing last : Token}
    (hname : (Slot.className.accepts? name.kind).isSome = true)
    (hopening : opening.kind = .terminal .leftBrace)
    (hclosing : closing.kind = .terminal .rightBrace) (hlast : last.kind = .terminal .semicolon)
    (h : Flawless errors d [] (word :: name :: opening :: x :: colon :: type :: arrow :: first ::
      (links.flatMap Link.tokens ++ stop :: closing :: last :: behind))) :
    ∃ ms, Flawless errors (Phrase.classItem.run v (Draft.expression v depth) d) ms behind ∧
      ∃ m ∈ ms, ∃ n ∈ m.parts, n.Initializes (ofChain v first links) := by
  obtain ⟨kind, hslot⟩ := Option.isSome_iff_exists.mp hname
  have htake := h.take none
  have hclass := htake.word hslot (some .name)
  obtain ⟨ns, hfeatures, n, hn, hinit⟩ := flawless_features hv hassign hheads hfirst hlinks hstop
    hdepth hopening hclosing (Flawless.blank hclass.ahead)
  obtain ⟨m, hlist, -, hparts⟩ :=
    hclass.node (hclass.errors_eq ▸ hfeatures) (some .features) .fieldDeclarationList
  have hend := hlist.expect hlast
  have hinherits : (Test.within (.only .inheritsWord)).holds
      ((d.take none).word (some .name) .className).state.input = false := by
    rw [Test.holds, hclass.ahead.current, hopening]
    rfl
  rw [Phrase.classItem, Phrase.run, Phrase.run, Phrase.run_choose_neg hinherits]
  exact ⟨_, hend, m, by simp, n, hparts ▸ hn, hinit⟩

/-- A file whose only class has a single attribute. -/
theorem flawless_file (hv : v.Exact) (hassign : ∀ o, v.assign ≤ (v.operator o).strength)
    (hfirst : first.kind.operandKind?.isSome = true) (hlinks : ∀ l ∈ links, l.Written)
    (hdepth : links.length < depth) {before : List Token} (hbefore : Token.Opens before)
    (hbehind : behind.map (·.kind) =
      [.terminal .semicolon, .terminal .rightBrace, .terminal .semicolon]) {s : State}
    (h : s.Ahead (before ++ first :: (links.flatMap Link.tokens ++ behind))) :
    ∃ c, Flawless s.errors (Phrase.file.run v (Draft.expression v depth) (.blank s)) [c] [] ∧
      ∃ m ∈ c.parts, ∃ n ∈ m.parts, n.Initializes (ofChain v first links) := by
  obtain ⟨hword, hname, hopening, hheads⟩ := hbefore
  obtain ⟨stop, _, rfl, hstop, hrest⟩ := List.map_eq_cons_iff.mp hbehind
  obtain ⟨closing, _, rfl, hclosing, hrest⟩ := List.map_eq_cons_iff.mp hrest
  obtain ⟨last, _, rfl, hlast, hrest⟩ := List.map_eq_cons_iff.mp hrest
  obtain rfl := List.map_eq_nil_iff.mp hrest
  have hblank := Flawless.blank h
  obtain ⟨ms, hitem, hm⟩ := flawless_classItem hv hassign hheads hfirst hlinks hstop hdepth hname
    hopening hclosing hlast hblank
  obtain ⟨c, hnode, -, hparts⟩ := hblank.node hitem none .classItem
  have hcurrent : s.input.current = .terminal .classWord := h.current.trans hword
  have hwithin : (Test.within (.only .classWord)).holds (blank s).state.input = true := by
    rw [Test.holds, state_blank, hcurrent]
    rfl
  have hbody : Flawless s.errors ((Phrase.choose (.within (.only .classWord))
      (.node none .classItem Phrase.classItem .done) (.skip (.only .classWord) .done) .done).run v
        (Draft.expression v depth) (.blank s)) [c] [] := Flawless.choose hwithin hnode _
  refine ⟨c, ?_, hparts ▸ hm⟩
  rw [Phrase.file, Phrase.run_loop_once hblank hbody ?htest ?hend (by simp)]
  case htest =>
    rw [Test.holds, state_blank, hcurrent]
    rfl
  case hend =>
    rw [Test.holds, hbody.ahead.current_nil]
    rfl
  exact hbody

end Draft

theorem Field.label_injective : Function.Injective label := by
  intro f g h
  cases f <;> cases g <;> first | rfl | simp [label] at h

/-- The only child in a role is found there. -/
theorem Cursor.Stands.childByField?_eq {c : Cursor} (h : c.Stands)
    (hl : ∀ f : Field, (c.tree.language.fieldNumber? f.label).isSome = true)
    (hextra : ∀ k ∈ c.node.children, k.isExtra = true → k.field? = none) {f : Field}
    {others : List Node} {e : Node} (hparts : c.node.parts = others ++ [e])
    (hothers : ∀ k ∈ others, k.field? ≠ some f) (he : e.field? = some f) :
    ∃ k, c.childByField? f.label = some k ∧ k.node = e := by
  let plays (n : Node) : Bool := n.field?.any (·.label == f.label)
  have hplays : ∀ n : Node, plays n = true ↔ n.field? = some f := by
    intro n
    simp [plays, Option.any_eq_true, Field.label_injective.eq_iff]
  have hnodes : (c.childrenByField f.label).map (·.node) = [e] := by
    calc
      (c.childrenByField f.label).map (·.node) = c.node.children.filter plays :=
        h.map_node_childrenByField hl f.label
      _ = c.node.parts.filter plays := by
        rw [Node.parts, List.filter_filter]
        refine List.filter_congr fun n hn ↦ ?_
        cases hn' : n.isExtra with
        | true => simp [plays, hextra n hn hn']
        | false => simp
      _ = [e] := by
        rw [hparts, List.filter_append, List.filter_eq_nil_iff.mpr fun n hn h ↦
          hothers n hn ((hplays n).mp h), List.filter_cons_of_pos ((hplays e).mpr he)]
        rfl
  obtain ⟨k, hk, rfl⟩ := List.map_eq_singleton_iff.mp hnodes
  exact ⟨k, by rw [childByField?, hk]; rfl, rfl⟩

namespace Tree

theorem ahead_initialState (config : Config) (source : String) :
    (initialState (arrangement config source).items).Ahead (Token.significant source.toList) :=
  ⟨map_token_arrangement config source, (openLast_parsedTokens config source).closed_of_mem⟩

/-- In the tree of a class with a single attribute there is this attribute, and the source has
nothing wrong in it but comments. -/
theorem initializes_parse {l : Language} (hexact : l.levels.Exact)
    (hassign : ∀ o, l.levels.assign ≤ (l.levels.operator o).strength) {config : Config}
    {first : Token} {links : List Link} (hfirst : first.kind.operandKind?.isSome = true)
    (hlinks : ∀ k ∈ links, k.Written) (hdepth : links.length < config.maxDepth) {source : String}
    {before behind : List Token} (hbefore : Token.Opens before)
    (hbehind : behind.map (·.kind) =
      [.terminal .semicolon, .terminal .rightBrace, .terminal .semicolon])
    (hsource : Token.significant source.toList =
      before ++ first :: (links.flatMap Link.tokens ++ behind)) :
    (∀ e ∈ (parse l config source).errors, e.problem = .unterminatedComment) ∧
      ∃ n ∈ (parse l config source).root.preorder,
        n.Initializes (ofChain l.levels first links) := by
  let root := (parse l config source).root
  obtain ⟨item, hfile, list, hlist, n, hn, hinit⟩ := flawless_file hexact hassign hfirst hlinks
    hdepth hbefore hbehind (hsource ▸ ahead_initialState config source)
  refine ⟨fun e he ↦ ?_, n, ?_, hinit⟩
  · rw [(perm_errors l config source).mem_iff, fileDraft, hfile.errors_eq] at he
    obtain ⟨t, -, rfl⟩ := List.mem_map.mp he
    rfl
  · have hitem : item ∈ root.children := by
      rw [children_root_parse]
      exact List.mem_append_left _ (hfile.mem_nodes (List.mem_singleton_self item)).1
    have hlist' := Node.mem_preorder_of_mem_children
      (Node.mem_preorder_of_mem_children root.self_mem_preorder hitem) (List.mem_filter.mp hlist).1
    exact Node.mem_preorder_of_mem_children hlist' (List.mem_filter.mp hn).1

end Tree

/-- Operators group as their levels say if none of them is looser than an assignment and none has
the largest level there is. Wherever an attribute is read whose initializer is a chain of operands
and operators, and if as many expressions may stand inside one another as there are operands, the
initializer is drawn like the grouping of the chain, and nothing is wrong in it; and a builder comes
to have the nodes that are drafted so. So it is in the tree of a class with such an attribute. -/
theorem Parser.grouping_of_parse {p q : Parser} {l : Language} (hlanguage : p.setLanguage l = .ok q)
    (hassign : ∀ o, l.levels.assign ≤ (l.levels.operator o).strength)
    (hmax : ∀ o, (l.levels.operator o).strength < Int32.maxValue.toInt) (config : Config)
    {first : Token} {links : List Link} (hfirst : first.kind.operandKind?.isSome = true)
    (hlinks : ∀ k ∈ links, k.Written) (hdepth : links.length + 1 ≤ config.maxDepth) :
    (∀ (s : State) (x colon type arrow stop : Token) (behind : List Token),
      Token.Heads x colon type arrow → stop.kind.EndsChain →
      s.Ahead (x :: colon :: type :: arrow :: first ::
        (links.flatMap Link.tokens ++ stop :: behind)) →
      ∃ others e, Flawless s.errors (Phrase.attributeItem.run l.levels
          (Draft.expression l.levels config.maxDepth) (.blank s)) (others ++ [e])
          (stop :: behind) ∧
        e.field? = some .right ∧ e.Draws (ofChain l.levels first links) ∧
        ∀ (w : Workspace) (rest : List Nat), w.Shows rest {} (.blank s) → w.Reaches rest
          (Phrase.attributeItem.build l.levels (Parsing.expression l.levels config.maxDepth) {} w)
          (Phrase.attributeItem.run l.levels (Draft.expression l.levels config.maxDepth)
            (.blank s))) ∧
    ∀ (source : String) (before behind : List Token), Token.Opens before →
      behind.map (·.kind) = [.terminal .semicolon, .terminal .rightBrace, .terminal .semicolon] →
      Token.significant source.toList =
        before ++ first :: (links.flatMap Link.tokens ++ behind) →
      ∃ tree, (q.setConfig config).parse? source = some tree ∧
        (∀ e ∈ tree.errors, e.problem = .unterminatedComment) ∧
        ∃ c ∈ (Cursor.ofTree tree).descendants, c.node.kind = .attributeDeclaration ∧
          ∃ e, c.childByField? "right" = some e ∧ e.node.isFaulty = false ∧
            e.node.Draws (ofChain l.levels first links) := by
  have hexact := Language.exact_levels hmax
  refine ⟨fun s x colon type arrow stop behind hheads hstop hs ↦ ?_,
    fun source before behind hbefore hbehind hsource ↦ ?_⟩
  · obtain ⟨others, e, hitem, -, hfield, hdraws⟩ := flawless_attributeItem hexact hassign hheads
      hfirst hlinks hstop hdepth (Flawless.blank hs)
    exact ⟨others, e, hitem, hfield, hdraws, fun w rest hw ↦
      hw.build (Workspace.expresses_expression l.levels config.maxDepth) .attributeItem⟩
  · let tree := Tree.parse l config source
    obtain ⟨herrors, n, hn, hkind, others, e, hparts, hothers, hfield, hfaulty, hdraws⟩ :=
      Tree.initializes_parse hexact hassign hfirst hlinks hdepth hbefore hbehind hsource
    have hsound := Tree.sound_parse l config source
    have htop := Tree.stands_parse l config source
    rw [← Tree.map_node_descendants hsound] at hn
    obtain ⟨c, hc, rfl⟩ := List.mem_map.mp hn
    have hextra : ∀ k ∈ c.node.children, k.isExtra = true → k.field? = none := fun k hk ↦
      Tree.roleless_parse l config source k (Node.mem_preorder_of_mem_children
        (Tree.mem_preorder_of_mem_descendants hsound hc) hk)
    have hl : ∀ f : Field, (c.tree.language.fieldNumber? f.label).isSome = true := by
      rw [(htop.mem_descendants_iff.mp hc).1]
      exact Language.fieldNumber?_isSome hlanguage
    obtain ⟨k, hchild, rfl⟩ := (htop.of_mem_descendants hc).childByField?_eq hl hextra hparts
      hothers hfield
    exact ⟨tree, parse?_of_setLanguage hlanguage config source, herrors, c, hc, hkind, k, hchild,
      hfaulty, hdraws⟩

theorem Parser.grouping_of_parse_three_operators :
    let a : Token := ⟨[' '], ⟨19, 0, 19⟩, .identifier, ['a']⟩
    let one : Token := ⟨[' '], ⟨23, 0, 23⟩, .integer, ['1']⟩
    let self : Token := ⟨[' '], ⟨27, 0, 27⟩, .selfWord, ['s', 'e', 'l', 'f']⟩
    let two : Token := ⟨[' '], ⟨34, 0, 34⟩, .integer, ['2']⟩
    let minus : Token := ⟨[' '], ⟨21, 0, 21⟩, .terminal .minus, ['-']⟩
    let next : Token := ⟨[' '], ⟨25, 0, 25⟩, .terminal .minus, ['-']⟩
    let times : Token := ⟨[' '], ⟨32, 0, 32⟩, .terminal .star, ['*']⟩
    Parser.setLanguage {} .cool = .ok { language := some .cool } ∧
      ∃ tree, (Parser.setConfig { language := some .cool } ⟨4, true⟩).parse?
          "class A \x7b x : B <- a - 1 - self * 2; \x7d;" = some tree ∧
        ∃ c ∈ (Cursor.ofTree tree).descendants, ∃ e, c.childByField? "right" = some e ∧
          e.node.isFaulty = false ∧
          e.node.Draws (.binary (.binary (.operand a) .minus minus (.operand one)) .minus next
            (.binary (.operand self) .times times (.operand two))) := by
  intro a one self two minus next times
  let source := "class A \x7b x : B <- a - 1 - self * 2; \x7d;"
  let links : List Link := [⟨.minus, minus, one⟩, ⟨.minus, next, self⟩, ⟨.times, times, two⟩]
  have hassign : ∀ o, Language.cool.levels.assign ≤ (Language.cool.levels.operator o).strength := by
    rw [Language.levels_cool]
    intro o
    cases o <;> decide
  have hmax : ∀ o, (Language.cool.levels.operator o).strength < Int32.maxValue.toInt := by
    rw [Language.levels_cool]
    intro o
    cases o <;> decide
  have hlinks : ∀ k ∈ links, k.Written := by
    simp only [links, List.forall_mem_cons]
    exact ⟨⟨rfl, rfl⟩, ⟨rfl, rfl⟩, ⟨rfl, rfl⟩, by simp⟩
  let before : List Token :=
    [⟨[], ⟨0, 0, 0⟩, .terminal .classWord, ['c', 'l', 'a', 's', 's']⟩,
      ⟨[' '], ⟨6, 0, 6⟩, .typeIdentifier, ['A']⟩,
      ⟨[' '], ⟨8, 0, 8⟩, .terminal .leftBrace, ['\x7b']⟩,
      ⟨[' '], ⟨10, 0, 10⟩, .identifier, ['x']⟩, ⟨[' '], ⟨12, 0, 12⟩, .terminal .colon, [':']⟩,
      ⟨[' '], ⟨14, 0, 14⟩, .typeIdentifier, ['B']⟩,
      ⟨[' '], ⟨16, 0, 16⟩, .terminal .assign, ['<', '-']⟩]
  let behind : List Token :=
    [⟨[], ⟨35, 0, 35⟩, .terminal .semicolon, [';']⟩,
      ⟨[' '], ⟨37, 0, 37⟩, .terminal .rightBrace, ['\x7d']⟩,
      ⟨[], ⟨38, 0, 38⟩, .terminal .semicolon, [';']⟩]
  have hbefore : Token.Opens before := .mk rfl rfl rfl ⟨rfl, rfl, rfl, rfl⟩
  have hsource : Token.significant source.toList =
      before ++ a :: (links.flatMap Link.tokens ++ behind) := by
    decide +kernel
  have hgrouping : ofChain Language.cool.levels a links =
      .binary (.binary (.operand a) .minus minus (.operand one)) .minus next
        (.binary (.operand self) .times times (.operand two)) := by
    rw [Language.levels_cool]
    decide +kernel
  have hfirst : a.kind.operandKind?.isSome = true := rfl
  obtain ⟨-, hparse⟩ := grouping_of_parse (setLanguage_cool {}) hassign hmax ⟨4, true⟩ hfirst
    hlinks (by decide)
  obtain ⟨tree, htree, -, c, hc, -, e, he, hfaulty, hdraws⟩ :=
    hparse source before behind hbefore rfl hsource
  exact ⟨setLanguage_cool {}, tree, htree, c, hc, e, he, hfaulty, hgrouping ▸ hdraws⟩

end CoolTree
