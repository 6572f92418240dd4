import CoolTree.Proofs.Leaves
import CoolTree.Proofs.Packaged
import CoolTree.Proofs.Rooted

/-!
# Trees lose nothing

Whatever tokens a draft takes, its leaves show their pieces, comments included, each once and in
their order. A file takes all tokens, so a syntax tree shows every token of its source.
-/

namespace CoolTree

def Item.pieces (item : Item) : List Piece :=
  item.tokens.flatMap Token.pieces

theorem Span.not_isEmpty_after (p : Position) {text : List Char} (h : text ≠ []) :
    (Span.mk p (p.after text)).isEmpty = false :=
  decide_eq_false (Nat.not_le.mpr (p.offset_lt_after h))

theorem Item.Sound.name_toList {item : Item} (h : item.Sound) {t : Terminal}
    (hkind : item.token.kind = .terminal t) {kind : Kind} (hname : kind = .terminal t) :
    kind.name.toList = item.token.text := by
  have hspells := hkind ▸ h.spells
  rw [hname]
  exact hspells.symm

namespace Token

theorem pieces_of_not_string {t : Token} (h : ∀ parts closed, t.kind ≠ .string parts closed) :
    t.pieces = [⟨t.span, t.text⟩] := by
  unfold pieces
  split
  · rename_i parts closed hkind
    exact (h parts closed hkind).elim
  · rfl

theorem pieces_of_isComment {t : Token} (h : t.kind.isComment = true) :
    t.pieces = [⟨t.span, t.text⟩] := by
  refine pieces_of_not_string fun parts closed hkind ↦ ?_
  simp [hkind, TokenKind.isComment] at h

theorem span_nonempty {t : Token} (h : t.kind.Spells t.text) (hk : t.kind ≠ .ending) :
    t.span.isEmpty = false :=
  Span.not_isEmpty_after t.start (h.ne_nil hk)

end Token

namespace Node

/-- A leaf with the span of a token shows it, whatever was read before. -/
theorem reads_token {t : Token} {label : Label} (hspan : label.span = t.span)
    (hextra : label.extra = false) (hmissing : label.missing = false)
    (hspells : t.kind.Spells t.text) (hsignificant : t.kind.isSignificant = true)
    (hstring : ∀ parts closed, t.kind ≠ .string parts closed)
    (hname : label.kind.isNamed = false → label.kind.name.toList = t.text) (p : Position) :
    Reads p (preorder (.mk label [])) t.pieces t.stop := by
  have hne := TokenKind.IsSignificant.ne_ending hsignificant
  have hempty := Token.span_nonempty hspells hne
  rw [Token.pieces_of_not_string hstring, preorder_mk, preorders_nil]
  exact .leaf (by simp [isLeaf, span, hspan, hempty]) hextra hmissing ⟨hspan, hname⟩ (.nil _)

theorem reads_ofComments {cs : List Token} (hcomment : ∀ c ∈ cs, c.kind.isComment = true)
    (hspells : ∀ c ∈ cs, c.kind.Spells c.text) (p : Position) :
    Reads p (preorders (ofComments cs)) (cs.flatMap Token.pieces) p := by
  induction cs with
  | nil => exact .nil p
  | cons c cs ih =>
      obtain ⟨hc, hcs⟩ := List.forall_mem_cons.mp hcomment
      obtain ⟨hspell, hspells⟩ := List.forall_mem_cons.mp hspells
      have hempty := Token.span_nonempty hspell (TokenKind.ne_ending_of_isComment hc)
      have hnamed : c.kind.leafKind.isNamed = true := by
        cases hk : c.kind <;> simp_all [TokenKind.isComment, TokenKind.leafKind, Kind.isNamed]
      rw [List.flatMap_cons, Token.pieces_of_isComment hc]
      refine .comment ?_ rfl rfl ⟨rfl, ?_⟩ (ih hcs hspells)
      · simp [isLeaf, span, hempty]
      · simp [kind, hnamed]

theorem reads_ofPieces {pieces : List (Kind × List Char)} (hne : ∀ piece ∈ pieces, piece.2 ≠ [])
    (hname : ∀ piece ∈ pieces, piece.1.isNamed = false → piece.1.name.toList = piece.2)
    (p : Position) :
    Reads p (preorders (ofPieces p pieces)) (Piece.row p (pieces.map Prod.snd))
      (p.after (pieces.flatMap Prod.snd)) := by
  induction pieces generalizing p with
  | nil => exact .nil p
  | cons piece pieces ih =>
      obtain ⟨kind, text⟩ := piece
      obtain ⟨htext, hne⟩ := List.forall_mem_cons.mp hne
      obtain ⟨hshows, hname⟩ := List.forall_mem_cons.mp hname
      rw [List.flatMap_cons, Position.after_append]
      refine .leaf ?_ rfl rfl ⟨rfl, hshows⟩ (ih hne hname _)
      simp [isLeaf, span, Span.not_isEmpty_after p htext]

theorem reads_absentAt (field : Option Field) (kind : Kind) (p : Position) :
    Reads p (preorders [absentAt field kind p]) [] p :=
  .missing rfl rfl (.nil p)

end Node

namespace Draft

@[simp] theorem isNamed_fst_piece (part : BodyPart) : part.piece.1.isNamed = true := by
  cases part <;> rfl

theorem reads_literalNode {item : Item} (hitem : item.Sound) {parts : List BodyPart}
    {closed : Bool} (hkind : item.token.kind = .string parts closed) (p : Position) :
    Node.Reads p (literalNode item parts closed).preorder item.token.pieces item.token.stop := by
  let pieces := BodyPart.pieces parts closed
  have hspells := hkind ▸ hitem.spells
  have hne : ∀ piece ∈ pieces, piece.2 ≠ [] := by
    have hparts := hspells.2
    cases closed <;> simpa [pieces, BodyPart.pieces, or_imp, forall_and] using hparts
  have hname : ∀ piece ∈ pieces, piece.1.isNamed = false → piece.1.name.toList = piece.2 := by
    cases closed <;> simp [pieces, BodyPart.pieces, or_imp, forall_and, Kind.name]
  have hrow : item.token.pieces = Piece.row item.token.start (pieces.map Prod.snd) := by
    cases closed <;> simp [Token.pieces, hkind, pieces, BodyPart.pieces, Function.comp_def]
  have hstop : item.token.stop = item.token.start.after (pieces.flatMap Prod.snd) := by
    rw [Token.stop, hspells.1, flatMap_snd_literalPieces]
  have hread : Node.Reads p (Node.preorders (Node.ofPieces item.token.start pieces))
      item.token.pieces item.token.stop := by
    rw [hrow, hstop]
    refine (Node.reads_ofPieces hne hname item.token.start).rebase ?_ rfl p
    have hquote := Span.not_isEmpty_after item.token.start (List.cons_ne_nil '"' [])
    simpa [Node.isLeaf, Node.span] using hquote
  have hend : Node.Reads item.token.stop
      (Node.preorders (if closed then [] else [Node.absentAt none .quote item.token.stop])) []
        item.token.stop := by
    cases closed
    · exact Node.reads_absentAt none .quote _
    · exact .nil _
  have hchildren : literalChildren item parts closed ≠ [] := by
    simp [literalChildren, BodyPart.pieces, Node.ofPieces]
  have hwhole := hread.append hend
  rw [← Node.preorders_append, List.append_nil] at hwhole
  rw [Node.preorder_eq]
  exact .inner (by simp [literalNode, Node.isLeaf, hchildren]) rfl hwhole

/-- An enclosing node is no leaf: without children it covers nothing. -/
theorem isLeaf_enclosure (d : Draft) (kind : Kind) (faulty : Bool) :
    (d.enclosure kind faulty).isLeaf = false := by
  by_cases h : (d.enclosure kind faulty).children = []
  · have hspan : (d.enclosure kind faulty).span = .emptyAt d.state.reached := by
      rw [span_enclosure, show d.nodes.toList.dropWhile Node.isExtra = [] from h]
      rfl
    exact Node.isLeaf_of_span_eq_emptyAt hspan
  · simp [Node.isLeaf, h]

/-- A draft shows what was taken since a state. -/
def Keeps (s : State) (d : Draft) : Prop :=
  ∃ taken, s.input.items = taken ++ d.state.input.items ∧
    Node.Reads s.reached (Node.preorders d.nodes.toList) (taken.flatMap Item.pieces) d.state.reached

namespace Keeps

variable {s : State} {d : Draft}

theorem blank (s : State) : Keeps s (blank s) :=
  ⟨[], rfl, .nil _⟩

theorem sound (h : Keeps s d) (hs : ∀ item ∈ s.input.items, item.Sound) :
    ∀ item ∈ d.state.input.items, item.Sound := by
  obtain ⟨taken, hitems, -⟩ := h
  intro item hitem
  exact hs item (hitems ▸ List.mem_append_right taken hitem)

theorem pass (h : Keeps s d) {item : Item} {rest : List Item}
    (hitems : d.state.input.items = item :: rest) (hitem : item.Sound) {d' : Draft} {node : Node}
    (hnodes : d'.nodes.toList = d.nodes.toList ++ Node.ofComments item.comments ++ [node])
    (hinput : d'.state.input = d.state.input.tail) (hreached : d'.state.reached = item.token.stop)
    (hnode : ∀ p, Node.Reads p node.preorder item.token.pieces item.token.stop) : Keeps s d' := by
  obtain ⟨taken, htaken, hreads⟩ := h
  refine ⟨taken ++ [item], by simp [htaken, hinput, hitems], ?_⟩
  have hcomments := Node.reads_ofComments hitem.isComment hitem.spells_comment d.state.reached
  have hwhole := (hreads.append hcomments).append (hnode _)
  rw [hnodes, hreached]
  simpa [Item.pieces, Item.tokens] using hwhole

theorem leaf (h : Keeps s d) {item : Item} {rest : List Item}
    (hitems : d.state.input.items = item :: rest) (hitem : item.Sound)
    (hstring : ∀ parts closed, item.token.kind ≠ .string parts closed) (field : Option Field)
    {kind : Kind} (hname : kind.isNamed = false → kind.name.toList = item.token.text)
    (faulty : Bool) : Keeps s (d.leaf field kind faulty) := by
  refine h.pass hitems hitem (toList_nodes_leaf d hitems field kind faulty) ?_ ?_ fun p ↦ ?_
  · rw [state_leaf d hitems]
  · rw [state_leaf d hitems]
  · exact Node.reads_token rfl rfl rfl hitem.spells hitem.isSignificant hstring hname p

theorem literal (h : Keeps s d) {item : Item} {rest : List Item}
    (hitems : d.state.input.items = item :: rest) (hitem : item.Sound) {parts : List BodyPart}
    {closed : Bool} (hkind : item.token.kind = .string parts closed) :
    Keeps s (d.stringLiteral item parts closed) := by
  obtain ⟨hnodes, hinput, hreached, -⟩ := stringLiteral_eq d item parts closed
  exact h.pass hitems hitem hnodes hinput hreached (reads_literalNode hitem hkind)

theorem tokenNode (h : Keeps s d) (hd : ∀ item ∈ d.state.input.items, item.Sound) :
    Keeps s d.tokenNode := by
  cases hitems : d.state.input.items with
  | nil => rwa [tokenNode_of_nil d hitems]
  | cons item rest =>
      have hitem : item.Sound := hd item (by simp [hitems])
      rcases tokenNode_cases d hitems with ⟨parts, closed, hkind, heq⟩ | ⟨faulty, hkind, heq, -⟩
      · rw [heq]
        exact h.literal hitems hitem hkind
      · rw [heq]
        refine h.leaf hitems hitem hkind none (fun hnamed ↦ ?_) faulty
        obtain ⟨t, ht⟩ : ∃ t, item.token.kind = .terminal t := by
          cases hk : item.token.kind <;> simp_all [TokenKind.leafKind, Kind.isNamed]
        exact hitem.name_toList ht (congrArg _ ht)

theorem tokenNodes (h : Keeps s d) (hs : ∀ item ∈ s.input.items, item.Sound) (n : Nat) :
    Keeps s (d.tokenNodes n) := by
  induction n generalizing d with
  | zero => exact h
  | succ n ih => exact ih (h.tokenNode (h.sound hs))

theorem enclose (h : Keeps s d) (kind : Kind) (faulty : Bool) :
    Keeps s (d.enclose kind faulty) := by
  obtain ⟨taken, hitems, hreads⟩ := h
  refine ⟨taken, hitems, ?_⟩
  rw [← List.takeWhile_append_dropWhile (p := Node.isExtra) (l := d.nodes.toList),
    Node.preorders_append] at hreads
  rw [toList_nodes_enclose, Node.preorders_append, Node.preorders_cons, Node.preorder_eq,
    Node.preorders_nil, List.append_nil]
  exact hreads.insert (isLeaf_enclosure d kind faulty) rfl

theorem attach (h : Keeps s d) {inner : Draft} (hinner : Keeps d.state inner)
    (field : Option Field) : Keeps s (d.attach field inner) := by
  obtain ⟨taken, hitems, hreads⟩ := h
  obtain ⟨taken', hitems', hreads'⟩ := hinner
  refine ⟨taken ++ taken', by simp [hitems, hitems'], ?_⟩
  simpa using hreads.append (hreads'.assign field)

end Keeps

end Draft

open Draft

/-- Every draft shows all that was taken for it. -/
theorem Built.keeps {s : State} {d : Draft} (h : Built s d)
    (hs : ∀ item ∈ s.input.items, item.Sound) : Keeps s d := by
  induction h with
  | blank s => exact .blank s
  | leaf _ hitems field hfits ih =>
      have hitem := (ih hs).sound hs _ (hitems ▸ List.mem_cons_self)
      refine (ih hs).leaf hitems hitem hfits.ne_string field (fun hnamed ↦ ?_) false
      obtain ⟨t, ht, hkind⟩ := hfits.eq_terminal hnamed
      exact hitem.name_toList ht hkind
  | literal _ hitems hkind ih =>
      have hitem := (ih hs).sound hs _ (hitems ▸ List.mem_cons_self)
      exact (ih hs).literal hitems hitem hkind
  | @missing s d _ field kind _ problem ih =>
      obtain ⟨taken, hitems, hreads⟩ := ih hs
      refine ⟨taken, hitems, ?_⟩
      have hmissing := Node.reads_absentAt field kind d.state.reached
      simpa using hreads.append hmissing
  | enclose _ _ ih => exact (ih hs).enclose _ false
  | attach _ field _ ih ihpart => exact (ih hs).attach (ihpart ((ih hs).sound hs)) field
  | @swallow s n w hw _ problem =>
      have htokens : Keeps s ((Draft.blank s).tokenNodes n) := (Keeps.blank s).tokenNodes hs n
      have hkeeps : Keeps s w := by
        cases hw with
        | wrapped => exact htokens.enclose .error true
        | lone => exact htokens
      exact hkeeps

namespace Tree

def shownTokens (config : Config) (source : List Char) : List Token :=
  (Token.ofSource source).filter fun t ↦
    t.kind != .ending && (config.comments || !t.kind.isComment)

theorem filter_parsedTokens (config : Config) (source : List Char) :
    (parsedTokens config (Token.ofSource source)).filter (·.kind != .ending) =
      shownTokens config source := by
  unfold parsedTokens shownTokens
  split
  · rename_i h
    simp [h]
  · rename_i h
    simp [h, List.filter_filter]

end Tree

theorem Tree.reads_parse (language : Language) (config : Config) (source : String) :
    ∃ q, Node.Reads .origin (parse language config source).nodesBelowRoot
      ((shownTokens config source.toList).flatMap Token.pieces) q := by
  let a := arrangement config source
  have hspells : ∀ t ∈ parsedTokens config (Token.ofSource source.toList),
      t.kind.Spells t.text := fun t ht ↦
    (Token.stream_ofSource source.toList).spells t (mem_of_mem_parsedTokens ht)
  have hsound : ∀ item ∈ a.items, item.Sound := Arrangement.sound hspells
  -- All items have been taken. Only the comments behind the last one are added to the root.
  obtain ⟨taken, hitems, hreads⟩ :=
    (built_fileDraft language.levels config.maxDepth a).keeps hsound
  rw [items_fileDraft_arrangement, List.append_nil] at hitems
  have htrailing := Node.reads_ofComments (Arrangement.isComment_of_mem _).2
    (fun c hc ↦ hspells c (Arrangement.mem_of_mem_trailing hc))
    (fileDraft language.levels config.maxDepth a).state.reached
  have hpieces : taken.flatMap Item.pieces ++ a.trailing.flatMap Token.pieces =
      (shownTokens config source.toList).flatMap Token.pieces := by
    rw [← filter_parsedTokens, ← Arrangement.flatMap_tokens, List.flatMap_append,
      List.flatMap_assoc, ← hitems]
    rfl
  rw [nodesBelowRoot_eq (sound_parse language config source), children_root_parse,
    Node.preorders_append, ← hpieces]
  exact ⟨_, hreads.append htrailing⟩

namespace Piece

theorem shows_of_mem_row {source before behind : List Char} {texts : List (List Char)}
    (hsource : source = before ++ (texts.flatten ++ behind)) {piece : Piece}
    (h : piece ∈ row (Position.origin.after before) texts) :
    piece.span.Shows source piece.text := by
  induction texts generalizing before with
  | nil => simp [row] at h
  | cons text texts ih =>
      rcases List.mem_cons.mp h with rfl | h
      · exact ⟨before, texts.flatten ++ behind, by simp [hsource], rfl, rfl⟩
      · rw [← Position.after_append] at h
        exact ih (by simp [hsource]) h

theorem shows_of_mem_pieces {source : List Char} {t : Token} (ht : t ∈ Token.ofSource source)
    {piece : Piece} (h : piece ∈ t.pieces) : piece.span.Shows source piece.text := by
  have hstream := Token.stream_ofSource source
  have hshows : t.span.Shows source t.text :=
    hstream.shows_of_mem (List.nil_append source).symm rfl t ht
  by_cases hstring : ∃ parts closed, t.kind = .string parts closed
  · obtain ⟨parts, closed, hkind⟩ := hstring
    obtain ⟨before, behind, hsource, hstart, -⟩ := hshows
    have hspells := hkind ▸ hstream.spells t ht
    have hpieces : t.pieces = row t.start (['"'] :: parts.map BodyPart.text ++
        if closed then [['"']] else []) := by
      simp [Token.pieces, hkind]
    have htext : (['"'] :: parts.map BodyPart.text ++
        if closed then [['"']] else []).flatten = t.text := by
      rw [hspells.1]
      cases closed <;> simp [List.flatMap_def]
    rw [hpieces, show t.start = Position.origin.after before from hstart] at h
    exact shows_of_mem_row (hsource.trans (by rw [htext])) h
  · have hkind : ∀ parts closed, t.kind ≠ .string parts closed :=
      fun parts closed hk ↦ hstring ⟨parts, closed, hk⟩
    rw [Token.pieces_of_not_string hkind, List.mem_singleton] at h
    rw [h]
    exact hshows

end Piece

/-- Parsing loses nothing. The leaves below the root are the pieces of the tokens, comments among
them if they are asked for, and those without a name of their own are named like their text.
Missing nodes stand behind the last leaf in front of them that is no comment. -/
theorem Parser.leaves_of_parse {p q : Parser} {l : Language} (hlanguage : p.setLanguage l = .ok q)
    (config : Config) (source : String) :
    ∃ tree, (q.setConfig config).parse? source = some tree ∧
      (tree.nodesBelowRoot.filter Node.isLeaf).map Node.span =
        ((Tree.shownTokens config source.toList).flatMap Token.pieces).map Piece.span ∧
      (∀ n ∈ tree.nodesBelowRoot, n.isLeaf = true → n.kind.isNamed = false →
        n.kind.name = tree.textOf n) ∧
      ∀ before n behind, tree.nodesBelowRoot = before ++ n :: behind → n.isMissing = true →
        n.children = [] ∧ n.span = .emptyAt (Node.lastStop .origin before) := by
  obtain ⟨stop, hreads⟩ := Tree.reads_parse l config source
  refine ⟨Tree.parse l config source, ?_, hreads.map_span_filter, ?_, ?_⟩
  · simp [parse?, setConfig, language_of_setLanguage hlanguage]
  · intro n hn hleaf hnamed
    obtain ⟨piece, hpiece, hspan, htext⟩ := hreads.shows_of_mem hn hleaf
    obtain ⟨t, ht, hmem⟩ := List.mem_flatMap.mp hpiece
    have hshows := Piece.shows_of_mem_pieces (List.mem_filter.mp ht).1 hmem
    have hsource : (Tree.parse l config source).source = source := rfl
    rw [Tree.textOf, hspan, hsource, hshows.text_eq, ← htext hnamed, String.ofList_toList]
  · intro before n behind hnodes hmissing
    exact hreads.missing_of_eq_append hnodes hmissing

theorem Parser.leaves_of_parse_open_string :
    Parser.setLanguage {} .cool = .ok { language := some .cool } ∧
      ∃ tree, (Parser.setConfig { language := some .cool } ⟨1, false⟩).parse? "a(**)\"b" =
          some tree ∧
        (tree.nodesBelowRoot.filter Node.isLeaf).map Node.span =
          ((Tree.shownTokens ⟨1, false⟩ "a(**)\"b".toList).flatMap Token.pieces).map Piece.span :=
  have hlanguage := setLanguage_cool {}
  have ⟨tree, hparse, hspans, _⟩ := leaves_of_parse hlanguage ⟨1, false⟩ "a(**)\"b"
  ⟨hlanguage, tree, hparse, hspans⟩

end CoolTree
