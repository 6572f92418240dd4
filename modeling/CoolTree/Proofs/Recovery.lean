import CoolTree.Proofs.Packaged
import CoolTree.Proofs.Report
import CoolTree.Proofs.Resume

/-!
# Recovery is confined to a class

However malformed a class is, the next one is read as if it stood alone. The tree of a source with
classes behind it is the two trees side by side, and their problems add up. Only an expression that
is nested too deeply may run into the next class, and only behind a bracket that nothing closes.
-/

namespace CoolTree

namespace Arrangement

/-- The kinds of all tokens of an arrangement. -/
def kinds (a : Arrangement) : List (List TokenKind × TokenKind) × List TokenKind :=
  (a.items.map Item.kinds, a.trailing.map (·.kind))

theorem kinds_prepend {t u : Token} {a b : Arrangement} (hkind : t.kind = u.kind)
    (h : a.kinds = b.kinds) : (prepend t a).kinds = (prepend u b).kinds := by
  have hitems : a.items.map Item.kinds = b.items.map Item.kinds := congrArg Prod.fst h
  have htrailing : a.trailing.map (·.kind) = b.trailing.map (·.kind) := congrArg Prod.snd h
  rcases kind_cases t with ht | ht | ht
  · rw [prepend_comment ht, prepend_comment (hkind ▸ ht)]
    cases ha : a.items with
    | nil =>
        rw [ha] at hitems
        rw [List.map_eq_nil_iff.mp hitems.symm]
        simp [kinds, htrailing, hkind]
    | cons item rest =>
        rw [ha] at hitems
        obtain ⟨item', rest', hb, hitem, hrest⟩ := List.map_eq_cons_iff.mp hitems.symm
        rw [hb]
        simp_all [kinds, Item.kinds]
  · rw [prepend_ending ht, prepend_ending (hkind ▸ ht)]
    exact h
  · rw [prepend_significant ht, prepend_significant (hkind ▸ ht)]
    simp [kinds, Item.kinds, hitems, htrailing, hkind]

/-- Where comments go depends on the kinds of tokens only. -/
theorem kinds_ofTokens {ts us : List Token} (h : ts.map (·.kind) = us.map (·.kind)) :
    (ofTokens ts).kinds = (ofTokens us).kinds := by
  induction ts generalizing us with
  | nil => rw [List.map_eq_nil_iff.mp h.symm]
  | cons t ts ih =>
      obtain ⟨u, us, rfl, hkind, hrest⟩ := List.map_eq_cons_iff.mp h.symm
      exact kinds_prepend hkind.symm (ih hrest.symm)

theorem ofTokens_filter_ending (ts : List Token) :
    ofTokens (ts.filter (·.kind != .ending)) = ofTokens ts := by
  induction ts with
  | nil => rfl
  | cons t ts ih =>
      rw [ofTokens_cons]
      by_cases ht : t.kind = .ending
      · rw [List.filter_cons_of_neg (by simp [ht]), prepend_ending ht, ih]
      · rw [List.filter_cons_of_pos (by simpa using ht), ofTokens_cons, ih]

/-- One arrangement behind another. The comments between them stand in front of the first token of
the second one. -/
def append (a b : Arrangement) : Arrangement :=
  match b.items with
  | item :: rest => ⟨a.items ++ ⟨a.trailing ++ item.comments, item.token⟩ :: rest, b.trailing⟩
  | [] => ⟨a.items, a.trailing ++ b.trailing⟩

theorem append_of_cons {a b : Arrangement} {item : Item} {rest : List Item}
    (h : b.items = item :: rest) : a.append b =
      ⟨a.items ++ ⟨a.trailing ++ item.comments, item.token⟩ :: rest, b.trailing⟩ := by
  rw [append, h]

theorem ofTokens_append (ts us : List Token) :
    ofTokens (ts ++ us) = (ofTokens ts).append (ofTokens us) := by
  induction ts with
  | nil =>
      rw [List.nil_append]
      obtain ⟨items, trailing⟩ := ofTokens us
      cases items <;> rfl
  | cons t ts ih =>
      rw [List.cons_append, ofTokens_cons, ofTokens_cons, ih, append, append]
      obtain ⟨items, trailing⟩ := ofTokens ts
      rcases kind_cases t with ht | ht | ht
      · rw [prepend_comment ht, prepend_comment ht]
        cases items <;> cases (ofTokens us).items <;> rfl
      · rw [prepend_ending ht, prepend_ending ht]
      · rw [prepend_significant ht, prepend_significant ht]
        cases (ofTokens us).items <;> rfl

end Arrangement

namespace Tree

open Draft

variable {levels : Levels} {depth : Nat}

theorem shapes_draft (a : Arrangement) :
    (draft levels depth a).nodes.toList.map Node.shape =
      (fileDraft levels depth a).nodes.toList.map Node.shape ++
        (Node.ofComments a.trailing).map Node.shape := by
  rw [toList_nodes_draft, List.map_append]

/-- Up to a class, a file is read as it would be read if it ended there. -/
theorem exists_fileItems {a c : Arrangement} {before behind : List Item} {next : Item}
    (hc : c.items = before ++ next :: behind)
    (hkinds : before.map Item.kinds = a.items.map Item.kinds)
    (ha : ∀ item ∈ a.items, item.token.kind ≠ .ending)
    (hnext : next.token.kind = .terminal .classWord)
    (hsafe : (∀ e ∈ (fileDraft levels depth c).state.errors, e.problem ≠ .tooDeep) ∨
      TokenKind.Closing (a.items.map (·.token.kind))) :
    ∃ e : Draft, e.state.input.items = next :: behind ∧
      e.nodes.toList.map Node.shape = (fileDraft levels depth a).nodes.toList.map Node.shape ∧
      e.state.errors.length = (fileDraft levels depth a).state.errors.length ∧
      fileDraft levels depth c = e.fileItems levels (Draft.expression levels depth) := by
  -- The run is at risk only where the brackets in front of the class are not closed.
  let q : Sequel := ⟨next :: behind, by simp [hnext], 0,
    ¬TokenKind.Closing (a.items.map (·.token.kind))⟩
  have hstart : State.Abreast q (initialState a.items) (initialState c.items) := by
    refine ⟨⟨before, hc, hkinds⟩, rfl, ?_⟩
    by_cases hclosing : TokenKind.Closing (a.items.map (·.token.kind))
    · exact .inr (.inr hclosing)
    · exact .inr (.inl hclosing)
  rcases fileItems_of_abreast (advances_expression depth)
    (fun least s t ↦ together_expression depth least) _ _ (Abreast.blank hstart)
    with ⟨e, he, heq⟩ | ⟨hopen, e, he, hdeep⟩
  · have hend : (fileDraft levels depth a).state.input.items = [] :=
      items_fileDraft levels depth a ha
    obtain ⟨xs, hxs, hnone⟩ := he.state.items
    have hxsnil : xs = [] := List.map_eq_nil_iff.mp (hnone.trans (congrArg (List.map _) hend))
    refine ⟨e, ?_, he.shapes, he.state.errors.trans (Nat.zero_add _), heq⟩
    rw [hxs, hxsnil]
    rfl
  · rcases hsafe with hsafe | hclosing
    · exact (hsafe e he hdeep).elim
    · exact (hopen hclosing).elim

/-- The draft of tokens with classes behind them is the two drafts, one behind the other. -/
theorem draft_append {a b c : Arrangement} {item : Item} {rest : List Item}
    (hb : b.items = item :: rest) (hclass : item.token.kind = .terminal .classWord)
    (hc : c.kinds = (a.append b).kinds)
    (ha : ∀ item ∈ a.items, item.token.kind ≠ .ending)
    (hsafe : (∀ e ∈ (draft levels depth c).state.errors, e.problem ≠ .tooDeep) ∨
      TokenKind.Closing (a.items.map (·.token.kind))) :
    (draft levels depth c).nodes.toList.map Node.shape =
        (draft levels depth a).nodes.toList.map Node.shape ++
          (draft levels depth b).nodes.toList.map Node.shape ∧
      (draft levels depth c).state.errors.length =
        (draft levels depth a).state.errors.length +
          (draft levels depth b).state.errors.length := by
  rw [Arrangement.append_of_cons hb, Arrangement.kinds, Arrangement.kinds, List.map_append] at hc
  obtain ⟨before, behind, hcitems, hbefore, hbehind⟩ :=
    List.map_eq_append_iff.mp (congrArg Prod.fst hc)
  obtain ⟨next, behind, rfl, hnext, hmore⟩ := List.map_eq_cons_iff.mp hbehind
  have hkind : next.token.kind = item.token.kind := congrArg Prod.snd hnext
  have hcomments : next.comments.map (·.kind) = (a.trailing ++ item.comments).map (·.kind) :=
    congrArg Prod.fst hnext
  have htrailing : c.trailing.map (·.kind) = b.trailing.map (·.kind) := congrArg Prod.snd hc
  rw [errors_draft] at hsafe
  obtain ⟨e, he, hshapes, herrors, heq⟩ := exists_fileItems hcitems hbefore ha
    (hkind.trans hclass) hsafe
  obtain ⟨hnodes, hcount⟩ := fileItems_of_class (advances_expression depth)
    (fun q least s t ↦ together_expression depth least) (s := initialState b.items) hb he rfl hclass
    hkind hcomments hmore
  rw [← heq] at hnodes hcount
  constructor
  · rw [shapes_draft, shapes_draft, shapes_draft, hnodes, hshapes,
      Node.shapes_ofComments htrailing]
    exact List.append_assoc _ _ _
  · rw [errors_draft, errors_draft, errors_draft, hcount, herrors]
    rfl

/-- Every class of an arrangement is read as one. -/
theorem exists_classItem_of_mem {a : Arrangement} {item : Item} (hitem : item ∈ a.items)
    (ha : ∀ item ∈ a.items, item.token.kind ≠ .ending)
    (hclass : item.token.kind = .terminal .classWord)
    (hdeep : ∀ e ∈ (draft levels depth a).state.errors, e.problem ≠ .tooDeep) :
    ∃ n ∈ (draft levels depth a).nodes.toList, ClassAt item.token.span n := by
  obtain ⟨before, behind, hitems⟩ := List.append_of_mem hitem
  rw [errors_draft] at hdeep
  have hbefore : ∀ x ∈ before, x.token.kind ≠ .ending := fun x hx ↦
    ha x (hitems ▸ List.mem_append_left _ hx)
  obtain ⟨e, he, -, -, heq⟩ := exists_fileItems (a := ⟨before, []⟩) hitems rfl hbefore hclass
    (.inl hdeep)
  have hfound : ∃ n ∈ (e.fileItems levels (Draft.expression levels depth)).nodes.toList,
      ClassAt item.token.span n := exists_classItem (advances_expression depth) he hclass
  rw [toList_nodes_draft, heq]
  exact hfound.imp fun n hn ↦ ⟨List.mem_append_left _ hn.1, hn.2⟩

end Tree

namespace Token

/-- The kinds of the tokens of a source, comments and the ending among them. -/
def kinds (source : String) : List TokenKind :=
  (Token.ofSource source.toList).map (·.kind)

end Token

theorem TokenKind.isSignificant_of_bracket {k : TokenKind}
    (h : k.isOpening = true ∨ k.isClosing = true) : k.isSignificant = true := by
  cases k with
  | terminal t => rfl
  | _ => simp [isOpening, isClosing] at h

namespace Tree

theorem map_kind_parsedTokens (config : Config) (ts : List Token) :
    (parsedTokens config ts).map (·.kind) =
      if config.comments then ts.map (·.kind) else (ts.map (·.kind)).filter (!·.isComment) := by
  unfold parsedTokens
  split
  · rfl
  · rw [List.filter_map]
    rfl

theorem kinds_arrangement {config : Config} {s t : String}
    (h : Token.kinds (s ++ t) = (Token.kinds s).filter (· != .ending) ++ Token.kinds t) :
    (arrangement config (s ++ t)).kinds =
      ((arrangement config s).append (arrangement config t)).kinds := by
  let ts := parsedTokens config (Token.ofSource s.toList)
  let us := parsedTokens config (Token.ofSource t.toList)
  have hparsed : (parsedTokens config (Token.ofSource (s ++ t).toList)).map (·.kind) =
      (ts.filter (·.kind != .ending) ++ us).map (·.kind) := by
    have hfilter : (ts.filter (·.kind != .ending)).map (·.kind) =
        (ts.map (·.kind)).filter (· != .ending) := by
      rw [List.filter_map]
      rfl
    have hwhole : (Token.ofSource (s ++ t).toList).map (·.kind) = _ := h
    rw [List.map_append, hfilter, map_kind_parsedTokens, map_kind_parsedTokens,
      map_kind_parsedTokens, hwhole]
    split
    · rfl
    · rw [List.filter_append, List.filter_filter, List.filter_filter]
      simp only [Bool.and_comm]
      rfl
  rw [arrangement, Arrangement.kinds_ofTokens hparsed, Arrangement.ofTokens_append,
    Arrangement.ofTokens_filter_ending]
  rfl

theorem length_commentErrors (source : String) :
    (commentErrors (Token.ofSource source.toList)).length =
      (Token.kinds source).countP (· == .blockComment false) := by
  rw [commentErrors, List.length_map, Token.kinds, List.countP_map, List.countP_eq_length_filter]
  rfl

theorem length_commentErrors_append {s t : String}
    (h : Token.kinds (s ++ t) = (Token.kinds s).filter (· != .ending) ++ Token.kinds t) :
    (commentErrors (Token.ofSource (s ++ t).toList)).length =
      (commentErrors (Token.ofSource s.toList)).length +
        (commentErrors (Token.ofSource t.toList)).length := by
  have hopen : ∀ k : TokenKind, (k == .blockComment false && k != .ending) =
      (k == .blockComment false) := by
    intro k
    cases k <;> simp
  rw [length_commentErrors, length_commentErrors, length_commentErrors, h, List.countP_append,
    List.countP_filter]
  simp only [hopen]

theorem map_kind_arrangement (config : Config) (source : String) :
    (arrangement config source).items.map (·.token.kind) =
      (Token.kinds source).filter TokenKind.isSignificant := by
  have htokens := congrArg (List.map (·.kind)) (map_token_arrangement config source)
  rw [List.map_map] at htokens
  rw [Token.kinds, List.filter_map]
  exact htokens

variable (l : Language) (config : Config)

theorem mem_errors_of_mem_draft {source : String} {e : SyntaxError}
    (h : e ∈ (draft l.levels config.maxDepth (arrangement config source)).state.errors) :
    e ∈ (parse l config source).errors := by
  rw [(perm_errors l config source).mem_iff, ← errors_draft]
  exact List.mem_append_left _ h

/-- The tree of a source with classes behind it is made of two trees. -/
theorem parse_append {s t : String}
    (hclass : ((Token.significant t.toList).map (·.kind)).head? = some (.terminal .classWord))
    (hkinds : Token.kinds (s ++ t) = (Token.kinds s).filter (· != .ending) ++ Token.kinds t)
    (hsafe : (∀ e ∈ (parse l config (s ++ t)).errors, e.problem ≠ .tooDeep) ∨
      TokenKind.Closing (Token.kinds s)) :
    (parse l config (s ++ t)).root.children.map Node.shape =
        (parse l config s).root.children.map Node.shape ++
          (parse l config t).root.children.map Node.shape ∧
      (parse l config (s ++ t)).errors.length =
        (parse l config s).errors.length + (parse l config t).errors.length := by
  obtain ⟨item, rest, hitems, hword⟩ : ∃ item rest, (arrangement config t).items = item :: rest ∧
      item.token.kind = .terminal .classWord := by
    rw [← map_token_arrangement config t, List.map_map, List.head?_map] at hclass
    obtain ⟨item, hhead, hkind⟩ := Option.map_eq_some_iff.mp hclass
    obtain ⟨rest, hitems⟩ := List.head?_eq_some_iff.mp hhead
    exact ⟨item, rest, hitems, hkind⟩
  have hsafe' : (∀ e ∈ (draft l.levels config.maxDepth (arrangement config (s ++ t))).state.errors,
      e.problem ≠ .tooDeep) ∨
        TokenKind.Closing ((arrangement config s).items.map (·.token.kind)) := by
    refine hsafe.imp (fun h e he ↦ h e (mem_errors_of_mem_draft l config he)) fun h ↦ ?_
    rw [map_kind_arrangement]
    exact h.filter fun k hk ↦ TokenKind.isSignificant_of_bracket hk
  obtain ⟨hshapes, herrors⟩ := draft_append hitems hword (kinds_arrangement hkinds)
    (ne_ending_arrangement config s) hsafe'
  rw [children_root_eq_draft, children_root_eq_draft, children_root_eq_draft]
  refine ⟨hshapes, ?_⟩
  rw [(perm_errors l config _).length_eq, (perm_errors l config s).length_eq,
    (perm_errors l config t).length_eq, List.length_append, List.length_append, List.length_append,
    length_commentErrors_append hkinds, ← errors_draft, ← errors_draft, ← errors_draft, herrors]
  omega

end Tree

/-- Recovery is confined to a class. If the tokens of a source are those of a first part and of a
second one that starts with a class, then unless something is nested too deeply, or in any case if
the brackets of the first part are closed, the tree of the source has the children of the two trees
and as many problems as both. And unless something is nested too deeply, every class of a source is
a child of the root. -/
theorem Parser.recovery_of_parse {p q : Parser} {l : Language} (hlanguage : p.setLanguage l = .ok q)
    (config : Config) :
    (∀ s t : String,
      ((Token.significant t.toList).map (·.kind)).head? = some (.terminal .classWord) →
      Token.kinds (s ++ t) = (Token.kinds s).filter (· != .ending) ++ Token.kinds t →
      ∃ first second whole, (q.setConfig config).parse? s = some first ∧
        (q.setConfig config).parse? t = some second ∧
        (q.setConfig config).parse? (s ++ t) = some whole ∧
        ((∀ e ∈ whole.errors, e.problem ≠ .tooDeep) ∨ TokenKind.Closing (Token.kinds s) →
          whole.root.children.map Node.sexp =
              first.root.children.map Node.sexp ++ second.root.children.map Node.sexp ∧
            whole.errors.length = first.errors.length + second.errors.length)) ∧
    ∀ source : String, ∃ tree, (q.setConfig config).parse? source = some tree ∧
      ((∀ e ∈ tree.errors, e.problem ≠ .tooDeep) →
        ∀ token ∈ Token.ofSource source.toList, token.kind = .terminal .classWord →
          ∃ n ∈ tree.root.children, n.kind = .classItem ∧
            ∃ k ∈ n.children.head?, k.kind = .terminal .classWord ∧ k.span = token.span) := by
  have hparse : ∀ source, (q.setConfig config).parse? source = some (Tree.parse l config source) :=
    fun source ↦ by simp [parse?, setConfig, language_of_setLanguage hlanguage]
  have hsexp : ∀ ns : List Node, ns.map Node.sexp = (ns.map Node.shape).map Node.sexp := fun ns ↦ by
    rw [List.map_map]
    exact List.map_congr_left fun n _ ↦ n.sexp_shape.symm
  refine ⟨fun s t hclass hkinds ↦ ⟨_, _, _, hparse s, hparse t, hparse (s ++ t), fun hsafe ↦ ?_⟩,
    fun source ↦ ⟨_, hparse source, fun hdeep token htoken hword ↦ ?_⟩⟩
  · obtain ⟨hchildren, herrors⟩ := Tree.parse_append l config hclass hkinds hsafe
    refine ⟨?_, herrors⟩
    rw [hsexp, hchildren, List.map_append, ← hsexp, ← hsexp]
  · have hmem : token ∈ (Tree.arrangement config source).items.map (·.token) := by
      rw [Tree.map_token_arrangement]
      exact List.mem_filter.mpr ⟨htoken, by rw [hword]; rfl⟩
    obtain ⟨item, hitem, rfl⟩ := List.mem_map.mp hmem
    rw [Tree.children_root_eq_draft]
    exact Tree.exists_classItem_of_mem hitem (Tree.ne_ending_arrangement config source) hword
      fun e he ↦ hdeep e (Tree.mem_errors_of_mem_draft l config he)

theorem Parser.recovery_of_parse_unbalanced :
    let s := "class A \x7b x : B <- (1 + (2; \x7d ) ) \x7d -- c\n"
    Parser.setLanguage {} .cool = .ok { language := some .cool } ∧
      TokenKind.Closing (Token.kinds s) ∧
      (∃ first second whole,
        (Parser.setConfig { language := some .cool } ⟨1, true⟩).parse? s = some first ∧
        (Parser.setConfig { language := some .cool } ⟨1, true⟩).parse? "class B" = some second ∧
        (Parser.setConfig { language := some .cool } ⟨1, true⟩).parse? (s ++ "class B") =
          some whole ∧
        whole.root.children.map Node.sexp =
          first.root.children.map Node.sexp ++ second.root.children.map Node.sexp ∧
        whole.errors.length = first.errors.length + second.errors.length) ∧
      ∃ tree,
        (Parser.setConfig { language := some .cool } ⟨1, true⟩).parse? "x class class A" =
          some tree ∧
        ∃ n ∈ tree.root.children, n.kind = .classItem ∧
          ∃ k ∈ n.children.head?, k.kind = .terminal .classWord ∧ k.span.start.offset = 8 := by
  intro s
  have hclosing : TokenKind.Closing (Token.kinds s) := by decide +kernel
  have hclass : ((Token.significant "class B".toList).map (·.kind)).head? =
      some (.terminal .classWord) := by
    decide +kernel
  have hkinds : Token.kinds (s ++ "class B") =
      (Token.kinds s).filter (· != .ending) ++ Token.kinds "class B" := by
    decide +kernel
  obtain ⟨hparts, hclasses⟩ := recovery_of_parse (setLanguage_cool {}) ⟨1, true⟩
  obtain ⟨first, second, whole, hfirst, hsecond, hwhole, hsum⟩ := hparts s "class B" hclass hkinds
  obtain ⟨tree, htree, hitems⟩ := hclasses "x class class A"
  have hdeep : ∀ e ∈ tree.errors, e.problem ≠ .tooDeep := by
    have hfound : ∀ e ∈ (Tree.fileDraft Language.cool.levels 1
        (Tree.arrangement ⟨1, true⟩ "x class class A")).state.errors ++
          Tree.commentErrors (Token.ofSource "x class class A".toList), e.problem ≠ .tooDeep := by
      decide +kernel
    obtain rfl := Option.some.inj htree
    exact fun e he ↦ hfound e ((Tree.perm_errors .cool ⟨1, true⟩ _).mem_iff.mp he)
  let word : Token := ⟨[' '], ⟨8, 0, 8⟩, .terminal .classWord, ['c', 'l', 'a', 's', 's']⟩
  have hword : word ∈ Token.ofSource "x class class A".toList := by decide +kernel
  obtain ⟨n, hn, hkind, k, hk, hclassword, hspan⟩ := hitems hdeep word hword rfl
  exact ⟨setLanguage_cool {}, hclosing,
    ⟨first, second, whole, hfirst, hsecond, hwhole, hsum (.inr hclosing)⟩,
    tree, htree, n, hn, hkind, k, hk, hclassword, by rw [hspan]; rfl⟩

end CoolTree
