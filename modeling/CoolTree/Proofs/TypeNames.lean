import CoolTree.Proofs.Execution
import CoolTree.Proofs.Kinship
import CoolTree.Proofs.Lexed
import CoolTree.Proofs.Makeup
import CoolTree.Proofs.Report

/-!
# Names of types

Where a type stands, its name is a leaf, and the kind of the leaf says whether the type is
primitive. This is settled when the source is cut into tokens, by the names that are primitive in
Cool. What a language lists as its primitive types has no part in it, so a language is followed on
those names only on which it agrees with Cool.

The kind is carried from the token to the leaf by a check on phrases: no role of a type is given to
anything but a word that takes the names of types.
-/

namespace CoolTree

/-- Whether types stand in a role. -/
def Field.isTypeRole : Field → Bool
  | type | returnType | inherits => true
  | _ => false

/-- The kind of the name of a type. -/
def Kind.ofTypeName (primitive : Bool) : Kind :=
  if primitive then .primitiveType else .typeIdentifier

theorem Kind.ofTypeName_inj {a b : Bool} : ofTypeName a = ofTypeName b ↔ a = b := by
  cases a <;> cases b <;> decide

namespace Node

/-- Where a type stands and is not missing, there is the leaf of a token that names one. -/
def NamesType (tokens : List Token) (n : Node) : Prop :=
  n.field?.any Field.isTypeRole = true → n.isMissing = false →
    ∃ t ∈ tokens, t.kind.isTypeName = true ∧ n.kind = t.kind.leafKind ∧ n.span = t.span

variable {tokens : List Token} {n : Node}

theorem NamesType.of_not_isTypeRole (h : n.field?.any Field.isTypeRole = false) :
    n.NamesType tokens := by
  intro hrole
  cases h.symm.trans hrole

theorem NamesType.of_field (h : n.field? = none) : n.NamesType tokens :=
  .of_not_isTypeRole (by rw [h]; rfl)

theorem NamesType.assign (h : n.NamesType tokens) {field : Option Field}
    (hfield : field.any Field.isTypeRole = false) : (n.assign field).NamesType tokens := by
  unfold Node.assign
  split
  · exact h
  · exact .of_not_isTypeRole hfield

theorem TokenLeaf.field_eq (h : n.TokenLeaf) : ∀ m ∈ n.preorder, m.field? = none := by
  rw [preorder_eq, h.children]
  simpa using h.field

theorem Literal.field_eq (h : n.Literal) : ∀ m ∈ n.preorder, m.field? = none := by
  rw [preorder_eq, List.forall_mem_cons]
  refine ⟨h.field, fun m hm ↦ ?_⟩
  obtain ⟨c, hc, hm⟩ := mem_preorders.mp hm
  obtain ⟨hchildren, hfield, -⟩ := h.pieces c hc
  rw [preorder_eq, hchildren] at hm
  rwa [List.mem_singleton.mp hm]

theorem Stray.field_eq (h : n.Stray) : ∀ m ∈ n.preorder, m.field? = none := by
  rw [preorder_eq, List.forall_mem_cons]
  refine ⟨h.field, fun m hm ↦ ?_⟩
  obtain ⟨c, hc, hm⟩ := mem_preorders.mp hm
  exact (h.tokens c hc).elim (fun hleaf ↦ hleaf.field_eq m hm) fun hliteral ↦ hliteral.field_eq m hm

end Node

namespace Draft

/-- Drafts in which types are named by tokens, before more of them. -/
structure Typed (tokens : List Token) (d : Draft) : Prop where
  input : ∀ item ∈ d.state.input.items, item.token ∈ tokens
  nodes : ∀ n ∈ Node.preorders d.nodes.toList, n.NamesType tokens

theorem Bears.field_eq {d : Draft} {ms : List Node} (h : Bears d ms) (hms : ∀ m ∈ ms, m.Stray) :
    ∀ n ∈ Node.preorders d.nodes.toList, n.field? = none := by
  intro n hn
  obtain ⟨c, hc, hn⟩ := Node.mem_preorders.mp hn
  cases hextra : c.isExtra with
  | true => exact (h.comments c hc hextra).field_eq n hn
  | false =>
      have hpart : c ∈ ms := h.parts ▸ List.mem_filter.mpr ⟨hc, by simp [hextra]⟩
      exact (hms c hpart).field_eq n hn

namespace Typed

variable {tokens : List Token} {d e inner : Draft}

theorem blank (h : Typed tokens d) : Typed tokens (.blank d.state) :=
  ⟨h.input, by simp⟩

/-- More nodes and fewer items. -/
theorem append (h : Typed tokens d) (hadvances : d.state.Advances e.state) {ns : List Node}
    (hnodes : e.nodes.toList = d.nodes.toList ++ ns)
    (hns : ∀ n ∈ Node.preorders ns, n.NamesType tokens) : Typed tokens e where
  input item hitem := h.input item (hadvances.mem_items hitem)
  nodes := by
    rw [hnodes, Node.preorders_append, List.forall_mem_append]
    exact ⟨h.nodes, hns⟩

/-- A leaf behind comments. -/
theorem add (h : Typed tokens d) (hadvances : d.state.Advances e.state)
    {cs : List Token} {n : Node}
    (hnodes : e.nodes.toList = d.nodes.toList ++ Node.ofComments cs ++ [n])
    (hn : ∀ m ∈ n.preorder, m.NamesType tokens) : Typed tokens e := by
  rw [List.append_assoc] at hnodes
  refine h.append hadvances hnodes ?_
  rw [Node.preorders_append, List.forall_mem_append, Node.preorders_cons, Node.preorders_nil,
    List.append_nil]
  refine ⟨fun m hm ↦ ?_, hn⟩
  obtain ⟨c, hc, hm⟩ := Node.mem_preorders.mp hm
  exact .of_field ((Node.tokenLeaf_of_mem_ofComments hc).field_eq m hm)

theorem leaf (h : Typed tokens d) {field : Option Field} {kind : Kind}
    (hrole : field.any Field.isTypeRole = true →
      d.current.isTypeName = true ∧ kind = d.current.leafKind) (faulty : Bool) :
    Typed tokens (d.leaf field kind faulty) := by
  cases hitems : d.state.input.items with
  | nil => rwa [leaf_of_nil d hitems]
  | cons item rest =>
      refine h.add (advances_leaf d field kind faulty)
        (toList_nodes_leaf d hitems field kind faulty) fun m hm ↦ ?_
      obtain rfl := List.mem_singleton.mp hm
      intro hfield _
      obtain ⟨hname, hkind⟩ := hrole hfield
      rw [current_of_items hitems] at hname hkind
      exact ⟨item.token, h.input item (hitems ▸ List.mem_cons_self), hname, hkind, rfl⟩

theorem missing (h : Typed tokens d) (field : Option Field) (kind : Kind) (problem : Problem) :
    Typed tokens (d.missing field kind problem) := by
  refine h.append (advances_missing d field kind problem)
    (toList_nodes_missing d field kind problem) fun m hm ↦ ?_
  obtain rfl := List.mem_singleton.mp hm
  rintro - ⟨⟩

theorem literal (h : Typed tokens d) : Typed tokens d.literal := by
  unfold Draft.literal
  split
  · rename_i item rest hitems
    split
    · rename_i parts closed hkind
      obtain ⟨hnodes, -⟩ := stringLiteral_eq d item parts closed
      have hliteral := Node.literal_literalNode item parts closed
      exact h.add (advances_stringLiteral d hitems hkind) hnodes fun m hm ↦
        .of_field (hliteral.field_eq m hm)
    · exact h
  · exact h

theorem attach (h : Typed tokens d) (hinner : Typed tokens inner) {field : Option Field}
    (hfield : field.any Field.isTypeRole = false) : Typed tokens (d.attach field inner) where
  input := hinner.input
  nodes := by
    rw [toList_nodes_attach, Node.preorders_append, List.forall_mem_append]
    exact ⟨h.nodes, Node.forall_mem_preorders_map (Node.children_assign field)
      (fun n hn ↦ hn.assign hfield) hinner.nodes⟩

theorem enclose (h : Typed tokens d) (kind : Kind) (faulty : Bool) :
    Typed tokens (d.enclose kind faulty) where
  input := h.input
  nodes n hn := (mem_preorders_enclose hn).elim (h.nodes n) fun heq ↦ .of_field (heq ▸ rfl)

theorem tooDeep (h : Typed tokens d) : Typed tokens (Draft.tooDeep d.state) := by
  obtain ⟨n, hn, hstray⟩ := Bears.tooDeep d.state
  exact h.blank.append (advances_tooDeep d.state) (List.nil_append _).symm fun m hm ↦
    .of_field (hn.field_eq (List.forall_mem_singleton.mpr hstray) m hm)

theorem skip (h : Typed tokens d) (stop : TokenClass) : Typed tokens (d.skip stop) := by
  have hadvances := advances_skip d stop
  rcases skip_eq d stop with ⟨-, heq⟩ | ⟨n, w, -, hw, heq⟩
  · rwa [heq]
  · obtain ⟨m, hm, hstray⟩ := Bears.swallowed hw
    rw [heq] at hadvances ⊢
    refine h.append hadvances (toList_nodes_attach d _ none) ?_
    refine Node.forall_mem_preorders_map (Node.children_assign none) (fun k hk ↦ hk.assign rfl) ?_
    exact fun k hk ↦ .of_field (hm.field_eq (List.forall_mem_singleton.mpr hstray) k hk)

theorem expect (h : Typed tokens d) (t : Terminal) : Typed tokens (d.expect t) := by
  have hskip := h.skip (.either (.only t) .synchronizing)
  unfold Draft.expect
  dsimp only
  split
  · exact hskip.leaf (by simp) false
  · exact hskip.missing none _ _

theorem word (h : Typed tokens d) {field : Option Field} {slot : Slot}
    (hslot : field.any Field.isTypeRole = true → slot = .typeName) :
    Typed tokens (d.word field slot) := by
  unfold Draft.word
  split
  · rename_i kind hkind
    refine h.leaf (fun hrole ↦ ?_) false
    rw [hslot hrole] at hkind
    cases hcurrent : d.current <;> rw [hcurrent] at hkind <;> cases hkind <;> exact ⟨rfl, rfl⟩
  · exact h.missing field _ _

end Typed

end Draft

namespace Phrase

/-- Whether a phrase gives the roles of types to nothing but names of types. -/
def namesTypes : Phrase → Bool
  | done => true
  | word field slot next => (slot == .typeName || !field.any Field.isTypeRole) && next.namesTypes
  | take field next | operand field _ next => !field.any Field.isTypeRole && next.namesTypes
  | node field _ body next =>
    !field.any Field.isTypeRole && body.namesTypes && next.namesTypes
  | choose _ yes no next => yes.namesTypes && no.namesTypes && next.namesTypes
  | loop _ body next => body.namesTypes && next.namesTypes
  | expect _ next | literal next | skip _ next | absent next => next.namesTypes

theorem namesTypes_file : file.namesTypes = true := by
  decide

theorem Opens.namesTypes {i : Input} {p : Phrase} (h : Opens i p) : p.namesTypes = true := by
  cases h with
  | construct _ mem =>
      have hall : ∀ entry ∈ constructs, entry.2.2.namesTypes = true := by decide
      rw [Phrase.namesTypes, hall _ mem]
      rfl
  | name | plain | literal | absent | skip => rfl

end Phrase

theorem Continuation.namesTypes_of_of? {v : Levels} {least : Int} {k : TokenKind}
    {next : Continuation} (h : of? v least k = some next) :
    next.field.isTypeRole = false ∧ next.phrase.namesTypes = true := by
  obtain ⟨-, rfl⟩ | ⟨o, -, rfl⟩ := of?_cases h <;> exact ⟨rfl, rfl⟩

open Draft

/-- Whether a job gives the roles of types to nothing but names of types. -/
def Job.namesTypes : Job → Bool
  | phrase p | loop _ p => p.namesTypes
  | expression _ | climb _ => true

/-- Types are named by tokens all along. -/
theorem Executes.typed {v : Levels} {limit : Nat} {R : Draft → Draft → Prop} {j : Job}
    {c c' k : Nat} {d e : Draft} {tokens : List Token} (h : Executes v limit R j c d c' e k)
    (hj : j.namesTypes = true) (hd : Typed tokens d) : Typed tokens e := by
  -- Jobs inside jobs start from the same input, so that the tokens they name types by are these.
  induction h with
  | done | last _ | finish _ => exact hd
  | expect _ _ ih => exact ih hj (hd.expect _)
  | literal _ ih => exact ih hj hd.literal
  | absent _ ih => exact ih hj (hd.missing _ _ _)
  | skip _ _ ih => exact ih hj (hd.skip _)
  | take _ ih =>
      simp only [Job.namesTypes, Phrase.namesTypes, Bool.and_eq_true, Bool.not_eq_true'] at hj
      exact ih hj.2 (hd.leaf (by simp [hj.1]) false)
  | word _ ih =>
      simp only [Job.namesTypes, Phrase.namesTypes, Bool.and_eq_true, Bool.or_eq_true, beq_iff_eq,
        Bool.not_eq_true'] at hj
      exact ih hj.2 (hd.word fun hrole ↦ hj.1.resolve_right (by simp [hrole]))
  | operand _ _ ih ih' =>
      simp only [Job.namesTypes, Phrase.namesTypes, Bool.and_eq_true, Bool.not_eq_true'] at hj
      exact ih' hj.2 (hd.attach (ih rfl hd.blank) hj.1)
  | node _ _ ih ih' =>
      simp only [Job.namesTypes, Phrase.namesTypes, Bool.and_eq_true, Bool.not_eq_true'] at hj
      obtain ⟨⟨hfield, hbody⟩, hnext⟩ := hj
      exact ih' hnext (hd.attach ((ih hbody hd.blank).enclose _ false) hfield)
  | yes _ _ _ ih ih' =>
      simp only [Job.namesTypes, Phrase.namesTypes, Bool.and_eq_true] at hj
      exact ih' hj.2 (ih hj.1.1 hd)
  | no _ _ _ ih ih' =>
      simp only [Job.namesTypes, Phrase.namesTypes, Bool.and_eq_true] at hj
      exact ih' hj.2 (ih hj.1.2 hd)
  | loop _ _ ih ih' =>
      simp only [Job.namesTypes, Phrase.namesTypes, Bool.and_eq_true] at hj
      exact ih' hj.2 (ih hj.1 hd)
  | again _ _ _ _ ih ih' => exact ih' hj (ih hj hd)
  | tooDeep _ _ => exact hd.tooDeep
  | @expression _ _ _ _ _ _ d _ _ _ _ _ ih ih' =>
      exact ih' rfl (ih (Phrase.opens_opening d.state.input).namesTypes hd.blank)
  | «continue» goes _ _ _ ih ih' =>
      obtain ⟨hfield, hphrase⟩ := Continuation.namesTypes_of_of? goes
      exact ih' rfl ((ih hphrase (hd.blank.attach hd hfield)).enclose _ false)

namespace Tree

variable (language : Language) (config : Config) (source : String)

theorem namesType_parse :
    ∀ n ∈ (parse language config source).root.preorder,
      n.NamesType (Token.ofSource source.toList) := by
  let a := arrangement config source
  have hstart : Typed (Token.ofSource source.toList) (.blank (initialState a.items)) :=
    ⟨fun item hitem ↦ mem_of_mem_parsedTokens
      (Arrangement.mem_of_mem_tokens hitem (List.mem_append_right _ List.mem_cons_self)), by simp⟩
  obtain ⟨k, hfile⟩ := executes_fileDraft language.levels config.maxDepth a
  have htyped := hfile.typed Phrase.namesTypes_file hstart
  rw [Node.preorder_eq, List.forall_mem_cons, children_root_parse, Node.preorders_append,
    List.forall_mem_append]
  refine ⟨.of_field (by rw [root_parse]; rfl), htyped.nodes, fun n hn ↦ ?_⟩
  obtain ⟨c, hc, hn⟩ := Node.mem_preorders.mp hn
  exact .of_field ((Node.tokenLeaf_of_mem_ofComments hc).field_eq n hn)

end Tree

theorem TokenKind.not_isTypeName_of_keyword? {word : String} {kind : TokenKind}
    (h : keyword? word = some kind) : kind.isTypeName = false := by
  unfold keyword? at h
  split at h
  · cases h
    rfl
  · obtain ⟨t, -, rfl⟩ := Option.map_eq_some_iff.mp h
    rfl

/-- A token that names a type is read as a primitive type if it is primitive in Cool. -/
theorem Lexes.leafKind_eq {kind : TokenKind} {text behind : List Char}
    (h : Lexes kind text behind) (hname : kind.isTypeName = true) :
    kind.leafKind = .ofTypeName (Grammar.primitiveTypeNames.contains (String.ofList text)) := by
  cases h with
  | unknown => cases hname
  | lexeme lexeme =>
      cases lexeme with
      | word _ _ _ names =>
          cases names with
          | reserved known => cases (TokenKind.not_isTypeName_of_keyword? known).symm.trans hname
          | primitiveType _ mem => rw [List.contains_iff_mem.mpr mem]; rfl
          | typeIdentifier _ not_mem _ =>
              rw [eq_false_of_ne_true (mt List.contains_iff_mem.mp not_mem)]
              rfl
          | identifier => cases hname
      | _ => cases hname

theorem Node.NamesType.kind_eq {source : String} {n : Node}
    (h : n.NamesType (Token.ofSource source.toList))
    (hrole : n.field?.any Field.isTypeRole = true) (hmissing : n.isMissing = false) :
    n.kind = .ofTypeName (Grammar.primitiveTypeNames.contains (n.span.text source)) := by
  obtain ⟨t, ht, hname, hkind, hspan⟩ := h hrole hmissing
  have hending : t.kind ≠ .ending := fun hk ↦ by cases hk ▸ hname
  obtain ⟨-, behind, -, -, hlexes, -⟩ := Token.lexes_of_mem_ofSource ht hending
  have hshows : t.span.Shows source.toList t.text :=
    (Token.stream_ofSource source.toList).shows_of_mem (List.nil_append _).symm rfl t ht
  rw [hkind, hspan, hshows.text_eq, hlexes.leafKind_eq hname]

theorem Field.isTypeRole_of_label {f : Field}
    (h : f.label ∈ ["type", "return_type", "inherits"]) : f.isTypeRole = true := by
  revert h
  cases f <;> decide

theorem Cursor.Stands.isTypeRole_of_mem_childrenByField {c child : Cursor} (h : c.Stands)
    (hl : ∀ f : Field, (c.tree.language.fieldNumber? f.label).isSome = true) {role : String}
    (hrole : role ∈ ["type", "return_type", "inherits"]) (hchild : child ∈ c.childrenByField role) :
    child.node ∈ c.node.children ∧ child.node.field?.any Field.isTypeRole = true := by
  have hnode := List.mem_map_of_mem (f := node) hchild
  rw [h.map_node_childrenByField hl, List.mem_filter] at hnode
  obtain ⟨f, hf, hlabel⟩ := Option.any_eq_true _ _ |>.mp hnode.2
  refine ⟨hnode.1, ?_⟩
  rw [hf, Option.any_some]
  exact Field.isTypeRole_of_label (eq_of_beq hlabel ▸ hrole)

/-- At the cursors of a tree those are found in some roles that play them below the root. -/
theorem Tree.flatMap_childrenByField {t : Tree} (h : t.arena.Sound [t.top])
    (hl : ∀ f : Field, (t.language.fieldNumber? f.label).isSome = true) {α : Type} (f : Node → α)
    (roles : List String) :
    ((Cursor.ofTree t).descendants.flatMap fun c ↦
        roles.flatMap fun role ↦ (c.childrenByField role).map (f ·.node)) =
      t.root.preorder.flatMap fun n ↦ roles.flatMap fun role ↦
        (n.children.filter fun k ↦ k.field?.any (·.label == role)).map f := by
  rw [← map_node_descendants h, List.flatMap_map]
  refine List.flatMap_congr fun c hc ↦ List.flatMap_congr fun role _ ↦ ?_
  have htop := Cursor.stands_ofTree h
  have htree : c.tree = t := (htop.mem_descendants_iff.mp hc).1
  rw [← (htop.of_mem_descendants hc).map_node_childrenByField (htree ▸ hl), List.map_map]
  rfl

/-- Whatever language it has, a parser takes the names of types that are primitive in Cool for
primitive ones and no others. So the name of a type is what the language says just if the language
agrees with Cool on it. -/
theorem Parser.typeNames_of_parse {p q : Parser} {l : Language}
    (hlanguage : p.setLanguage l = .ok q) (config : Config) (source : String) :
    ∃ tree, (q.setConfig config).parse? source = some tree ∧
      ∀ c ∈ (Cursor.ofTree tree).descendants, ∀ role ∈ ["type", "return_type", "inherits"],
        ∀ child ∈ c.childrenByField role, child.node.isMissing = false →
          child.node.kind =
            .ofTypeName (Grammar.primitiveTypeNames.contains (tree.textOf child.node)) ∧
          (child.node.kind = .ofTypeName (l.isPrimitiveType (tree.textOf child.node)) ↔
            l.isPrimitiveType (tree.textOf child.node) =
              Grammar.primitiveTypeNames.contains (tree.textOf child.node)) := by
  refine ⟨Tree.parse l config source, parse?_of_setLanguage hlanguage config source, ?_⟩
  intro c hc role hrole child hchild hmissing
  have htop := Tree.stands_parse l config source
  have hl : ∀ f : Field, (c.tree.language.fieldNumber? f.label).isSome = true := by
    rw [(htop.mem_descendants_iff.mp hc).1]
    exact Language.fieldNumber?_isSome hlanguage
  obtain ⟨hmem, hfield⟩ :=
    (htop.of_mem_descendants hc).isTypeRole_of_mem_childrenByField hl hrole hchild
  have hnode := Tree.mem_preorder_of_mem_descendants (Tree.sound_parse l config source) hc
  have hbelow := Node.mem_preorder_of_mem_children hnode hmem
  have hkind := (Tree.namesType_parse l config source _ hbelow).kind_eq hfield hmissing
  refine ⟨hkind, ?_⟩
  rw [hkind, Kind.ofTypeName_inj]
  exact eq_comm

/-- The packaged language agrees with Cool on all names. -/
theorem Parser.typeNames_of_parse_packaged :
    let source := "class A inherits IO \x7b x : B; f(y : Int) : A \x7b new C \x7d; \x7d;"
    Parser.setLanguage {} .cool = .ok { language := some .cool } ∧
      ∃ tree, (Parser.setConfig { language := some .cool } ⟨3, true⟩).parse? source = some tree ∧
        ((Cursor.ofTree tree).descendants.flatMap fun c ↦
          ["type", "return_type", "inherits"].flatMap fun role ↦
            (c.childrenByField role).map (tree.textOf ·.node)) =
          ["IO", "B", "A", "Int", "C"] ∧
        ∀ c ∈ (Cursor.ofTree tree).descendants, ∀ role ∈ ["type", "return_type", "inherits"],
          ∀ child ∈ c.childrenByField role, child.node.isMissing = false →
            child.node.kind =
              .ofTypeName (Language.cool.isPrimitiveType (tree.textOf child.node)) := by
  intro source
  have hlanguage := setLanguage_cool {}
  obtain ⟨tree, hparse, hnames⟩ := typeNames_of_parse hlanguage ⟨3, true⟩ source
  obtain rfl : Tree.parse .cool ⟨3, true⟩ source = tree := Option.some.inj hparse
  have hfound : ((Cursor.ofTree (Tree.parse .cool ⟨3, true⟩ source)).descendants.flatMap fun c ↦
      ["type", "return_type", "inherits"].flatMap fun role ↦
        (c.childrenByField role).map ((Tree.parse .cool ⟨3, true⟩ source).textOf ·.node)) =
      ["IO", "B", "A", "Int", "C"] := by
    rw [Tree.flatMap_childrenByField (Tree.sound_parse .cool ⟨3, true⟩ source)
      (Language.fieldNumber?_isSome hlanguage)]
    simp only [Tree.parse, Language.levels_cool]
    decide +kernel
  refine ⟨hlanguage, _, hparse, hfound, fun c hc role hrole child hchild hmissing ↦ ?_⟩
  refine (hnames c hc role hrole child hchild hmissing).2.mpr ?_
  rw [Language.isPrimitiveType, Language.cool, Language.definition_ofFlawless]
  rfl

/-- The grammar of Cool with another primitive type in place of its own. -/
def Grammar.Definition.foreign : Definition :=
  { cool with primitiveTypes := ["Foo"] }

theorem Grammar.Definition.flaw?_foreign : foreign.flaw? = none := by
  rw [flaw?_eq_none_iff]
  constructor
  all_goals decide +kernel

def Language.foreign : Language :=
  .ofFlawless Grammar.Artifact.version .foreign Grammar.Definition.flaw?_foreign

theorem Language.levels_foreign : Language.foreign.levels = Language.cool.levels := by
  simp only [levels, binding, precedence?_eq, operator?_eq, foreign, cool, definition_ofFlawless]
  rfl

/-- A type that is primitive in the language of the parser is not read as a primitive one. -/
theorem Parser.typeNames_of_parse_foreign :
    let source := "class A \x7b x : Foo; \x7d;"
    Parser.setLanguage {} .foreign = .ok { language := some .foreign } ∧
      ∃ tree, (Parser.setConfig { language := some .foreign } {}).parse? source = some tree ∧
        ∃ c ∈ (Cursor.ofTree tree).descendants, ∃ child ∈ c.childrenByField "type",
          child.node.isMissing = false ∧ child.node.isError = false ∧
            Language.foreign.isPrimitiveType (tree.textOf child.node) = true ∧
            child.node.kind = .typeIdentifier := by
  intro source
  have hlack : Language.foreign.lack? = none := by
    rw [Language.lack?_eq, Language.foreign, Language.definition_ofFlawless]
    decide +kernel
  have hlanguage := setLanguage_of_lack? {} hlack
  refine ⟨hlanguage, Tree.parse .foreign {} source, rfl, ?_⟩
  let misread (n : Node) : Bool := !n.isMissing && !n.isError &&
    Language.foreign.isPrimitiveType ((Tree.parse .foreign {} source).textOf n) &&
      n.kind == .typeIdentifier
  have hfound : true ∈ (Cursor.ofTree (Tree.parse .foreign {} source)).descendants.flatMap fun c ↦
      ["type"].flatMap fun role ↦ (c.childrenByField role).map (misread ·.node) := by
    rw [Tree.flatMap_childrenByField (Tree.sound_parse .foreign {} source)
      (Language.fieldNumber?_isSome hlanguage)]
    simp only [misread, Tree.parse, Language.levels_foreign, Language.levels_cool,
      Language.isPrimitiveType]
    simp only [Language.foreign, Language.definition_ofFlawless]
    decide +kernel
  simpa [misread, and_assoc] using hfound

end CoolTree
