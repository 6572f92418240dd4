import CoolTree.Proofs.Execution
import CoolTree.Proofs.Makeup
import CoolTree.Proofs.Packaged
import CoolTree.Proofs.Report

/-!
# How deep expressions are nested

While a source is parsed, no more expressions are under way inside one another than the limit says.
The tree shows it: on a path down from the root, each step into a place where an expression stands
inside another construct counts, and there is one such step more than the limit at most, which leads
to an error around tokens. Chains of calls and of operators to the left do not count, since they are
climbed without going deeper.
-/

namespace CoolTree

/-- The places of expressions in constructs, by the role that the expression plays. The left operand
of an operator and the receiver of a call have none. -/
def Kind.nests : Kind → Option Field → Bool
  | methodDeclaration, some .body | attributeDeclaration, some .right
  | assignmentExpression, some .right | binaryExpression, some .right
  | ifExpression, some .condition | ifExpression, some .consequence
  | ifExpression, some .alternative | whileExpression, some .condition
  | whileExpression, some .body | letExpression, some .right | letExpression, some .body
  | caseExpression, some .value | caseArm, some .value => true
  | isvoidExpression, none | notExpression, none | unaryExpression, none | block, none
  | parenthesizedExpression, none | arguments, none => true
  | _, _ => false

/-- Whether a child stands in a place for expressions. Comments do not, and neither do terminals,
which play no role. -/
def Kind.holds (k : Kind) (c : Node) : Bool :=
  !c.isExtra && k.nests c.field? && (c.field?.isSome || c.isNamed)

namespace Node

/-- Paths down from a node, with the number of steps into places for expressions. -/
inductive Reaches : Node → Nat → Node → Prop
  | here (n : Node) : Reaches n 0 n
  | enter {n c m : Node} {k : Nat} (child : c ∈ n.children) (holds : n.kind.holds c = true)
      (more : Reaches c k m) : Reaches n (k + 1) m
  | pass {n c m : Node} {k : Nat} (child : c ∈ n.children) (not : n.kind.holds c = false)
      (more : Reaches c k m) : Reaches n k m

/-- An error around tokens, whatever its role. -/
structure Swallows (n : Node) : Prop where
  kind : n.kind = .error
  tokens : ∀ c ∈ n.children, c.TokenLeaf ∨ c.Literal

/-- No path enters more places than `depth`, and the last one holds an error around tokens. -/
def Nested (depth : Nat) (n : Node) : Prop :=
  ∀ k m c, n.Reaches k m → c ∈ m.children → m.kind.holds c = true →
    k < depth ∧ (k + 1 = depth → c.Swallows)

/-- What may stand in a place for expressions where so many may still be entered. -/
def Enters (depth : Nat) (c : Node) : Prop :=
  ∃ k, depth = k + 1 ∧ c.Nested k ∧ (k = 0 → c.Swallows)

/-- What may be a child of a node of some kind. -/
def Fits (depth : Nat) (kind : Kind) (c : Node) : Prop :=
  (kind.holds c = true → c.Enters depth) ∧ (kind.holds c = false → c.Nested depth)

variable {n c : Node} {depth : Nat} {kind : Kind}

theorem Stray.swallows (h : n.Stray) : n.Swallows :=
  ⟨h.kind, h.tokens⟩

theorem Swallows.assign (h : n.Swallows) (field : Option Field) : (n.assign field).Swallows where
  kind := (n.kind_assign field).trans h.kind
  tokens := by
    rw [children_assign]
    exact h.tokens

theorem nested_iff : n.Nested depth ↔ ∀ c ∈ n.children, c.Fits depth n.kind := by
  constructor
  · intro h c hc
    refine ⟨fun hholds ↦ ?_, fun hnot k m t hreach ht ↦ h k m t (.pass hc hnot hreach) ht⟩
    obtain ⟨hpos, hstray⟩ := h 0 n c (.here n) hc hholds
    obtain ⟨k, rfl⟩ := Nat.exists_eq_add_of_lt hpos
    rw [Nat.zero_add] at hstray h ⊢
    refine ⟨k, rfl, fun k' m t hreach ht htholds ↦ ?_, fun hk ↦ hstray (by rw [hk])⟩
    obtain ⟨hlt, hlast⟩ := h (k' + 1) m t (.enter hc hholds hreach) ht htholds
    exact ⟨Nat.lt_of_succ_lt_succ hlt, fun hk ↦ hlast (by rw [hk])⟩
  · intro h k m t hreach ht hholds
    cases hreach with
    | here =>
        obtain ⟨k, rfl, -, hstray⟩ := (h t ht).1 hholds
        exact ⟨Nat.succ_pos k, fun hk ↦ hstray (Nat.succ.inj hk).symm⟩
    | @enter _ c _ k child holds more =>
        obtain ⟨k', rfl, hnested, -⟩ := (h c child).1 holds
        obtain ⟨hlt, hlast⟩ := hnested k m t more ht hholds
        exact ⟨Nat.succ_lt_succ hlt, fun hk ↦ hlast (Nat.succ.inj hk)⟩
    | @pass _ c _ _ child not more => exact (h c child).2 not k m t more ht hholds

theorem nested_of_leaf (h : n.children = []) : n.Nested depth :=
  nested_iff.mpr (by simp [h])

theorem Nested.succ (h : n.Nested depth) : n.Nested (depth + 1) := by
  intro k m c hreach hc hholds
  have hlt := (h k m c hreach hc hholds).1
  exact ⟨Nat.lt_succ_of_lt hlt, fun hk ↦ absurd (Nat.succ.inj hk) hlt.ne⟩

theorem Nested.assign (h : n.Nested depth) (field : Option Field) :
    (n.assign field).Nested depth := by
  rw [nested_iff] at h ⊢
  rwa [children_assign, kind_assign]

theorem Enters.nested (h : c.Enters depth) : c.Nested depth := by
  obtain ⟨k, rfl, hnested, -⟩ := h
  exact hnested.succ

/-- What may be entered may stand anywhere. -/
theorem Enters.fits (h : c.Enters depth) (kind : Kind) : c.Fits depth kind :=
  ⟨fun _ ↦ h, fun _ ↦ h.nested⟩

theorem Nested.fits (h : c.Nested depth) (hkind : kind.holds c = false) : c.Fits depth kind :=
  ⟨fun hholds ↦ (Bool.false_ne_true (hkind.symm.trans hholds)).elim, fun _ ↦ h⟩

end Node

theorem Kind.holds_of_isSimple {k : Kind} (h : k.isSimple = true) (c : Node) :
    k.holds c = false := by
  have hnests : k.nests c.field? = false := by
    unfold nests
    split <;> first | cases h | rfl
  simp [holds, hnests]

theorem Kind.holds_of_nests {k : Kind} {c : Node} (h : k.nests c.field? = false) :
    k.holds c = false := by
  simp [holds, h]

theorem Kind.holds_of_terminal {k : Kind} {c : Node} {t : Terminal} (hfield : c.field? = none)
    (hkind : c.kind = .terminal t) : k.holds c = false := by
  simp [holds, hfield, Node.isNamed, hkind, Kind.isNamed]

namespace Node

variable {n : Node} {depth : Nat}

theorem Literal.nested (h : n.Literal) : n.Nested depth :=
  nested_iff.mpr fun c hc ↦ (nested_of_leaf (h.pieces c hc).1).fits <|
    Kind.holds_of_isSimple (by rw [h.kind]; rfl) c

theorem Stray.nested (h : n.Stray) : n.Nested depth := by
  refine nested_iff.mpr fun c hc ↦ Nested.fits ?_ (Kind.holds_of_isSimple (by rw [h.kind]; rfl) c)
  rcases h.tokens c hc with hleaf | hliteral
  · exact nested_of_leaf hleaf.children
  · exact hliteral.nested

theorem Stray.enters (h : n.Stray) : n.Enters (depth + 1) :=
  ⟨depth, rfl, h.nested, fun _ ↦ h.swallows⟩

theorem Around.nested {field : Option Field} {kind : Kind} {ms : List Node}
    (h : n.Around field kind ms) (hms : ∀ c ∈ ms, c.Fits depth kind) : n.Nested depth := by
  refine nested_iff.mpr fun c hc ↦ ?_
  rw [h.kind]
  rcases h.mem_or_comment hc with hc | ⟨hextra, hleaf⟩
  · exact hms c hc
  · exact (nested_of_leaf hleaf.children).fits (by simp [Kind.holds, hextra])

end Node

namespace Phrase

/-- Whether what a phrase puts into places for expressions in a kind of construct are its operands,
all of them and nothing else. -/
def places (k : Kind) : Phrase → Bool
  | done => true
  | word field _ next => !k.nests field && next.places k
  | take field next => (field.isNone || !k.nests field) && next.places k
  | node field kind body next => !k.nests field && body.places kind && next.places k
  | choose _ yes no next => yes.places k && no.places k && next.places k
  | loop _ body next => body.places k && next.places k
  | operand field _ next => k.nests field && next.places k
  | expect _ next | literal next | skip _ next | absent next => next.places k

variable {E : Node → Prop} {depth : Nat}

/-- In a construct that puts only operands into its places, an operand may be entered and what
else there is need not be. -/
theorem Yields.fits (hE : ∀ n, E n → n.Nested depth ∧ (depth = 0 → n.Swallows)) {p : Phrase}
    {ms : List Node} (h : p.Yields E ms) {k : Kind} (hp : p.places k = true) :
    ∀ c ∈ ms, c.Fits (depth + 1) k := by
  induction h generalizing k with
  | done => simp
  | expect stray leaf kind _ ih =>
      rw [List.forall_mem_append, List.forall_mem_cons]
      exact ⟨fun c hc ↦ (stray c hc).enters.fits k, (Node.nested_of_leaf leaf.children).fits
        (Kind.holds_of_terminal leaf.field kind), ih hp⟩
  | take leaf kind _ ih =>
      rw [places, Bool.and_eq_true, Bool.or_eq_true] at hp
      refine List.forall_mem_cons.mpr ⟨(Node.nested_of_leaf leaf.children).fits ?_, ih hp.2⟩
      rcases hp.1 with hnone | hnests
      · exact Kind.holds_of_terminal (leaf.field.trans (Option.isNone_iff_eq_none.mp hnone)) kind
      · exact Kind.holds_of_nests (by rw [leaf.field]; simpa using hnests)
  | word leaf _ ih =>
      rw [places, Bool.and_eq_true] at hp
      exact List.forall_mem_cons.mpr ⟨(Node.nested_of_leaf leaf.children).fits
        (Kind.holds_of_nests (by rw [leaf.field]; simpa using hp.1)), ih hp.2⟩
  | @operand field _ _ _ n _ part _ ih =>
      obtain ⟨hnested, hlast⟩ := hE n part
      -- One place is used up here, and what is inside has the others.
      have henters : (n.assign field).Enters (depth + 1) :=
        ⟨depth, rfl, hnested.assign field, fun hzero ↦ (hlast hzero).assign field⟩
      rw [places, Bool.and_eq_true] at hp
      exact List.forall_mem_cons.mpr ⟨henters.fits k, ih hp.2⟩
  | node around _ _ ih ih' =>
      rw [places, Bool.and_eq_true, Bool.and_eq_true] at hp
      obtain ⟨⟨hnests, hbody⟩, hnext⟩ := hp
      exact List.forall_mem_cons.mpr ⟨(around.nested (ih hbody)).fits
        (Kind.holds_of_nests (by rw [around.field]; simpa using hnests)), ih' hnext⟩
  | yes _ _ ih ih' =>
      rw [places, Bool.and_eq_true, Bool.and_eq_true] at hp
      exact List.forall_mem_append.mpr ⟨ih hp.1.1, ih' hp.2⟩
  | no _ _ ih ih' =>
      rw [places, Bool.and_eq_true, Bool.and_eq_true] at hp
      exact List.forall_mem_append.mpr ⟨ih hp.1.2, ih' hp.2⟩
  | again _ _ ih ih' =>
      have hbody := (Bool.and_eq_true _ _ ▸ hp : _ ∧ _).1
      exact List.forall_mem_append.mpr ⟨ih hbody, ih' hp⟩
  | last _ ih => exact ih (Bool.and_eq_true _ _ ▸ hp : _ ∧ _).2
  | skip stray _ ih =>
      exact List.forall_mem_append.mpr ⟨fun c hc ↦ (stray c hc).enters.fits k, ih hp⟩

theorem places_file : file.places .sourceFile = true := by
  decide

end Phrase

namespace Node

/-- Climbing does not go deeper: the first part of what goes on stands in no place that counts. -/
theorem Climbs.nested {E : Node → Prop} {depth : Nat}
    (hE : ∀ n, E n → n.Nested depth ∧ (depth = 0 → n.Swallows)) {n : Node} (h : n.Climbs E) :
    n.Nested (depth + 1) := by
  induction h with
  | leaf h => exact nested_of_leaf h.children
  | literal h => exact h.nested
  | stray h => exact h.nested
  | construct mem around parts =>
      have hall : ∀ entry ∈ Phrase.constructs, entry.2.2.places entry.2.1 = true := by decide
      exact around.nested (parts.fits hE (hall _ mem))
  | @continued next first n ms mem part extra around parts ih =>
      -- The first part keeps all the places it may enter, since its own place does not count.
      have hall : ∀ next ∈ Continuation.all, next.phrase.places next.kind = true ∧
          next.kind.nests (some next.field) = false := by decide
      obtain ⟨hplaces, hfirst⟩ := hall next mem
      refine around.nested (List.forall_mem_cons.mpr ⟨?_, parts.fits hE hplaces⟩)
      refine (ih.assign _).fits (Kind.holds_of_nests ?_)
      rwa [field_assign extra]

theorem Expression.nested {depth : Nat} {n : Node} (h : n.Expression depth) :
    n.Nested depth ∧ (depth = 0 → n.Swallows) := by
  induction depth generalizing n with
  | zero => exact ⟨Stray.nested h, fun _ ↦ Stray.swallows h⟩
  | succ depth ih => exact ⟨Climbs.nested (fun _ ↦ ih) h, nofun⟩

/-- No path enters more places than all nodes below it allow, wherever it ends. -/
theorem Nested.le {n m : Node} {depth k : Nat} (h : n.Nested depth) (hreach : n.Reaches k m) :
    k ≤ depth := by
  induction hreach generalizing depth with
  | here => exact Nat.zero_le _
  | enter child holds _ ih =>
      obtain ⟨k', rfl, hnested, -⟩ := (nested_iff.mp h _ child).1 holds
      exact Nat.succ_le_succ (ih hnested)
  | pass child not _ ih => exact ih ((nested_iff.mp h _ child).2 not)

end Node

theorem Tree.nested_parse (l : Language) (config : Config) (source : String) :
    (parse l config source).root.Nested (config.maxDepth + 1) := by
  obtain ⟨ms, haround, hyields⟩ := exists_yields_parse l config source
  exact haround.nested (hyields.fits (fun _ ↦ Node.Expression.nested) Phrase.places_file)

open Draft

/-- While a file is executed, no more expressions are under way inside one another than the limit
says, and each leaves the count as it was. Parsing goes along with every execution. On a path down
the tree there is one place more at most that expressions are in, and what is in the last one is an
error around tokens. -/
theorem Parser.depth_of_parse {p q : Parser} {l : Language} (hlanguage : p.setLanguage l = .ok q)
    (config : Config) (source : String) :
    ∃ tree, (q.setConfig config).parse? source = some tree ∧
      (let a := Tree.arrangement config source
      ∃ e k, Executes l.levels config.maxDepth Consumes (.phrase .file) 0
          (.blank (Tree.initialState a.items)) 0 e k ∧
        tree.root.children = (e.addComments a.trailing).nodes.toList ∧
        (Workspace.start a.items a.trailing).Reaches []
          (Phrase.file.build l.levels (Parsing.expression l.levels config.maxDepth) {}
            (.start a.items a.trailing)) e ∧
        k ≤ config.maxDepth) ∧
      (∀ R j c d c' e k, Executes l.levels config.maxDepth R j c d c' e k →
        c' = c ∧ k ≤ config.maxDepth - c) ∧
      (∀ R p c d c' e k, p.steady = true →
        Executes l.levels config.maxDepth R (.phrase p) c d c' e k →
        ∀ (w : Workspace) (rest : List Nat) (b : Builder), w.Shows rest b d → w.Reaches rest
          (p.build l.levels (Parsing.expression l.levels (config.maxDepth - c)) b w) e) ∧
      (∀ k n, tree.root.Reaches k n → k ≤ config.maxDepth + 1) ∧
      ∀ n c, tree.root.Reaches config.maxDepth n → c ∈ n.children → n.kind.holds c = true →
        c.kind = .error ∧ ∀ t ∈ c.children, t.TokenLeaf ∨ t.Literal := by
  obtain ⟨k, hfile⟩ := Tree.executes_fileDraft l.levels config.maxDepth
    (Tree.arrangement config source)
  have hnested := Tree.nested_parse l config source
  have hchildren := Tree.children_root_eq_draft l config source
  refine ⟨_, parse?_of_setLanguage hlanguage config source,
    ⟨_, k, hfile, hchildren, hfile.reaches Phrase.steady_file (Workspace.shows_start _),
      hfile.count_eq.2⟩,
    fun R j c d c' e k h ↦ h.count_eq,
    fun R p c d c' e k hsteady h w rest b hw ↦ h.reaches hsteady hw,
    fun k n hreach ↦ hnested.le hreach, ?_⟩
  intro n c hreach hc hholds
  obtain ⟨hkind, htokens⟩ := (hnested _ n c hreach hc hholds).2 rfl
  exact ⟨hkind, htokens⟩

/-- Brackets in brackets where one level is allowed. -/
theorem Parser.depth_of_parse_brackets :
    let s := "class A \x7b x : B <- f.g(1, (2 + \"a\")) -- c\n + 3; \x7d;"
    Parser.setLanguage {} .cool = .ok { language := some .cool } ∧
      ∃ tree, (Parser.setConfig { language := some .cool } ⟨1, true⟩).parse? s = some tree ∧
        (tree.root.preorder.map (·.kind)).count .error = 3 ∧
        (∀ k n, tree.root.Reaches k n → k ≤ 2) ∧
        ∀ n c, tree.root.Reaches 1 n → c ∈ n.children → n.kind.holds c = true →
          c.kind = .error ∧ ∀ t ∈ c.children, t.TokenLeaf ∨ t.Literal := by
  intro s
  obtain ⟨tree, htree, -, -, -, hreach, hlast⟩ := depth_of_parse (setLanguage_cool {}) ⟨1, true⟩ s
  refine ⟨setLanguage_cool {}, tree, htree, ?_, hreach, hlast⟩
  obtain rfl := Option.some.inj htree
  simp only [Tree.parse, Language.levels_cool]
  decide +kernel

end CoolTree
