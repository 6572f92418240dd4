import CoolTree.Proofs.Makeup
import CoolTree.Proofs.Packaged
import CoolTree.Proofs.Report
import Mathlib.Algebra.Ring.Int.Defs

/-!
# The schema of nodes

Which roles are played below a node depends on its kind alone: some once, some once at most, some
any number of times and all others never, and some as often as others at most. This holds for every
source, since where a part is not there a missing one or an error plays its role.

A phrase gives bounds on how often roles are played: with a weight for each role, the parts it adds
weigh no less than the lightest way through it, if a round of a loop never makes them lighter. So
the schema is checked once for the phrase of each kind of construct.
-/

namespace CoolTree

/-- How often a role is played below a node. -/
inductive Occurrence where
  | never
  | perhaps
  | once
  | often

def Occurrence.Allows : Occurrence → Nat → Prop
  | never, n => n = 0
  | perhaps, n => n ≤ 1
  | once, n => n = 1
  | often, _ => True

namespace Kind

/-- How often each role is played below a node of a kind. -/
def occurrence : Kind → Field → Occurrence
  | classItem, .name | classItem, .features => .once
  | classItem, .inherits => .perhaps
  | methodDeclaration, .name | methodDeclaration, .parameters | methodDeclaration, .returnType
  | methodDeclaration, .body => .once
  | attributeDeclaration, .name | attributeDeclaration, .type => .once
  | attributeDeclaration, .right => .perhaps
  | parameter, .name | parameter, .type => .once
  | casePattern, .name | casePattern, .type => .once
  | assignmentExpression, .left | assignmentExpression, .right => .once
  | binaryExpression, .left | binaryExpression, .operator | binaryExpression, .right => .once
  | dispatchExpression, .method | dispatchExpression, .arguments => .once
  | dispatchExpression, .value | dispatchExpression, .type => .perhaps
  | ifExpression, .condition | ifExpression, .consequence => .once
  | ifExpression, .alternative => .perhaps
  | whileExpression, .condition | whileExpression, .body => .once
  | letExpression, .body => .once
  | letExpression, .name | letExpression, .type | letExpression, .right => .often
  | caseExpression, .value => .once
  | caseExpression, .body => .often
  | caseArm, .pattern | caseArm, .value => .once
  | newExpression, .type => .once
  | _, _ => .never

/-- The roles of which the first is played no more often than the second. -/
def pairs : Kind → List (Field × Field)
  | dispatchExpression => [(.type, .value)]
  | letExpression => [(.type, .name), (.name, .type), (.right, .name)]
  | _ => []

/-- The kind of construct that plays a role, where it is always the same. -/
def filler? : Kind → Field → Option Kind
  | classItem, .features => some fieldDeclarationList
  | methodDeclaration, .parameters => some parameters
  | dispatchExpression, .arguments => some arguments
  | caseExpression, .body => some caseArm
  | caseArm, .pattern => some casePattern
  | _, _ => none

end Kind

namespace Node

/-- How often a role is played below a node. -/
def count (n : Node) (f : Field) : Nat :=
  n.children.countP (·.field? = some f)

/-- A child of a node of some kind is the construct that its role asks for. -/
def Fills (k : Kind) (c : Node) : Prop :=
  ∀ f k', c.field? = some f → k.filler? f = some k' → c.kind = k'

/-- A node has the children that its kind asks for. -/
structure Conforms (n : Node) : Prop where
  occurs : ∀ f, (n.kind.occurrence f).Allows (n.count f)
  paired : ∀ f g, (f, g) ∈ n.kind.pairs → n.count f ≤ n.count g
  filled : ∀ c ∈ n.children, c.Fills n.kind

/-- A node conforms with all that is below it. -/
def Sound (n : Node) : Prop :=
  ∀ m ∈ n.preorder, m.Conforms

end Node

/-! ### Weights -/

/-- The weight of a role, if there is one. -/
def Field.weigh (w : Field → Int) : Option Field → Int
  | none => 0
  | some f => w f

/-- The weight that counts one role. -/
def Field.unit (f g : Field) : Int :=
  if g = f then 1 else 0

/-- The weight of the roles that some nodes play. -/
def Node.tally (w : Field → Int) (ns : List Node) : Int :=
  (ns.map fun n ↦ Field.weigh w n.field?).sum

/-- The bounds on weights that an occurrence comes to. -/
def Occurrence.laws (f : Field) : Occurrence → List ((Field → Int) × Int)
  | never => [(-f.unit, 0)]
  | perhaps => [(-f.unit, -1)]
  | once => [(f.unit, 1), (-f.unit, -1)]
  | often => []

/-- The bounds on weights that the schema of a kind comes to. -/
def Kind.laws (k : Kind) : List ((Field → Int) × Int) :=
  Field.all.flatMap (fun f ↦ (k.occurrence f).laws f) ++
    k.pairs.map fun (f, g) ↦ (g.unit - f.unit, (0 : Int))

namespace Phrase

/-- The weight of the lightest way through a phrase, with no rounds of loops. -/
def least (w : Field → Int) : Phrase → Int
  | done => 0
  | take field next | word field _ next | operand field _ next | node field _ _ next =>
    Field.weigh w field + next.least w
  | choose _ yes no next => min (yes.least w) (no.least w) + next.least w
  | expect _ next | loop _ _ next | literal next | skip _ next | absent next => next.least w

/-- Whether no round of a loop makes a phrase lighter. -/
def covered (w : Field → Int) : Phrase → Bool
  | done => true
  | choose _ yes no next => yes.covered w && no.covered w && next.covered w
  | loop _ body next => decide (0 ≤ body.least w) && body.covered w && next.covered w
  | expect _ next | take _ next | word _ _ next | literal next | operand _ _ next
  | node _ _ _ next | skip _ next | absent next => next.covered w

/-- Whether the roles that a phrase gives are as the schema of a kind asks. -/
def lawful (k : Kind) (p : Phrase) : Bool :=
  k.laws.all fun law ↦ p.covered law.1 && decide (law.2 ≤ p.least law.1)

/-- Whether the constructs in a phrase are lawful and play the roles that they should in a construct
of some kind. -/
def schematic (k : Kind) : Phrase → Bool
  | done => true
  | take field next | word field _ next | operand field _ next =>
    (field.bind k.filler?).isNone && next.schematic k
  | node field kind body next =>
    (field.bind k.filler?).all (· = kind) && body.lawful kind && body.schematic kind &&
      next.schematic k
  | choose _ yes no next => yes.schematic k && no.schematic k && next.schematic k
  | loop _ body next => body.schematic k && next.schematic k
  | expect _ next | literal next | skip _ next | absent next => next.schematic k

end Phrase

/-- Whether a phrase makes nodes of some kind that are as the schema asks. -/
def Phrase.conforming (k : Kind) (p : Phrase) : Bool :=
  p.lawful k && p.schematic k

/-- The phrase of what goes on, together with what it goes on from. -/
def Continuation.whole (next : Continuation) : Phrase :=
  .operand (some next.field) .assign next.phrase

/-! ### What the parts of a phrase weigh -/

section Weights

variable {w : Field → Int} {ns : List Node}

@[simp] theorem Field.weigh_none (w : Field → Int) : weigh w none = 0 := rfl

@[simp] theorem Node.tally_cons (w : Field → Int) (n : Node) (ns : List Node) :
    tally w (n :: ns) = Field.weigh w n.field? + tally w ns := by
  simp [tally]

@[simp] theorem Node.tally_append (w : Field → Int) (ns ms : List Node) :
    tally w (ns ++ ms) = tally w ns + tally w ms := by
  simp [tally]

/-- What plays no role does not weigh. -/
theorem Node.tally_of_field_none (h : ∀ n ∈ ns, n.field? = none) : tally w ns = 0 := by
  induction ns with
  | nil => rfl
  | cons n ns ih =>
      rw [List.forall_mem_cons] at h
      rw [tally_cons, h.1, ih h.2, Field.weigh_none, Int.add_zero]

theorem Node.tally_neg (w : Field → Int) (ns : List Node) : tally (-w) ns = -tally w ns := by
  induction ns with
  | nil => rfl
  | cons n ns ih =>
      have hweigh : Field.weigh (-w) n.field? = -Field.weigh w n.field? := by
        cases n.field? <;> rfl
      rw [tally_cons, tally_cons, ih, hweigh, Int.neg_add]

theorem Node.tally_sub (w w' : Field → Int) (ns : List Node) :
    tally (w - w') ns = tally w ns - tally w' ns := by
  induction ns with
  | nil => rfl
  | cons n ns ih =>
      have hweigh : Field.weigh (w - w') n.field? =
          Field.weigh w n.field? - Field.weigh w' n.field? := by
        cases n.field? <;> rfl
      rw [tally_cons, tally_cons, tally_cons, ih, hweigh]
      omega

theorem Node.tally_unit (f : Field) (ns : List Node) :
    tally f.unit ns = ns.countP (·.field? = some f) := by
  induction ns with
  | nil => rfl
  | cons n ns ih =>
      have hweigh : Field.weigh f.unit n.field? = if n.field? = some f then 1 else 0 := by
        cases n.field? with
        | none => rfl
        | some g => simp [Field.weigh, Field.unit]
      rw [tally_cons, ih, hweigh, List.countP_cons]
      split_ifs <;> simp_all [Int.add_comm]

end Weights

namespace Phrase

variable {E E' : Node → Prop} {p : Phrase} {ms : List Node}

theorem Yields.mono (hE : ∀ n, E n → E' n) (h : p.Yields E ms) : p.Yields E' ms := by
  induction h with
  | done => exact .done
  | expect stray leaf kind _ ih => exact .expect stray leaf kind ih
  | take leaf kind _ ih => exact .take leaf kind ih
  | word leaf _ ih => exact .word leaf ih
  | operand extra part _ ih => exact .operand extra (hE _ part) ih
  | node around _ _ ih ih' => exact .node around ih ih'
  | yes _ _ ih ih' => exact .yes ih ih'
  | no _ _ ih ih' => exact .no ih ih'
  | again _ _ ih ih' => exact .again ih ih'
  | last _ ih => exact .last ih
  | skip stray _ ih => exact .skip stray ih

/-- The parts of a phrase weigh no less than the lightest way through it. -/
theorem Yields.least_le (h : p.Yields E ms) {w : Field → Int} (hp : p.covered w = true) :
    p.least w ≤ Node.tally w ms := by
  induction h with
  | done => exact Int.le_refl 0
  | expect stray leaf _ _ ih =>
      rw [Node.tally_append, Node.tally_of_field_none fun m hm ↦ (stray m hm).field,
        Node.tally_cons, leaf.field, Field.weigh_none, Int.zero_add, Int.zero_add]
      exact ih hp
  | take leaf _ _ ih | word leaf _ ih =>
      rw [Node.tally_cons, leaf.field]
      exact Int.add_le_add_left (ih hp) _
  | operand extra _ _ ih =>
      rw [Node.tally_cons, Node.field_assign extra]
      exact Int.add_le_add_left (ih hp) _
  | node around _ _ _ ih =>
      rw [Node.tally_cons, around.field]
      exact Int.add_le_add_left (ih hp) _
  | yes _ _ ih ih' =>
      simp only [covered, Bool.and_eq_true] at hp
      rw [Node.tally_append, least]
      exact Int.add_le_add ((min_le_left _ _).trans (ih hp.1.1)) (ih' hp.2)
  | no _ _ ih ih' =>
      simp only [covered, Bool.and_eq_true] at hp
      rw [Node.tally_append, least]
      exact Int.add_le_add ((min_le_right _ _).trans (ih hp.1.2)) (ih' hp.2)
  | again _ _ ih ih' =>
      -- The loop is weighed without rounds, and a round weighs nothing at least.
      have hround := hp
      simp only [covered, Bool.and_eq_true, decide_eq_true_eq] at hround
      have hbody := ih hround.1.2
      have hmore := ih' hp
      rw [Node.tally_append]
      omega
  | last _ ih =>
      simp only [covered, Bool.and_eq_true] at hp
      exact ih hp.2
  | skip stray _ ih =>
      rw [Node.tally_append, Node.tally_of_field_none fun m hm ↦ (stray m hm).field, Int.zero_add]
      exact ih hp

end Phrase

/-! ### Nodes that conform -/

theorem Kind.occurrence_of_isSimple {k : Kind} (h : k.isSimple = true) (f : Field) :
    k.occurrence f = .never := by
  unfold occurrence
  split <;> first | cases h | rfl

theorem Kind.pairs_of_isSimple {k : Kind} (h : k.isSimple = true) : k.pairs = [] := by
  unfold pairs
  split <;> first | cases h | rfl

namespace Node

variable {n : Node}

theorem sound_iff : n.Sound ↔ n.Conforms ∧ ∀ c ∈ n.children, c.Sound := by
  rw [Sound, preorder_eq, List.forall_mem_cons, preorders_eq_flatMap]
  refine and_congr_right fun _ ↦ ⟨fun h c hc m hm ↦ ?_, fun h m hm ↦ ?_⟩
  · exact h m (List.mem_flatMap.mpr ⟨c, hc, hm⟩)
  · obtain ⟨c, hc, hm⟩ := List.mem_flatMap.mp hm
    exact h c hc m hm

theorem Sound.assign (h : n.Sound) (field : Option Field) : (n.assign field).Sound := by
  rw [sound_iff] at h ⊢
  obtain ⟨⟨hoccurs, hpaired, hfilled⟩, hchildren⟩ := h
  refine ⟨⟨?_, ?_, ?_⟩, ?_⟩ <;> simpa only [count, children_assign, kind_assign]

theorem fills_of_field_none (h : n.field? = none) (k : Kind) : n.Fills k := by
  intro f k' hfield
  cases h.symm.trans hfield

theorem fills_of_isNone {field : Option Field} (h : n.field? = field) {k : Kind}
    (hnone : (field.bind k.filler?).isNone = true) : n.Fills k := by
  intro f k' hfield hfiller
  rw [← h, hfield, Option.bind_some, hfiller] at hnone
  cases hnone

/-- Where nobody plays a role, nobody has to. -/
theorem conforms_of_isSimple (hkind : n.kind.isSimple = true)
    (hchildren : ∀ c ∈ n.children, c.field? = none) : n.Conforms where
  occurs := by
    intro f
    rw [Kind.occurrence_of_isSimple hkind]
    exact List.countP_eq_zero.mpr fun c hc ↦ by simp [hchildren c hc]
  paired := by
    intro f g hmem
    rw [Kind.pairs_of_isSimple hkind] at hmem
    cases hmem
  filled := fun c hc ↦ fills_of_field_none (hchildren c hc) n.kind

theorem sound_of_leaf (hkind : n.kind.isSimple = true) (hchildren : n.children = []) :
    n.Sound :=
  sound_iff.mpr ⟨conforms_of_isSimple hkind (by simp [hchildren]), by simp [hchildren]⟩

theorem TokenLeaf.sound (h : n.TokenLeaf) : n.Sound := by
  obtain ⟨k, hk⟩ := h.kind
  exact sound_of_leaf (hk ▸ Kind.isSimple_leafKind k) h.children

theorem Leaf.sound {field : Option Field} (h : n.Leaf field) : n.Sound :=
  sound_of_leaf h.simple h.children

theorem Literal.sound (h : n.Literal) : n.Sound := by
  refine sound_iff.mpr ⟨conforms_of_isSimple (by rw [h.kind]; rfl) fun c hc ↦ (h.pieces c hc).2.1,
    fun c hc ↦ ?_⟩
  obtain ⟨hchildren, -, hkind⟩ := h.pieces c hc
  exact sound_of_leaf hkind hchildren

theorem Stray.sound (h : n.Stray) : n.Sound := by
  refine sound_iff.mpr ⟨conforms_of_isSimple (by rw [h.kind]; rfl) fun c hc ↦ ?_, fun c hc ↦ ?_⟩
  · exact (h.tokens c hc).elim (·.field) (·.field)
  · exact (h.tokens c hc).elim (·.sound) (·.sound)

theorem Around.count_eq {field : Option Field} {k : Kind} {ms : List Node}
    (h : n.Around field k ms) (f : Field) : n.count f = ms.countP (·.field? = some f) := by
  rw [← h.parts, Node.parts, List.countP_filter]
  refine List.countP_congr fun c hc ↦ ?_
  cases hextra : c.isExtra with
  | false => simp
  | true => simp [(h.comments c hc hextra).field]

theorem allows_of_laws {o : Occurrence} {f : Field} {ms : List Node}
    (h : ∀ law ∈ o.laws f, law.2 ≤ tally law.1 ms) :
    o.Allows (ms.countP (·.field? = some f)) := by
  cases o with
  | never =>
      have hmost := h _ List.mem_cons_self
      rw [tally_neg, tally_unit] at hmost
      simp only [Occurrence.Allows]
      omega
  | perhaps =>
      have hmost := h _ List.mem_cons_self
      rw [tally_neg, tally_unit] at hmost
      simp only [Occurrence.Allows]
      omega
  | once =>
      have hleast := h _ List.mem_cons_self
      have hmost := h _ (List.mem_cons_of_mem _ List.mem_cons_self)
      rw [tally_unit] at hleast
      rw [tally_neg, tally_unit] at hmost
      simp only [Occurrence.Allows]
      omega
  | often => trivial

/-- A node around what a lawful phrase adds conforms. -/
theorem Around.conforms {field : Option Field} {k : Kind} {p : Phrase} {ms : List Node}
    {E : Node → Prop} (h : n.Around field k ms) (hparts : p.Yields E ms) (hp : p.lawful k = true)
    (hfilled : ∀ c ∈ ms, c.Fills k) : n.Conforms := by
  have hlaws : ∀ law ∈ k.laws, law.2 ≤ tally law.1 ms := by
    intro law hlaw
    have hall := List.all_eq_true.mp hp law hlaw
    rw [Bool.and_eq_true, decide_eq_true_eq] at hall
    exact (hall.2).trans (hparts.least_le hall.1)
  refine ⟨fun f ↦ ?_, fun f g hmem ↦ ?_, fun c hc ↦ ?_⟩
  · rw [h.kind, h.count_eq]
    exact allows_of_laws fun law hlaw ↦ hlaws law
      (List.mem_append_left _ (List.mem_flatMap.mpr ⟨f, f.mem_all, hlaw⟩))
  · rw [h.kind] at hmem
    have hlaw := hlaws (g.unit - f.unit, 0)
      (List.mem_append_right _ (List.mem_map.mpr ⟨(f, g), hmem, rfl⟩))
    rw [tally_sub, tally_unit, tally_unit] at hlaw
    rw [h.count_eq, h.count_eq]
    omega
  · rw [h.kind]
    rcases h.mem_or_comment hc with hc | ⟨-, hleaf⟩
    · exact hfilled c hc
    · exact fills_of_field_none hleaf.field k

theorem Around.sound {field : Option Field} {k : Kind} {p : Phrase} {ms : List Node}
    {E : Node → Prop} (h : n.Around field k ms) (hparts : p.Yields E ms) (hp : p.lawful k = true)
    (hms : ∀ c ∈ ms, c.Sound ∧ c.Fills k) : n.Sound := by
  refine sound_iff.mpr ⟨h.conforms hparts hp fun c hc ↦ (hms c hc).2, fun c hc ↦ ?_⟩
  rcases h.mem_or_comment hc with hc | ⟨-, hleaf⟩
  · exact (hms c hc).1
  · exact hleaf.sound

end Node

namespace Phrase

/-- In a construct of some kind, the parts of a schematic phrase are sound and play the roles that
they should. -/
theorem Yields.sound {p : Phrase} {ms : List Node} (h : p.Yields Node.Sound ms) {k : Kind}
    (hp : p.schematic k = true) : ∀ c ∈ ms, c.Sound ∧ c.Fills k := by
  induction h generalizing k with
  | done => simp
  | expect stray leaf _ _ ih =>
      rw [List.forall_mem_append, List.forall_mem_cons]
      exact ⟨fun c hc ↦ ⟨(stray c hc).sound, Node.fills_of_field_none (stray c hc).field k⟩,
        ⟨leaf.sound, Node.fills_of_field_none leaf.field k⟩, ih hp⟩
  | take leaf _ _ ih | word leaf _ ih =>
      rw [schematic, Bool.and_eq_true] at hp
      exact List.forall_mem_cons.mpr
        ⟨⟨leaf.sound, Node.fills_of_isNone leaf.field hp.1⟩, ih hp.2⟩
  | operand extra part _ ih =>
      rw [schematic, Bool.and_eq_true] at hp
      exact List.forall_mem_cons.mpr
        ⟨⟨part.assign _, Node.fills_of_isNone (Node.field_assign extra _) hp.1⟩, ih hp.2⟩
  | @node field kind _ _ _ _ _ around part _ ih ih' =>
      simp only [schematic, Bool.and_eq_true] at hp
      obtain ⟨⟨⟨hfiller, hlawful⟩, hbody⟩, hnext⟩ := hp
      have hinner := ih hbody
      refine List.forall_mem_cons.mpr ⟨⟨around.sound part hlawful hinner, ?_⟩, ih' hnext⟩
      intro f k' hfield hk'
      rw [← around.field, hfield, Option.bind_some, hk', Option.all_some,
        decide_eq_true_eq] at hfiller
      exact around.kind.trans hfiller.symm
  | yes _ _ ih ih' =>
      simp only [schematic, Bool.and_eq_true] at hp
      exact List.forall_mem_append.mpr ⟨ih hp.1.1, ih' hp.2⟩
  | no _ _ ih ih' =>
      simp only [schematic, Bool.and_eq_true] at hp
      exact List.forall_mem_append.mpr ⟨ih hp.1.2, ih' hp.2⟩
  | again _ _ ih ih' =>
      have hround := hp
      rw [schematic, Bool.and_eq_true] at hround
      exact List.forall_mem_append.mpr ⟨ih hround.1, ih' hp⟩
  | last _ ih =>
      rw [schematic, Bool.and_eq_true] at hp
      exact ih hp.2
  | skip stray _ ih =>
      exact List.forall_mem_append.mpr ⟨fun c hc ↦
        ⟨(stray c hc).sound, Node.fills_of_field_none (stray c hc).field k⟩, ih hp⟩

theorem conforming_file : file.conforming .sourceFile = true := by
  decide

theorem conforming_of_mem_constructs {known : List Test} {kind : Kind} {body : Phrase}
    (h : (known, kind, body) ∈ constructs) : body.conforming kind = true := by
  have hall : ∀ entry ∈ constructs, entry.2.2.conforming entry.2.1 = true := by decide
  exact hall _ h

end Phrase

namespace Node

theorem Around.sound_of_conforming {n : Node} {field : Option Field} {k : Kind} {p : Phrase}
    {ms : List Node} (h : n.Around field k ms) (hparts : p.Yields Sound ms)
    (hp : p.conforming k = true) : n.Sound := by
  rw [Phrase.conforming, Bool.and_eq_true] at hp
  exact h.sound hparts hp.1 (hparts.sound hp.2)

theorem Climbs.sound {E : Node → Prop} (hE : ∀ n, E n → n.Sound) {n : Node} (h : n.Climbs E) :
    n.Sound := by
  induction h with
  | leaf h => exact h.sound
  | literal h => exact h.sound
  | stray h => exact h.sound
  | construct mem around parts =>
      exact around.sound_of_conforming (parts.mono hE) (Phrase.conforming_of_mem_constructs mem)
  | continued mem _ extra around parts ih =>
      -- What it goes on from counts as one more operand in front.
      have hall : ∀ next ∈ Continuation.all, next.whole.conforming next.kind = true := by decide
      exact around.sound_of_conforming (.operand extra ih (parts.mono hE)) (hall _ mem)

theorem Expression.sound {depth : Nat} {n : Node} (h : n.Expression depth) : n.Sound := by
  induction depth generalizing n with
  | zero => exact Stray.sound h
  | succ depth ih => exact Climbs.sound (fun _ ↦ ih) h

end Node

theorem Tree.root_sound (l : Language) (config : Config) (source : String) :
    (parse l config source).root.Sound := by
  obtain ⟨ms, haround, hyields⟩ := exists_yields_parse l config source
  exact haround.sound_of_conforming (hyields.mono fun _ ↦ Node.Expression.sound)
    Phrase.conforming_file

/-- Each node has the children that its kind asks for, whatever the source is. -/
theorem Parser.conforms_of_parse {p q : Parser} {l : Language} (hlanguage : p.setLanguage l = .ok q)
    (config : Config) (source : String) :
    ∃ tree, (q.setConfig config).parse? source = some tree ∧
      ∀ c ∈ (Cursor.ofTree tree).descendants, c.node.Conforms := by
  refine ⟨_, parse?_of_setLanguage hlanguage config source, fun c hc ↦ ?_⟩
  have hmem := Tree.mem_preorder_of_mem_descendants (Tree.sound_parse l config source) hc
  exact Tree.root_sound l config source c.node hmem

/-- A source in which every construct is broken off. -/
theorem Parser.conforms_of_parse_broken :
    let s :=
      "class \x7b f(x) : \x7b let y : <- in case while 1 of w => a@.(; esac \x7d; g : <- (2 +"
    Parser.setLanguage {} .cool = .ok { language := some .cool } ∧
      ∃ tree, (Parser.setConfig { language := some .cool } ⟨3, true⟩).parse? s = some tree ∧
        (tree.root.preorder.filter Node.isMissing).length = 19 ∧
        (tree.root.preorder.filter Node.isError).length = 2 ∧
        ∀ c ∈ (Cursor.ofTree tree).descendants, c.node.Conforms := by
  intro s
  obtain ⟨tree, htree, hconforms⟩ := conforms_of_parse (setLanguage_cool {}) ⟨3, true⟩ s
  have hfaults : (tree.root.preorder.filter Node.isMissing).length = 19 ∧
      (tree.root.preorder.filter Node.isError).length = 2 := by
    obtain rfl := Option.some.inj htree
    simp only [Tree.parse, Language.levels_cool]
    decide +kernel
  exact ⟨setLanguage_cool {}, tree, htree, hfaults.1, hfaults.2, hconforms⟩

end CoolTree
