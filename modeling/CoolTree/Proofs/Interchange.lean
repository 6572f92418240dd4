import CoolTree.Proofs.Kinship
import CoolTree.Proofs.Lockstep

/-!
# Languages that bind alike

Parsing compares binding strengths and does nothing else with them. Two languages whose strengths
compare alike, and whose operators group to the same sides, therefore give the same tree, however
the strengths, symbols and fields are numbered. The names that a language finds under its own
numbers are those of the kinds and fields.
-/

namespace CoolTree

/-- What has a binding strength. -/
inductive Strength where
  | call
  | super
  | comp
  | isvoid
  | negation
  | assign
  | operator (o : Operator)
  deriving DecidableEq

namespace Strength

def all : List Strength :=
  [call, super, comp, isvoid, negation, assign] ++ Operator.all.map operator

theorem mem_all (a : Strength) : a ∈ all := by
  cases a with
  | operator o => exact List.mem_append_right _ (List.mem_map_of_mem o.mem_all)
  | _ => decide

end Strength

namespace Levels

def value (v : Levels) : Strength → Int
  | .call => v.call
  | .super => v.super
  | .comp => v.comp
  | .isvoid => v.isvoid
  | .negation => v.negation
  | .assign => v.assign
  | .operator o => (v.operator o).strength

/-- Strengths that compare alike, for operators that group alike. -/
structure Alike (v w : Levels) : Prop where
  compare : ∀ a b, compare (w.value a) (w.value b) = compare (v.value a) (v.value b)
  associativity : ∀ o, (w.operator o).associativity = (v.operator o).associativity

variable {v w : Levels}

theorem Alike.le_iff (h : v.Alike w) (a b : Strength) :
    w.value a ≤ w.value b ↔ v.value a ≤ v.value b := by
  rw [← Std.isLE_compare, ← Std.isLE_compare, h.compare]

theorem Alike.lt_iff (h : v.Alike w) (a b : Strength) :
    w.value a < w.value b ↔ v.value a < v.value b := by
  rw [← Int.not_le, ← Int.not_le, h.le_iff]

/-- A bound admits the same strengths on both sides. For an operator that groups to the left these
are the strengths above its own. -/
theorem Alike.bound_le_iff (h : v.Alike w) (hv : v.Exact) (hw : w.Exact) (bound : Bound)
    (a : Strength) : w.bound bound ≤ w.value a ↔ v.bound bound ≤ v.value a := by
  cases bound with
  | assign => exact h.le_iff .assign a
  | isvoid => exact h.le_iff .isvoid a
  | negation => exact h.le_iff .negation a
  | comp => exact h.le_iff .comp a
  | rightOf o =>
      rw [bound, bound, h.associativity]
      cases (v.operator o).associativity with
      | left =>
          dsimp only
          rw [hv, hw, Int.add_one_le_iff, Int.add_one_le_iff]
          exact h.lt_iff (.operator o) a
      | right => exact h.le_iff (.operator o) a

end Levels

/-- What continues an expression depends on the strengths that are admitted, not on their values. -/
theorem Continuation.of?_congr {v w : Levels} {least least' : Int}
    (h : ∀ a, least' ≤ w.value a ↔ least ≤ v.value a) (k : TokenKind) :
    of? w least' k = of? v least k := by
  have hoperator : ∀ o, least' ≤ (w.operator o).strength ↔ least ≤ (v.operator o).strength :=
    fun o ↦ h (.operator o)
  have hcall : least' ≤ w.call ↔ least ≤ v.call := h .call
  have hsuper : least' ≤ w.super ↔ least ≤ v.super := h .super
  unfold of?
  simp only [hoperator, hcall, hsuper]

theorem Levels.Alike.interchangeable {v w : Levels} (h : v.Alike w) (hv : v.Exact)
    (hw : w.Exact) : v.Interchangeable w :=
  fun bound ↦ Continuation.of?_congr (h.bound_le_iff hv hw bound)

/-- Where no value is the largest word, the operators have levels above their own. -/
theorem Language.exact_of_value_ne {l : Language}
    (h : ∀ a, l.levels.value a ≠ Int32.maxValue.toInt) : l.levels.Exact := by
  refine exact_levels fun o ↦ ?_
  obtain ⟨w, hw⟩ := l.exists_toInt_strength o
  have hle : (l.levels.operator o).strength ≤ Int32.maxValue.toInt := hw ▸ w.toInt_le
  exact Int.lt_iff_le_and_ne.mpr ⟨hle, h (.operator o)⟩

section

variable {v w : Levels} {x y : Int → Parsing Parcel}

/-- A phrase is built in the same way if its operands are parsed in the same way. -/
theorem Phrase.build_congr (h : ∀ bound, y (w.bound bound) = x (v.bound bound)) (p : Phrase) :
    p.build w y = p.build v x := by
  induction p with
  | done => rfl
  | operand field bound next ih => funext b; simp only [build, h, ih]
  | node field kind body next ihbody ih => funext b; simp only [build, ihbody, ih]
  | choose test yes no next ihyes ihno ih => funext b; simp only [build, ihyes, ihno, ih]
  | loop test body next ihbody ih => funext b; simp only [build, ihbody, ih]
  | expect _ next ih | take _ next ih | word _ _ next ih | literal next ih | skip _ next ih
  | absent next ih => funext b; simp only [build, ih]

theorem Parsing.climb_congr (h : ∀ bound, y (w.bound bound) = x (v.bound bound))
    {least least' : Int}
    (hleast : ∀ k, Continuation.of? w least' k = Continuation.of? v least k) (left : Parcel)
    (space : Workspace) : climb w y least' left space = climb v x least left space := by
  have hextend : ∀ c left, extend w y c left = extend v x c left := by
    intro c left
    rw [extend, extend, Phrase.build_congr h]
  induction hsize : space.input.size using Nat.strongRecOn generalizing left space with
  | ind size ih =>
      rw [climb, climb, hleast]
      cases Continuation.of? v least space.input.current with
      | none => rfl
      | some next =>
          dsimp only
          rw [hextend]
          split
          case isTrue hless => exact ih _ (hsize ▸ hless) _ _ rfl
          case isFalse => rfl

/-- An expression is parsed in the same way if what is asked for admits the same tokens. -/
theorem Parsing.expression_congr (hlevels : v.Interchangeable w) (depth : Nat) {least least' : Int}
    (hleast : ∀ k, Continuation.of? w least' k = Continuation.of? v least k) :
    expression w depth least' = expression v depth least := by
  induction depth generalizing least least' with
  | zero => rfl
  | succ depth ih =>
      have hbound := fun bound ↦ ih (hlevels bound)
      funext space
      rw [Workspace.expression_succ, Workspace.expression_succ, Phrase.build_congr hbound]
      exact climb_congr hbound hleast _ _

end

namespace Tree

variable {l l' : Language}

/-- With levels that can be interchanged, everything in two trees but their language is the
same. -/
theorem parse_of_alike (h : l.levels.Interchangeable l'.levels) (config : Config)
    (source : String) :
    parse l' config source = { parse l config source with language := l' } := by
  have hfile := Phrase.build_congr (fun bound ↦
    Parsing.expression_congr h config.maxDepth (h bound)) .file
  have hassemble : ∀ span a,
      assemble l'.levels config.maxDepth span a = assemble l.levels config.maxDepth span a := by
    intro span a
    rw [assemble, assemble, hfile]
  rw [parse, parse]
  dsimp only
  rw [hassemble]

end Tree

namespace Language

variable {l : Language}

theorem kindNumber?_isSome (h : l.lack? = none) (k : Kind) :
    (l.kindNumber? k.name k.isNamed).isSome = true := by
  rcases k.mem_named_or_mem_anonymous with hk | hk
  · refine isMetBy_of_lack? h (.kind k) ?_
    simp [Need.all, hk]
  · refine isMetBy_of_lack? h (.token k) ?_
    simp [Need.all, hk]

/-- Under the number of a symbol stands the symbol. -/
theorem symbols_of_kindNumber? {name : String} {named : Bool} {number : Nat}
    (h : l.kindNumber? name named = some number) :
    ∃ s, l.definition.symbols[number]? = some s ∧ s.name = name ∧ s.named = named := by
  rw [kindNumber?_eq] at h
  obtain ⟨i, hi, rfl⟩ := Option.map_eq_some_iff.mp h
  obtain ⟨hlt, hfound, -⟩ := List.findIdx?_eq_some_iff_getElem.mp hi
  rw [Bool.and_eq_true, beq_iff_eq, beq_iff_eq] at hfound
  refine ⟨l.definition.symbols.tail[i], ?_, hfound⟩
  rw [← List.getElem?_tail, List.getElem?_eq_getElem hlt]

theorem kindName?_numberOf (h : l.lack? = none) (k : Kind) :
    l.kindName? (l.numberOf k) = some k.name := by
  obtain ⟨number, hnumber⟩ := Option.isSome_iff_exists.mp (kindNumber?_isSome h k)
  obtain ⟨s, hs, hname, -⟩ := symbols_of_kindNumber? hnumber
  rw [numberOf, hnumber, Option.getD_some, kindName?, hs, Option.map_some, hname]

theorem isNamed_numberOf (h : l.lack? = none) (k : Kind) :
    l.isNamed (l.numberOf k) = k.isNamed := by
  obtain ⟨number, hnumber⟩ := Option.isSome_iff_exists.mp (kindNumber?_isSome h k)
  obtain ⟨s, hs, -, hnamed⟩ := symbols_of_kindNumber? hnumber
  rw [numberOf, hnumber, Option.getD_some, isNamed, hs, Option.any_some, hnamed]

theorem fieldName?_fieldNumber? (h : l.lack? = none) (f : Field) :
    (l.fieldNumber? f.label).bind l.fieldName? = some f.label := by
  have hmet : (l.fieldNumber? f.label).isSome = true :=
    isMetBy_of_lack? h (.field f) (by simp [Need.all, f.mem_all])
  obtain ⟨number, hnumber⟩ := Option.isSome_iff_exists.mp hmet
  rw [fieldNumber?_eq] at hnumber
  obtain ⟨i, hi, rfl⟩ := Option.map_eq_some_iff.mp hnumber
  obtain ⟨hlt, hfound, -⟩ := List.findIdx?_eq_some_iff_getElem.mp hi
  rw [fieldNumber?_eq, hnumber, Option.bind_some, fieldName?, if_neg i.succ_ne_zero, fieldPlace,
    Nat.add_sub_cancel, List.getElem?_eq_getElem hlt, beq_iff_eq.mp hfound]

end Language

/-- What is known about a node in a language. The names of its kind and of its role are those that
the language has under their numbers. -/
structure Description where
  kind : Option String
  named : Bool
  role : Option String
  span : Span
  extra : Bool
  missing : Bool
  faulty : Bool
  deriving DecidableEq

namespace Language

def describe (l : Language) (n : Node) : Description where
  kind := l.kindName? (l.numberOf n.kind)
  named := l.isNamed (l.numberOf n.kind)
  role := n.field?.bind fun f ↦ (l.fieldNumber? f.label).bind l.fieldName?
  span := n.span
  extra := n.isExtra
  missing := n.isMissing
  faulty := n.isFaulty

/-- The numbers of a language that lacks nothing do not show. -/
theorem describe_eq {l : Language} (h : l.lack? = none) (n : Node) :
    l.describe n = ⟨some n.kind.name, n.kind.isNamed, n.field?.map Field.label, n.span, n.isExtra,
      n.isMissing, n.isFaulty⟩ := by
  have hrole : (n.field?.bind fun f ↦ (l.fieldNumber? f.label).bind l.fieldName?) =
      n.field?.map Field.label := by
    cases n.field? with
    | none => rfl
    | some f => exact fieldName?_fieldNumber? h f
  rw [describe, hrole, kindName?_numberOf h, isNamed_numberOf h]

end Language

/-- Only names and the order of strengths matter. Two languages whose strengths compare alike and
are not the largest word, and whose operators group alike, give the same tree of every source: the
same nodes, the same numbers of nodes and the same errors. Under their own numbers of kinds and
fields they tell the same about every node. -/
theorem Parser.interchange_of_parse {p q p' q' : Parser} {l l' : Language}
    (hlanguage : p.setLanguage l = .ok q) (hlanguage' : p'.setLanguage l' = .ok q')
    (hmax : ∀ a, l.levels.value a ≠ Int32.maxValue.toInt)
    (hmax' : ∀ a, l'.levels.value a ≠ Int32.maxValue.toInt)
    (hcompare : ∀ a b, compare (l'.levels.value a) (l'.levels.value b) =
      compare (l.levels.value a) (l.levels.value b))
    (hassociativity : ∀ o, (l'.levels.operator o).associativity =
      (l.levels.operator o).associativity)
    (config : Config) (source : String) :
    ∃ tree tree', (q.setConfig config).parse? source = some tree ∧
      (q'.setConfig config).parse? source = some tree' ∧
      tree.language = l ∧ tree'.language = l' ∧ tree'.arena = tree.arena ∧ tree'.top = tree.top ∧
      tree'.root = tree.root ∧
      tree'.root.sexp = tree.root.sexp ∧ tree'.nodeCount = tree.nodeCount ∧
      tree'.errors = tree.errors ∧
      (Cursor.ofTree tree').descendants.map (l'.describe ·.node) =
        (Cursor.ofTree tree).descendants.map (l.describe ·.node) := by
  have halike : l.levels.Alike l'.levels := ⟨hcompare, hassociativity⟩
  have hsame := Tree.parse_of_alike (halike.interchangeable (Language.exact_of_value_ne hmax)
    (Language.exact_of_value_ne hmax')) config source
  refine ⟨Tree.parse l config source, Tree.parse l' config source,
    parse?_of_setLanguage hlanguage config source, parse?_of_setLanguage hlanguage' config source,
    rfl, rfl, ?_⟩
  have hroot : (Tree.parse l' config source).root = (Tree.parse l config source).root := by
    rw [hsame]
    rfl
  have hdescribe : l'.describe = l.describe := by
    funext n
    rw [Language.describe_eq (lack?_of_setLanguage hlanguage'),
      Language.describe_eq (lack?_of_setLanguage hlanguage)]
  have hdescendants : ∀ l config, (Cursor.ofTree (Tree.parse l config source)).descendants.map
      (·.node) = (Tree.parse l config source).root.preorder :=
    fun l config ↦ Tree.map_node_descendants (Tree.sound_parse l config source)
  refine ⟨by rw [hsame], by rw [hsame], hroot, by rw [hroot], ?_, by rw [hsame], ?_⟩
  · rw [Tree.nodeCount, Tree.nodeCount, hsame]
  · have hlist := congrArg (List.map l.describe) (hroot ▸ hdescendants l' config)
    rw [← hdescendants l config, List.map_map, List.map_map] at hlist
    rw [hdescribe]
    exact hlist

/-- The grammar of Cool with its tables in another order, other strengths and no comments among its
kinds for everywhere. -/
def Grammar.Definition.reordered : Definition :=
  { cool with
    symbols := cool.symbols.take 1 ++ (cool.symbols.drop 1).reverse
    fields := cool.fields.reverse
    levels :=
      [⟨"assign", -7⟩, ⟨"negation", 3⟩, ⟨"comparative", 10⟩, ⟨"additive", 11⟩,
        ⟨"multiplicative", 12⟩, ⟨"isvoid", 40⟩, ⟨"comp", 41⟩, ⟨"super", 42⟩, ⟨"call", 99⟩]
    operators := cool.operators.reverse
    extras := [] }

theorem Grammar.Definition.flaw?_reordered : reordered.flaw? = none := by
  rw [flaw?_eq_none_iff]
  constructor
  all_goals decide +kernel

def Language.reordered : Language :=
  .ofFlawless Grammar.Artifact.version .reordered Grammar.Definition.flaw?_reordered

theorem Language.lack?_reordered : Language.reordered.lack? = none := by
  rw [lack?_eq, reordered, definition_ofFlawless]
  decide +kernel

theorem Language.levels_reordered :
    Language.reordered.levels =
      { call := 99, super := 42, comp := 41, isvoid := 40, negation := 3, assign := -7
        lessEqual := ⟨10, .left⟩, less := ⟨10, .left⟩, equal := ⟨10, .left⟩
        plus := ⟨11, .left⟩, minus := ⟨11, .left⟩
        times := ⟨12, .left⟩, divide := ⟨12, .left⟩ } := by
  simp only [levels, binding, precedence?_eq, operator?_eq, reordered, definition_ofFlawless]
  decide +kernel

theorem Parser.interchange_of_parse_reordered :
    let source := "class A \x7b x : B <- not a + 1 * b.f(2) = isvoid c; \x7d;"
    Parser.setLanguage {} .cool = .ok { language := some .cool } ∧
      Parser.setLanguage {} .reordered = .ok { language := some .reordered } ∧
      Language.reordered.numberOf .classItem ≠ Language.cool.numberOf .classItem ∧
      ∃ tree tree',
        (Parser.setConfig { language := some .cool } ⟨5, true⟩).parse? source = some tree ∧
        (Parser.setConfig { language := some .reordered } ⟨5, true⟩).parse? source = some tree' ∧
        tree'.language = .reordered ∧ tree'.root.sexp = tree.root.sexp ∧
        tree'.errors = tree.errors ∧
        (Cursor.ofTree tree').descendants.map (Language.reordered.describe ·.node) =
          (Cursor.ofTree tree).descendants.map (Language.cool.describe ·.node) := by
  intro source
  have hlanguage' : Parser.setLanguage {} .reordered = .ok { language := some .reordered } :=
    setLanguage_of_lack? {} Language.lack?_reordered
  have hcompare : ∀ a ∈ Strength.all, ∀ b ∈ Strength.all,
      compare (Language.reordered.levels.value a) (Language.reordered.levels.value b) =
        compare (Language.cool.levels.value a) (Language.cool.levels.value b) := by
    rw [Language.levels_reordered, Language.levels_cool]
    decide
  have hassociativity : ∀ o, (Language.reordered.levels.operator o).associativity =
      (Language.cool.levels.operator o).associativity := by
    rw [Language.levels_reordered, Language.levels_cool]
    intro o
    cases o <;> rfl
  have hmax : ∀ a ∈ Strength.all, Language.cool.levels.value a ≠ Int32.maxValue.toInt ∧
      Language.reordered.levels.value a ≠ Int32.maxValue.toInt := by
    rw [Language.levels_reordered, Language.levels_cool]
    decide
  have hnumber :
      Language.reordered.numberOf .classItem ≠ Language.cool.numberOf .classItem := by
    rw [Language.numberOf, Language.numberOf, Language.kindNumber?_eq, Language.kindNumber?_eq,
      Language.reordered, Language.cool, Language.definition_ofFlawless,
      Language.definition_ofFlawless]
    decide +kernel
  obtain ⟨tree, tree', htree, htree', -, hreordered, -, -, -, hsexp, -, herrors, hfacts⟩ :=
    interchange_of_parse (setLanguage_cool {}) hlanguage' (fun a ↦ (hmax a a.mem_all).1)
      (fun a ↦ (hmax a a.mem_all).2) (fun a b ↦ hcompare a a.mem_all b b.mem_all) hassociativity
      ⟨5, true⟩ source
  exact ⟨setLanguage_cool {}, hlanguage', hnumber, tree, tree', htree, htree',
    hreordered, hsexp, herrors, hfacts⟩

end CoolTree
