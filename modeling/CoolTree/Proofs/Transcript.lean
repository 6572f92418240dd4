import CoolTree.Proofs.Lookup
import CoolTree.Proofs.Packaged

/-!
# Calls of a parser

A parser takes exactly the languages that name all that occurs in syntax trees of Cool, and keeps
its language when it refuses another one. So a tree depends on nothing but the language that was
taken last and the configuration that was set last, whatever was called in between.
-/

namespace CoolTree

/-- The tables of a language name all that occurs in syntax trees of Cool. -/
structure Grammar.Definition.Complete (d : Grammar.Definition) : Prop where
  tokens : ∀ k ∈ Kind.anonymous, d.Declares k.name false
  operators : ∀ o ∈ Operator.all, ∃ entry ∈ d.operators, entry.token = o.spelling
  kinds : ∀ k ∈ Kind.named, d.Declares k.name true
  fields : ∀ f ∈ Field.all, f.label ∈ d.fields
  levels : ∀ name ∈ Need.levelNames, ∃ level ∈ d.levels, level.name = name

namespace Language

variable {l : Language}

theorem lack?_eq_none_iff : l.lack? = none ↔ ∀ need ∈ Need.all, need.isMetBy l = true := by
  simp [lack?]

/-- All needs are met exactly by complete tables. -/
theorem lack?_eq_none_iff_complete : l.lack? = none ↔ l.definition.Complete := by
  have htokens : ∀ k ∈ Kind.anonymous, k.isNamed = false := by decide
  have hkinds : ∀ k ∈ Kind.named, k.isNamed = true := by decide
  simp only [lack?_eq_none_iff, Need.all, List.forall_mem_append, List.forall_mem_map,
    Need.isMetBy, Option.isSome_iff_exists, exists_kindNumber?_iff, exists_operator?_iff,
    exists_fieldNumber?_iff, exists_precedence?_iff]
  constructor
  · rintro ⟨⟨⟨⟨ht, ho⟩, hk⟩, hf⟩, hl⟩
    exact ⟨fun k hmem ↦ htokens k hmem ▸ ht k hmem, ho, fun k hmem ↦ hkinds k hmem ▸ hk k hmem, hf,
      hl⟩
  · intro h
    exact ⟨⟨⟨⟨fun k hmem ↦ (htokens k hmem).symm ▸ h.tokens k hmem, h.operators⟩,
      fun k hmem ↦ (hkinds k hmem).symm ▸ h.kinds k hmem⟩, h.fields⟩, h.levels⟩

/-- What is lacking is the first need that is not met. -/
theorem lack?_eq_some_iff {need : Need} : l.lack? = some need ↔
    need.isMetBy l = false ∧ ∃ before after, Need.all = before ++ need :: after ∧
      ∀ met ∈ before, met.isMetBy l = true := by
  simp [lack?, List.find?_eq_some_iff_append]

end Language

namespace Parser

inductive Call where
  | setLanguage (l : Language)
  | setConfig (config : Config)
  /-- Builds a parser with another configuration, which then takes the place of the old one. -/
  | withConfig (config : Config)
  | parse (source : String)

inductive Reply where
  | done
  | refused (failure : Failure)
  | tree (tree : Option Tree)

/-- What a call makes of a parser, and what it replies. -/
def call (p : Parser) : Call → Parser × Reply
  | .setLanguage l =>
    match p.setLanguage l with
    | .ok q => (q, .done)
    | .error need => (p, .refused need.toFailure)
  | .setConfig config | .withConfig config => (p.setConfig config, .done)
  | .parse source => (p, .tree (p.parse? source))

/-- The calls of one parser with their replies. -/
def transcript (p : Parser) : List Call → List (Call × Reply)
  | [] => []
  | c :: calls => (c, (p.call c).2) :: transcript (p.call c).1 calls

/-- The language a call has set, unless it was refused. -/
def languageOf? : Call × Reply → Option Language
  | (.setLanguage l, .done) => some l
  | _ => none

def configOf? : Call × Reply → Option Config
  | (.setConfig config, _) | (.withConfig config, _) => some config
  | _ => none

/-- The language that was set last. -/
def lastLanguage? (events : List (Call × Reply)) : Option Language :=
  (events.filterMap languageOf?).getLast?

def lastConfig? (events : List (Call × Reply)) : Option Config :=
  (events.filterMap configOf?).getLast?

theorem getLast?_filterMap_cons {α β : Type} (f : α → Option β) (x : α) (xs : List α) :
    ((x :: xs).filterMap f).getLast? = (xs.filterMap f).getLast?.or (f x) := by
  rw [List.filterMap_cons]
  cases f x with
  | none => rw [Option.or_none]
  | some y =>
      rw [List.getLast?_cons]
      cases (xs.filterMap f).getLast? <;> rfl

theorem lastLanguage?_eq_none_iff {events : List (Call × Reply)} :
    lastLanguage? events = none ↔ ∀ l, (.setLanguage l, .done) ∉ events := by
  rw [lastLanguage?, List.getLast?_eq_none_iff, List.filterMap_eq_nil_iff]
  constructor
  · intro h l hmem
    cases h _ hmem
  · intro h event hmem
    unfold languageOf?
    split
    · exact (h _ hmem).elim
    · rfl

variable {p : Parser} {l : Language}

theorem call_parse (source : String) : p.call (.parse source) = (p, .tree (p.parse? source)) :=
  rfl

theorem call_setConfig (config : Config) :
    p.call (.setConfig config) = (p.setConfig config, .done) :=
  rfl

theorem call_setLanguage (h : l.definition.Complete) :
    p.call (.setLanguage l) = ({ p with language := some l }, .done) := by
  rw [call, p.setLanguage_of_lack? (Language.lack?_eq_none_iff_complete.mpr h)]

theorem call_setLanguage_of_lack? {need : Need} (h : l.lack? = some need) :
    p.call (.setLanguage l) = (p, .refused need.toFailure) := by
  rw [call, setLanguage, h]

/-- A call changes the language only by setting one with success. -/
theorem language_call (c : Call) :
    (p.call c).1.language = (languageOf? (c, (p.call c).2)).or p.language := by
  cases c with
  | setLanguage l =>
      cases h : l.lack? with
      | none =>
          rw [call_setLanguage (Language.lack?_eq_none_iff_complete.mp h)]
          rfl
      | some need =>
          rw [call_setLanguage_of_lack? h]
          rfl
  | _ => rfl

theorem config_call (c : Call) :
    (p.call c).1.config = ((configOf? (c, (p.call c).2)).getD p.config) := by
  cases c with
  | setLanguage l =>
      cases h : l.lack? with
      | none =>
          rw [call_setLanguage (Language.lack?_eq_none_iff_complete.mp h)]
          rfl
      | some need =>
          rw [call_setLanguage_of_lack? h]
          rfl
  | _ => rfl

/-- A language that is set later takes the place of the one the parser has, and so does a
configuration. -/
theorem reply_of_transcript {calls : List Call} {before after : List (Call × Reply)}
    {source : String} {reply : Reply}
    (h : p.transcript calls = before ++ (.parse source, reply) :: after) :
    reply = .tree (({
      language := (lastLanguage? before).or p.language
      config := (lastConfig? before).getD p.config } : Parser).parse? source) := by
  induction before generalizing p calls with
  | nil =>
      cases calls with
      | nil => cases h
      | cons c calls =>
          obtain ⟨hevent, -⟩ := List.cons.inj h
          obtain ⟨rfl, rfl⟩ := Prod.mk.inj hevent
          rfl
  | cons event before ih =>
      cases calls with
      | nil => cases h
      | cons c calls =>
          obtain ⟨rfl, htail⟩ := List.cons.inj h
          rw [ih htail, language_call, config_call, lastLanguage?, lastConfig?, lastLanguage?,
            lastConfig?, getLast?_filterMap_cons, getLast?_filterMap_cons, Option.or_assoc,
            Option.getD_or]

/-- Success is a matter of the language only. -/
theorem lack?_of_mem_transcript {calls : List Call}
    (h : (.setLanguage l, .done) ∈ p.transcript calls) : l.lack? = none := by
  induction calls generalizing p with
  | nil => cases h
  | cons c calls ih =>
      rcases List.mem_cons.mp h with heq | htail
      · obtain ⟨rfl, hdone⟩ := Prod.mk.inj heq
        cases hlack : l.lack? with
        | none => rfl
        | some need =>
            rw [call_setLanguage_of_lack? hlack] at hdone
            cases hdone
      · exact ih htail

theorem mem_of_lastLanguage? {events : List (Call × Reply)} (h : lastLanguage? events = some l) :
    (.setLanguage l, .done) ∈ events := by
  obtain ⟨event, hmem, hevent⟩ := List.mem_filterMap.mp (List.mem_of_getLast? h)
  unfold languageOf? at hevent
  split at hevent
  · cases hevent
    exact hmem
  · cases hevent

/-- A parser takes a language exactly if its tables are complete, and otherwise names the first need
that is not met and stays as it was. In the calls of one parser each tree is that of the source with
the language that was set last and the configuration that was set last, as a fresh parser gives it,
and there is none as long as no language was set. -/
theorem replies_of_calls :
    (∀ (p : Parser) (l : Language),
      ((∃ q, p.setLanguage l = .ok q) ↔ l.definition.Complete) ∧
      (l.definition.Complete → p.call (.setLanguage l) = ({ p with language := some l }, .done)) ∧
      (¬ l.definition.Complete → ∃ before need after, Need.all = before ++ need :: after ∧
        (∀ met ∈ before, met.isMetBy l = true) ∧ need.isMetBy l = false ∧
        p.setLanguage l = .error need ∧
        p.call (.setLanguage l) = (p, .refused ⟨.incompatibleLanguage need.message, none⟩))) ∧
    ∀ calls before source reply after,
      transcript {} calls = before ++ (.parse source, reply) :: after →
      ∃ tree, reply = .tree tree ∧
        (tree = none ↔ ∀ l, (.setLanguage l, .done) ∉ before) ∧
        ∀ l, lastLanguage? before = some l →
          tree = some (Tree.parse l ((lastConfig? before).getD {}) source) ∧
          ∃ q, setLanguage {} l = .ok q ∧
            tree = (q.setConfig ((lastConfig? before).getD {})).parse? source := by
  refine ⟨fun p l ↦ ⟨?_, call_setLanguage, fun hcomplete ↦ ?_⟩,
    fun calls before source reply after h ↦
      ⟨_, reply_of_transcript h, ?_, fun l hl ↦ ?_⟩⟩
  · rw [← Language.lack?_eq_none_iff_complete]
    exact ⟨fun ⟨q, hq⟩ ↦ lack?_of_setLanguage hq, fun hlack ↦ ⟨_, p.setLanguage_of_lack? hlack⟩⟩
  · rw [← Language.lack?_eq_none_iff_complete, ← ne_eq, Option.ne_none_iff_exists'] at hcomplete
    obtain ⟨need, hneed⟩ := hcomplete
    obtain ⟨hnot, before, after, hall, hmet⟩ := Language.lack?_eq_some_iff.mp hneed
    exact ⟨before, need, after, hall, hmet, hnot, by rw [setLanguage, hneed],
      call_setLanguage_of_lack? hneed⟩
  · rw [parse?, Option.map_eq_none_iff, Option.or_none, lastLanguage?_eq_none_iff]
  · have hmem : (.setLanguage l, .done) ∈ transcript {} calls :=
      h ▸ List.mem_append_left _ (mem_of_lastLanguage? hl)
    have hset := setLanguage_of_lack? {} (lack?_of_mem_transcript hmem)
    have htree : some (Tree.parse l ((lastConfig? before).getD {}) source) = _ :=
      (parse?_of_setLanguage hset ((lastConfig? before).getD {}) source).symm
    rw [hl]
    exact ⟨rfl, _, hset, htree⟩

end Parser

/-- The grammar of Cool without the arms of case expressions. -/
def Grammar.Definition.armless : Definition :=
  { cool with symbols := cool.symbols.filter (·.name != Kind.caseArm.name) }

theorem Grammar.Definition.flaw?_armless : armless.flaw? = none := by
  rw [flaw?_eq_none_iff]
  constructor
  all_goals decide +kernel

namespace Parser

open Grammar.Definition (armless flaw?_armless)

/-- The grammar without arms is refused between two parses, of which only the second one has a
language. -/
theorem replies_of_calls_armless :
    let l := Language.ofFlawless 1 armless flaw?_armless
    let before : List (Call × Reply) :=
      [(.parse "class A \x7b\x7d;", .tree none), (.setLanguage .cool, .done),
        (.setConfig ⟨1, false⟩, .done),
        (.setLanguage l, .refused ⟨.incompatibleLanguage "missing node kind `case_arm`", none⟩)]
    ¬ armless.Complete ∧ ∃ tree,
      transcript {} [.parse "class A \x7b\x7d;", .setLanguage .cool, .setConfig ⟨1, false⟩,
        .setLanguage l, .parse "class B \x7b\x7d;"] =
          before ++ (.parse "class B \x7b\x7d;", .tree tree) :: [] ∧
      tree = some (Tree.parse .cool ⟨1, false⟩ "class B \x7b\x7d;") ∧
      ∃ q, setLanguage {} .cool = .ok q ∧
        tree = (q.setConfig ⟨1, false⟩).parse? "class B \x7b\x7d;" := by
  intro l before
  have hdefinition : l.definition = armless := Language.definition_ofFlawless _
  have hlack : l.lack? = some (.kind .caseArm) := by
    rw [Language.lack?_eq, hdefinition]
    decide +kernel
  have hincomplete : ¬ armless.Complete := by
    intro h
    rw [Language.lack?_eq_none_iff_complete.mpr (hdefinition ▸ h)] at hlack
    cases hlack
  have hcool := call_setLanguage (p := {})
    (Language.lack?_eq_none_iff_complete.mp Language.lack?_cool)
  have hrefused := call_setLanguage_of_lack? (p := { language := some .cool, config := ⟨1, false⟩ })
    hlack
  have htranscript : transcript {} [.parse "class A \x7b\x7d;", .setLanguage .cool,
      .setConfig ⟨1, false⟩, .setLanguage l, .parse "class B \x7b\x7d;"] =
        before ++ (.parse "class B \x7b\x7d;", .tree (Parser.parse?
          { language := some .cool, config := ⟨1, false⟩ } "class B \x7b\x7d;")) :: [] := by
    simp only [transcript, call_parse, call_setConfig, hcool, setConfig, hrefused]
    rfl
  obtain ⟨-, hreply⟩ := replies_of_calls
  obtain ⟨tree, htree, -, hfresh⟩ := hreply _ _ _ _ _ htranscript
  exact ⟨hincomplete, tree, htree ▸ htranscript, hfresh .cool rfl⟩

end Parser

end CoolTree
