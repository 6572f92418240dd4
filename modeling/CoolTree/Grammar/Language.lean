import CoolTree.Failure
import CoolTree.Grammar.Artifact
import CoolTree.Grammar.Index
import CoolTree.Text.Quoted

/-!
# Languages

A language is a definition without flaws, loaded from an artifact, with its indexes. It answers by
name from the indexes and by number from the tables.
-/

namespace CoolTree

structure Language where
  version : Nat
  definition : Grammar.Definition
  indexes : Grammar.Indexes
  indexed : definition.indexes = .ok indexes

inductive LoadFault where
  | header (fault : Grammar.Artifact.HeaderFault)
  | undecodable
  | invalid (flaw : Grammar.Flaw)
  deriving DecidableEq, Inhabited

namespace LoadFault

def message : LoadFault → String
  | header .empty => "grammar artifact is empty"
  | header (.truncated expected actual) =>
    "grammar artifact truncated: expected " ++ toString expected ++ " bytes, found " ++
      toString actual
  | header .badMagic => "not a grammar artifact (bad magic)"
  | header (.versionMismatch found) =>
    "incompatible grammar ABI version " ++ toString found ++ "; supported versions are " ++
      toString Grammar.Artifact.oldestVersion ++ " through " ++ toString Grammar.Artifact.version
  | header (.trailingBytes count) =>
    "grammar artifact has " ++ toString count ++ " unexpected trailing bytes"
  | undecodable => "grammar payload could not be decoded"
  | invalid flaw => "invalid grammar: " ++ flaw.message

def toFailure (f : LoadFault) : Failure :=
  ⟨.languageLoad f.message, none⟩

end LoadFault

namespace Language

/-- The indexes follow from the tables. -/
theorem ext_definition {l m : Language} (hversion : l.version = m.version)
    (hdefinition : l.definition = m.definition) : l = m := by
  obtain ⟨version, definition, x, hx⟩ := l
  obtain ⟨_, _, y, hy⟩ := m
  dsimp only at hversion hdefinition
  subst hversion hdefinition
  obtain rfl := Except.ok.inj (hx.symm.trans hy)
  rfl

instance : DecidableEq Language := fun l m ↦
  decidable_of_iff (l.version = m.version ∧ l.definition = m.definition)
    ⟨fun h ↦ ext_definition h.1 h.2, fun h ↦ h ▸ ⟨rfl, rfl⟩⟩

def ofDefinition (version : Nat) (d : Grammar.Definition) : Except LoadFault Language :=
  match h : d.indexes with
  | .ok x => .ok ⟨version, d, x, h⟩
  | .error flaw => .error (.invalid flaw)

/-- The language of a definition without flaws. -/
def ofFlawless (version : Nat) (d : Grammar.Definition) (hd : d.flaw? = none) : Language :=
  match h : d.indexes with
  | .ok x => ⟨version, d, x, h⟩
  | .error _ => absurd hd (by simp [Grammar.Definition.flaw?, h])

section Flawless

variable {version : Nat} {d : Grammar.Definition} (hd : d.flaw? = none)

theorem exists_ofFlawless : ∃ x h, ofFlawless version d hd = ⟨version, d, x, h⟩ := by
  unfold ofFlawless
  split
  · rename_i x hx
    exact ⟨x, hx, rfl⟩
  · rename_i flaw hflaw
    simp [Grammar.Definition.flaw?, hflaw] at hd

@[simp] theorem version_ofFlawless : (ofFlawless version d hd).version = version := by
  obtain ⟨x, h, heq⟩ := @exists_ofFlawless version d hd
  rw [heq]

@[simp] theorem definition_ofFlawless : (ofFlawless version d hd).definition = d := by
  obtain ⟨x, h, heq⟩ := @exists_ofFlawless version d hd
  rw [heq]

end Flawless

def loadWith (c : Grammar.Codec) (artifact : List UInt8) : Except LoadFault Language :=
  match Grammar.Artifact.unpack artifact with
  | .error fault => .error (.header fault)
  | .ok (version, payload) =>
    match c.decode? payload with
    | none => .error .undecodable
    | some d => ofDefinition version d

def load (artifact : List UInt8) : Except LoadFault Language :=
  loadWith .messagePack artifact

def name (l : Language) : String :=
  l.definition.name

def kindCount (l : Language) : Nat :=
  l.definition.symbols.length

def fieldCount (l : Language) : Nat :=
  l.definition.fields.length

def kindName? (l : Language) (number : Nat) : Option String :=
  l.definition.symbols[number]?.map (·.name)

/-- The number of a node kind. Symbol zero is found under no name. -/
def kindNumber? (l : Language) (name : String) (named : Bool) : Option Nat :=
  (l.indexes.kinds named)[name]?.map UInt16.toNat

def isNamed (l : Language) (number : Nat) : Bool :=
  l.definition.symbols[number]?.any (·.named)

/-- Where the field with a number stands in the table. The difference stops at zero. -/
def fieldPlace (number : Nat) : Nat :=
  number - 1

/-- The name of the field with a number. No field has number zero. -/
def fieldName? (l : Language) (number : Nat) : Option String :=
  if number = 0 then none else l.definition.fields[fieldPlace number]?

def fieldNumber? (l : Language) (name : String) : Option Nat :=
  l.indexes.fields[name]?.map UInt16.toNat

def precedence? (l : Language) (level : String) : Option Int32 :=
  l.indexes.levels[level]?

/-- What is known about an infix operator. Of several entries for one spelling the last one
counts. -/
def operator? (l : Language) (token : String) : Option Grammar.OperatorInfo :=
  l.indexes.operators[token]?

def isPrimitiveType (l : Language) (name : String) : Bool :=
  l.definition.primitiveTypes.contains name

/-- Whether nodes of a kind may stand anywhere. -/
def isExtra (l : Language) (name : String) : Bool :=
  l.definition.extras.contains name

/-- The reserved words: visible anonymous symbols that are spelled with ASCII letters only. -/
def keywords (l : Language) : List String :=
  let isWord (s : Grammar.SymbolEntry) := !s.named && s.visible && s.name.toList.all Char.isAlpha
  (l.definition.symbols.filter isWord).map (·.name)

def primitiveTypes (l : Language) : List String :=
  l.definition.primitiveTypes

def summary (l : Language) : String :=
  "Language \x7b name: " ++ Text.quoteString l.name ++ ", abi_version: " ++ toString l.version ++
    ", node_kinds: " ++ toString l.kindCount ++ ", fields: " ++ toString l.fieldCount ++ " \x7d"

end Language

end CoolTree
