import CoolTree.Proofs.Loading
import CoolTree.Proofs.Search
import Mathlib.Data.List.Nodup

/-!
# Look-ups by name and by number

In the tables of a language names occur once, so finding a name and reading a number undo each
other: for node kinds other than symbol zero, and for fields, which are counted from one. An infix
operator is what the last entry for its token says.
-/

namespace CoolTree

/-- Where elements have different keys, a key is found where it stands. -/
theorem findIdx?_eq_some_iff_of_nodup {α β : Type} [BEq β] [LawfulBEq β] {key : α → β} {xs : List α}
    (h : (xs.map key).Nodup) {k : β} {i : Nat} :
    xs.findIdx? (key · == k) = some i ↔ xs[i]?.map key = some k := by
  rw [List.findIdx?_eq_some_iff_getElem, Option.map_eq_some_iff]
  simp only [beq_iff_eq, List.getElem?_eq_some_iff]
  constructor
  · rintro ⟨hi, hk, -⟩
    exact ⟨xs[i], ⟨hi, rfl⟩, hk⟩
  · rintro ⟨x, ⟨hi, rfl⟩, hk⟩
    refine ⟨hi, hk, fun j hj hjk ↦ Nat.ne_of_lt hj ?_⟩
    have hi' : i < (xs.map key).length := by rwa [List.length_map]
    have hj' : j < (xs.map key).length := hj.trans hi'
    have heq : (xs.map key)[j] = (xs.map key)[i] := by
      rw [List.getElem_map, List.getElem_map, hjk, hk]
    exact (h.getElem_inj_iff).mp heq

namespace Grammar.Definition

variable {d : Definition}

theorem Valid.symbolNumber?_eq_some_iff (h : d.Valid) {name : String} {named : Bool} {n : Nat} :
    d.symbolNumber? name named = some n ↔
      1 ≤ n ∧ ∃ s, d.symbols[n]? = some s ∧ s.name = name ∧ s.named = named := by
  have hfind (i : Nat) : d.symbols.tail.findIdx? (fun s ↦ s.name == name && s.named == named) =
      some i ↔ d.symbols.tail[i]?.map (fun s ↦ (s.name, s.named)) = some (name, named) := by
    rw [← findIdx?_eq_some_iff_of_nodup h.symbols_nodup]
    rfl
  simp only [symbolNumber?, Option.map_eq_some_iff, hfind, List.getElem?_tail, Prod.mk.injEq]
  constructor
  · rintro ⟨i, hs, rfl⟩
    exact ⟨Nat.le_add_left 1 i, hs⟩
  · rintro ⟨hn, hs⟩
    exact ⟨n - 1, by rwa [Nat.sub_add_cancel hn], Nat.sub_add_cancel hn⟩

theorem Valid.levelValue?_eq_some_iff (h : d.Valid) {name : String} {v : Int32} :
    d.levelValue? name = some v ↔ ∃ l ∈ d.levels, l.name = name ∧ l.value = v := by
  rw [levelValue?, Option.map_eq_some_iff]
  constructor
  · rintro ⟨l, hl, hv⟩
    exact ⟨l, List.mem_of_find?_eq_some hl, by simpa using List.find?_some hl, hv⟩
  · rintro ⟨l, hl, rfl, hv⟩
    obtain ⟨found, hfound⟩ : ∃ found, d.levels.find? (·.name == l.name) = some found :=
      Option.isSome_iff_exists.mp (List.find?_isSome.mpr ⟨l, hl, by simp⟩)
    have hname : found.name = l.name := by simpa using List.find?_some hfound
    have heq := List.inj_on_of_nodup_map h.levels_nodup (List.mem_of_find?_eq_some hfound) hl hname
    exact ⟨found, hfound, heq ▸ hv⟩

end Grammar.Definition

namespace Language

variable {l : Language} {name token : String} {named : Bool} {n : Nat}

/-- The number of a kind is that of its symbol. -/
theorem kindNumber?_eq_some_iff : l.kindNumber? name named = some n ↔
    1 ≤ n ∧ l.kindName? n = some name ∧ l.isNamed n = named := by
  rw [kindNumber?_eq, l.valid.symbolNumber?_eq_some_iff, kindName?, isNamed]
  cases l.definition.symbols[n]? <;> simp

theorem exists_kindName?_iff : (∃ name, l.kindName? n = some name) ↔ n < l.kindCount := by
  rw [← Option.isSome_iff_exists, kindName?, Option.isSome_map, isSome_getElem?,
    kindCount]

/-- The number of a field is that under which its name stands. -/
theorem fieldNumber?_eq_some_iff : l.fieldNumber? name = some n ↔ l.fieldName? n = some name := by
  have hfind : ∀ i, l.definition.fields.findIdx? (· == name) = some i ↔
      l.definition.fields[i]? = some name := by
    intro i
    have hnodup : (l.definition.fields.map id).Nodup := by
      rw [List.map_id]
      exact l.valid.fields_nodup
    simpa using findIdx?_eq_some_iff_of_nodup hnodup (k := name) (i := i)
  rw [fieldNumber?_eq, Grammar.Definition.fieldNumber?, Option.map_eq_some_iff]
  simp only [hfind]
  cases n with
  | zero => simp [fieldName?]
  | succ n => simp [fieldName?, fieldPlace]

theorem exists_fieldName?_iff :
    (∃ name, l.fieldName? n = some name) ↔ 1 ≤ n ∧ n ≤ l.fieldCount := by
  cases n with
  | zero => simp [fieldName?]
  | succ n =>
      rw [← Option.isSome_iff_exists, fieldName?, if_neg n.succ_ne_zero, fieldPlace,
        isSome_getElem?, fieldCount]
      omega

theorem exists_fieldNumber?_iff : (∃ n, l.fieldNumber? name = some n) ↔
    name ∈ l.definition.fields := by
  rw [← Option.isSome_iff_exists, fieldNumber?_eq, Grammar.Definition.fieldNumber?,
    Option.isSome_map, List.findIdx?_isSome]
  simp

theorem precedence?_eq_some_iff {v : Int32} : l.precedence? name = some v ↔
    ∃ level ∈ l.definition.levels, level.name = name ∧ level.value = v := by
  rw [precedence?_eq, l.valid.levelValue?_eq_some_iff]

theorem exists_kindNumber?_iff : (∃ n, l.kindNumber? name named = some n) ↔
    l.definition.Declares name named := by
  rw [← Option.ne_none_iff_exists', kindNumber?_eq, ne_eq, Grammar.Definition.symbolNumber?_eq_none,
    Classical.not_not]

theorem exists_precedence?_iff : (∃ v, l.precedence? name = some v) ↔
    ∃ level ∈ l.definition.levels, level.name = name := by
  rw [← Option.ne_none_iff_exists', precedence?_eq, ne_eq, Grammar.Definition.levelValue?_eq_none,
    Classical.not_not]

/-- The last entry for a token, counted from the front. -/
theorem find?_reverse_eq_some_iff {os : List Grammar.OperatorEntry} {o : Grammar.OperatorEntry} :
    os.reverse.find? (·.token == token) = some o ↔ o.token = token ∧
      ∃ before after, os = before ++ o :: after ∧ ∀ later ∈ after, later.token ≠ token := by
  simp only [List.find?_eq_some_iff_append, beq_iff_eq, Bool.not_eq_true', beq_eq_false_iff_ne]
  refine and_congr_right fun _ ↦ ⟨?_, ?_⟩
  · rintro ⟨later, earlier, heq, hlater⟩
    refine ⟨earlier.reverse, later.reverse, ?_, by simpa using hlater⟩
    rw [← List.reverse_reverse os, heq]
    simp
  · rintro ⟨before, after, rfl, hlater⟩
    exact ⟨after.reverse, before.reverse, by simp, by simpa using hlater⟩

/-- An operator is what the last entry for its token says. -/
theorem operator?_eq_some_iff {info : Grammar.OperatorInfo} : l.operator? token = some info ↔
    l.kindNumber? token false = some info.symbol.toNat ∧
      ∃ before o after, l.definition.operators = before ++ o :: after ∧ o.token = token ∧
        (∀ later ∈ after, later.token ≠ token) ∧ l.precedence? o.level = some info.precedence ∧
        o.associativity = info.associativity := by
  have hsymbol (symbol : Nat) (hfound : l.definition.symbolNumber? token false = some symbol) :
      (UInt16.ofNat symbol).toNat = symbol :=
    UInt16.toNat_ofNat_of_lt' (Nat.lt_succ_of_le (l.valid.symbolNumber?_le symbol hfound))
  simp only [operator?_eq, kindNumber?_eq, precedence?_eq, Grammar.Definition.operatorInfo?,
    Option.bind_eq_bind, Option.bind_eq_some_iff, find?_reverse_eq_some_iff, Option.pure_def,
    Option.some.injEq]
  constructor
  · rintro ⟨o, ⟨htoken, before, after, hos, hlater⟩, symbol, hfound, v, hv, rfl⟩
    exact ⟨hfound.trans (congrArg some (hsymbol symbol hfound).symm), before, o, after, hos, htoken,
      hlater, hv, rfl⟩
  · rintro ⟨hfound, before, o, after, hos, htoken, hlater, hv, hassoc⟩
    refine ⟨o, ⟨htoken, before, after, hos, hlater⟩, _, hfound, _, hv, ?_⟩
    rw [hassoc, UInt16.ofNat_toNat]

/-- A token is known as an operator if there is an entry for it. -/
theorem exists_operator?_iff : (∃ info, l.operator? token = some info) ↔
    ∃ o ∈ l.definition.operators, o.token = token := by
  constructor
  · rintro ⟨info, hinfo⟩
    obtain ⟨-, before, o, after, hos, htoken, -⟩ := operator?_eq_some_iff.mp hinfo
    exact ⟨o, hos ▸ List.mem_append_right _ List.mem_cons_self, htoken⟩
  · rintro ⟨o, ho, htoken⟩
    obtain ⟨last, hlast⟩ : ∃ last, l.definition.operators.reverse.find? (·.token == token) =
        some last := by
      rw [← Option.isSome_iff_exists, List.find?_isSome]
      exact ⟨o, List.mem_reverse.mpr ho, beq_iff_eq.mpr htoken⟩
    obtain ⟨hname, before, after, hos, hlater⟩ := find?_reverse_eq_some_iff.mp hlast
    have hmem : last ∈ l.definition.operators := hos ▸ List.mem_append_right _ List.mem_cons_self
    obtain ⟨symbol, hsymbol⟩ := exists_kindNumber?_iff.mpr (l.valid.operators_symbol last hmem)
    obtain ⟨v, hv⟩ := exists_precedence?_iff.mpr (l.valid.operators_level last hmem)
    have hle : symbol ≤ 65535 := l.valid.symbolNumber?_le symbol (kindNumber?_eq l _ _ ▸ hsymbol)
    have hback : (UInt16.ofNat symbol).toNat = symbol :=
      UInt16.toNat_ofNat_of_lt' (Nat.lt_succ_of_le hle)
    exact ⟨⟨UInt16.ofNat symbol, v, last.associativity⟩, operator?_eq_some_iff.mpr
      ⟨by rw [hback, ← hname, hsymbol], before, last, after, hos, hname, hlater, hv, rfl⟩⟩

/-- The tables of a loaded language are those in the payload of its artifact. -/
theorem load_eq_ok_iff {artifact : List UInt8} : load artifact = .ok l ↔
    ∃ payload, Grammar.Artifact.unpack artifact = .ok (l.version, payload) ∧
      Grammar.Definition.decode? payload = some l.definition := by
  have hcheck (version : Nat) (d : Grammar.Definition) :
      ofDefinition version d = .ok l ↔ version = l.version ∧ d = l.definition := by
    constructor
    · intro h
      unfold ofDefinition at h
      split at h
      · cases h
        exact ⟨rfl, rfl⟩
      · contradiction
    · rintro ⟨rfl, rfl⟩
      rw [ofDefinition_of_valid l.version l.valid]
      exact congrArg Except.ok (ext_definition (version_ofFlawless _) (definition_ofFlawless _))
  simp only [load, loadWith, Grammar.Codec.messagePack]
  cases hunpack : Grammar.Artifact.unpack artifact with
  | error fault => simp
  | ok framed =>
      obtain ⟨version, payload⟩ := framed
      cases hdecode : Grammar.Definition.decode? payload with
      | none => simp +contextual [hdecode]
      | some d =>
          simpa +contextual [hdecode, and_comm] using hcheck version d

/-- The look-ups of a loaded language undo each other, on the tables that its artifact holds. -/
theorem lookup_of_load (artifact : List UInt8) (l : Language) (h : load artifact = .ok l) :
    ∃ payload d, Grammar.Artifact.unpack artifact = .ok (l.version, payload) ∧
      Grammar.Definition.decode? payload = some d ∧
      l.kindCount = d.symbols.length ∧ l.fieldCount = d.fields.length ∧ l.fieldCount ≤ 65535 ∧
      (∀ n, 1 ≤ n → n < l.kindCount →
        ∃ name, l.kindName? n = some name ∧ l.kindNumber? name (l.isNamed n) = some n) ∧
      (∀ name named n, l.kindNumber? name named = some n →
        1 ≤ n ∧ n ≤ 65535 ∧ l.kindName? n = some name ∧ l.isNamed n = named) ∧
      (∀ name n, l.fieldNumber? name = some n ↔ l.fieldName? n = some name) ∧
      (∀ name, (∃ n, l.fieldNumber? name = some n) ↔ name ∈ d.fields) ∧
      (∀ n, (∃ name, l.fieldName? n = some name) ↔ 1 ≤ n ∧ n ≤ l.fieldCount) ∧
      (∀ name v, l.precedence? name = some v ↔
        ∃ level ∈ d.levels, level.name = name ∧ level.value = v) ∧
      (∀ token, (∃ info, l.operator? token = some info) ↔ ∃ o ∈ d.operators, o.token = token) ∧
      ∀ token info, l.operator? token = some info →
        l.kindName? info.symbol.toNat = some token ∧ l.isNamed info.symbol.toNat = false ∧
        l.kindNumber? token false = some info.symbol.toNat ∧
        ∃ before o after, d.operators = before ++ o :: after ∧ o.token = token ∧
          (∀ later ∈ after, later.token ≠ token) ∧ l.precedence? o.level = some info.precedence ∧
          o.associativity = info.associativity := by
  obtain ⟨payload, hunpack, hdecode⟩ := load_eq_ok_iff.mp h
  refine ⟨payload, l.definition, hunpack, hdecode, rfl, rfl, l.valid.fields_le,
    fun n hn hlt ↦ ?_, fun name named n hnumber ↦ ?_, fun _ _ ↦ fieldNumber?_eq_some_iff,
    fun _ ↦ exists_fieldNumber?_iff, fun _ ↦ exists_fieldName?_iff,
    fun _ _ ↦ precedence?_eq_some_iff, fun _ ↦ exists_operator?_iff, fun token info hinfo ↦ ?_⟩
  · obtain ⟨name, hname⟩ := exists_kindName?_iff.mpr hlt
    exact ⟨name, hname, kindNumber?_eq_some_iff.mpr ⟨hn, hname, rfl⟩⟩
  · obtain ⟨hn, hname, hnamed⟩ := kindNumber?_eq_some_iff.mp hnumber
    have hlt : n < l.definition.symbols.length := exists_kindName?_iff.mp ⟨name, hname⟩
    exact ⟨hn, by have := l.valid.symbols_le; omega, hname, hnamed⟩
  · obtain ⟨hsymbol, hlast⟩ := operator?_eq_some_iff.mp hinfo
    obtain ⟨-, hname, hnamed⟩ := kindNumber?_eq_some_iff.mp hsymbol
    exact ⟨hname, hnamed, hsymbol, hlast⟩

/-- Of two entries for one token the second one counts, and what is named is told from what is
not. -/
theorem lookup_of_load_repeated_operator :
    let d : Grammar.Definition :=
      ⟨"g", [⟨"end", false, false⟩, ⟨"+", false, true⟩, ⟨"+", true, true⟩], ["left", "right"],
        [⟨"low", -1⟩, ⟨"high", 4⟩], [⟨"+", "low", .left⟩, ⟨"+", "high", .right⟩], [], [], []⟩
    ∃ l, load (Grammar.Artifact.pack d.encode) = .ok l ∧ l.definition = d ∧
      l.kindNumber? "+" false = some 1 ∧ l.kindNumber? "+" true = some 2 ∧
      (∃ name, l.kindName? 2 = some name ∧ l.kindNumber? name (l.isNamed 2) = some 2) ∧
      l.fieldNumber? "right" = some 2 ∧ l.fieldName? 2 = some "right" ∧
      l.operator? "+" = some ⟨1, 4, .right⟩ := by
  intro d
  have hvalid : d.Valid := by
    constructor
    all_goals decide
  have hload := (load_pack (d := d) (by decide +kernel)).trans (ofDefinition_of_valid _ hvalid)
  obtain ⟨-, -, -, -, -, -, -, hkind, -, hfield, -⟩ := lookup_of_load _ _ hload
  let l := ofFlawless Grammar.Artifact.version d (Grammar.Definition.flaw?_eq_none_iff.mpr hvalid)
  have hdefinition : l.definition = d := definition_ofFlawless _
  have hlt : 2 < l.kindCount := by
    rw [kindCount, hdefinition]
    decide
  have hnumber : l.kindNumber? "+" false = some 1 ∧ l.kindNumber? "+" true = some 2 ∧
      l.fieldNumber? "right" = some 2 ∧ l.operator? "+" = some ⟨1, 4, .right⟩ := by
    rw [kindNumber?_eq, kindNumber?_eq, fieldNumber?_eq, operator?_eq, hdefinition]
    decide
  exact ⟨l, hload, hdefinition, hnumber.1, hnumber.2.1, hkind 2 (by decide) hlt, hnumber.2.2.1,
    (hfield "right" 2).mp hnumber.2.2.1, hnumber.2.2.2⟩

end Language

end CoolTree
