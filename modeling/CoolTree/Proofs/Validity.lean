import CoolTree.Proofs.Indexing

/-!
# Valid definitions

When the tables of a grammar definition fit together, said table by table and without the order in
which they are checked. Exactly the valid definitions have indexes, and an index finds what a search
of its table finds.
-/

namespace CoolTree.Grammar.Definition

/-- Whether a symbol other than symbol zero has a name and is named or not. -/
def Declares (d : Definition) (name : String) (named : Bool) : Prop :=
  ∃ s ∈ d.symbols.tail, s.name = name ∧ s.named = named

instance (d : Definition) (name : String) (named : Bool) : Decidable (d.Declares name named) :=
  inferInstanceAs (Decidable (∃ s ∈ d.symbols.tail, s.name = name ∧ s.named = named))

/-- The tables of a definition fit together. -/
structure Valid (d : Definition) : Prop where
  name_ne : d.name ≠ ""
  some_symbol : 1 ≤ d.symbols.length
  symbols_le : d.symbols.length ≤ 65535
  first_symbol : ∀ s ∈ d.symbols.head?, s.name = "end"
  symbols_nodup : (d.symbols.tail.map fun s ↦ (s.name, s.named)).Nodup
  fields_le : d.fields.length ≤ 65535
  fields_ne : ∀ name ∈ d.fields, name ≠ ""
  fields_nodup : d.fields.Nodup
  levels_nodup : (d.levels.map (·.name)).Nodup
  operators_level : ∀ o ∈ d.operators, ∃ l ∈ d.levels, l.name = o.level
  operators_symbol : ∀ o ∈ d.operators, d.Declares o.token false
  extras_symbol : ∀ name ∈ d.extras, d.Declares name true
  externals_symbol : ∀ name ∈ d.externals, d.Declares name true

variable {d : Definition}

/-- The number under which a search of the table finds a symbol other than symbol zero. -/
def symbolNumber? (d : Definition) (name : String) (named : Bool) : Option Nat :=
  (d.symbols.tail.findIdx? fun s ↦ s.name == name && s.named == named).map (· + 1)

def fieldNumber? (d : Definition) (name : String) : Option Nat :=
  (d.fields.findIdx? (· == name)).map (· + 1)

def levelValue? (d : Definition) (name : String) : Option Int32 :=
  (d.levels.find? (·.name == name)).map (·.value)

/-- What the last entry for a token says. -/
def operatorInfo? (d : Definition) (token : String) : Option OperatorInfo := do
  let o ← d.operators.reverse.find? (·.token == token)
  return ⟨UInt16.ofNat (← d.symbolNumber? token false), ← d.levelValue? o.level, o.associativity⟩

theorem symbolNumber?_eq_none {name : String} {named : Bool} :
    d.symbolNumber? name named = none ↔ ¬ d.Declares name named := by
  simp [symbolNumber?, Declares, List.findIdx?_eq_none_iff]

theorem levelValue?_eq_none {name : String} :
    d.levelValue? name = none ↔ ¬ ∃ l ∈ d.levels, l.name = name := by
  simp [levelValue?]

/-- Entries that carry their places are found as the place is. -/
theorem map_find?_zipIdx {α : Type} (p : α → Bool) (xs : List α) (start : Nat) :
    ((xs.zipIdx start).find? fun e ↦ p e.1).map Prod.snd =
      (xs.findIdx? p).map (· + start) := by
  induction xs generalizing start with
  | nil => rfl
  | cons x rest ih =>
      rw [List.zipIdx_cons, List.find?_cons, List.findIdx?_cons]
      cases hx : p x with
      | true => simp
      | false =>
          simp only [ih, Bool.false_eq_true, if_false, Option.map_map]
          congr 1
          funext i
          simp only [Function.comp_apply]
          omega

theorem zipIdx_drop_one (symbols : List SymbolEntry) :
    symbols.zipIdx.drop 1 = symbols.tail.zipIdx 1 := by
  cases symbols <;> rfl

section Tables

variable {x y : Indexes}

/-- Symbols are found under their numbers, and no two of them are alike. -/
theorem kinds_of_addSymbols (h : (d.symbols.zipIdx.drop 1).foldlM Indexes.addSymbol {} = .ok x)
    (name : String) (named : Bool) :
    (x.kinds named)[name]? = (d.symbolNumber? name named).map UInt16.ofNat := by
  have hempty : ((({} : Indexes).kinds named)[name]? : Option UInt16) = none := by
    cases named <;> exact Std.HashMap.getElem?_empty
  have hkey : (fun e : SymbolEntry × Nat ↦ decide ((e.1.name, e.1.named) = (name, named))) =
      fun e ↦ (fun s : SymbolEntry ↦ s.name == name && s.named == named) e.1 := by
    funext e
    rw [Bool.eq_iff_iff]
    simp
  rw [Indexes.fills_addSymbol.get_of_foldlM h (name, named), hempty, Option.or_none, hkey,
    zipIdx_drop_one, symbolNumber?, ← map_find?_zipIdx, Option.map_map]
  rfl

theorem exists_addSymbols_iff :
    (∃ x, (d.symbols.zipIdx.drop 1).foldlM Indexes.addSymbol {} = .ok x) ↔
      (d.symbols.tail.map fun s ↦ (s.name, s.named)).Nodup := by
  rw [Indexes.fills_addSymbol.exists_foldlM_iff fun k ↦ ?hempty, zipIdx_drop_one]
  case hempty =>
    obtain ⟨name, named⟩ := k
    cases named <;> exact Std.HashMap.getElem?_empty
  have hkeys : (d.symbols.tail.zipIdx 1).map (fun e ↦ (e.1.name, e.1.named)) =
      d.symbols.tail.map fun s ↦ (s.name, s.named) := by
    rw [← List.zipIdx_map_fst 1 d.symbols.tail, List.map_map]
    simp
  rw [hkeys]
  simp

theorem fields_of_addFields (h : d.fields.zipIdx.foldlM Indexes.addField x = .ok y)
    (hempty : x.fields = ∅) (name : String) :
    y.fields[name]? = (d.fieldNumber? name).map UInt16.ofNat := by
  have hkey : (fun e : String × Nat ↦ decide (e.1 = name)) =
      fun e ↦ (fun field : String ↦ field == name) e.1 := rfl
  rw [Indexes.fills_addField.get_of_foldlM h name, hempty, Std.HashMap.getElem?_empty,
    Option.or_none, hkey, fieldNumber?, show d.fields.findIdx? (· == name) =
      ((d.fields.findIdx? (· == name)).map (· + 0)) by simp, ← map_find?_zipIdx, Option.map_map,
    Option.map_map]
  rfl

theorem exists_addFields_iff (hempty : x.fields = ∅) :
    (∃ y, d.fields.zipIdx.foldlM Indexes.addField x = .ok y) ↔
      d.fields.length ≤ 65535 ∧ (∀ name ∈ d.fields, name ≠ "") ∧ d.fields.Nodup := by
  rw [Indexes.fills_addField.exists_foldlM_iff fun k ↦ ?hempty]
  case hempty => rw [hempty, Std.HashMap.getElem?_empty]
  have hkeys : d.fields.zipIdx.map (·.1) = d.fields := List.zipIdx_map_fst 0 d.fields
  rw [hkeys, ← and_assoc]
  refine and_congr_left fun _ ↦ ⟨fun h ↦ ⟨?_, fun name hname ↦ ?_⟩, fun h e he ↦ ?_⟩
  · rcases Nat.eq_zero_or_pos d.fields.length with hzero | hpos
    · omega
    · have hlast := List.getElem?_eq_getElem (Nat.sub_one_lt_of_lt hpos)
      have hplace := (h _ (List.mk_mem_zipIdx_iff_getElem?.mpr hlast)).2
      have hle : d.fields.length - 1 < 65535 := hplace
      omega
  · obtain ⟨i, hi⟩ := List.getElem?_of_mem hname
    exact (h _ (List.mk_mem_zipIdx_iff_getElem?.mpr hi)).1
  · have hplace := List.mem_zipIdx_iff_getElem?.mp he
    obtain ⟨hlt, -⟩ := List.getElem?_eq_some_iff.mp hplace
    exact ⟨h.2 _ (List.mem_of_getElem? hplace), Nat.lt_of_lt_of_le hlt h.1⟩

theorem levels_of_addLevels (h : d.levels.foldlM Indexes.addLevel x = .ok y)
    (hempty : x.levels = ∅) (name : String) : y.levels[name]? = d.levelValue? name := by
  rw [Indexes.fills_addLevel.get_of_foldlM h name, hempty, Std.HashMap.getElem?_empty,
    Option.or_none]
  rfl

theorem exists_addLevels_iff (hempty : x.levels = ∅) :
    (∃ y, d.levels.foldlM Indexes.addLevel x = .ok y) ↔ (d.levels.map (·.name)).Nodup := by
  rw [Indexes.fills_addLevel.exists_foldlM_iff fun k ↦ ?hempty]
  case hempty => rw [hempty, Std.HashMap.getElem?_empty]
  simp

end Tables

/-- The indexes of a definition come out of four loops, one behind the other, if nothing is wrong
around them. -/
theorem indexes_eq_ok_iff {x : Indexes} : d.indexes = .ok x ↔
    (d.name ≠ "" ∧ d.symbols.length ≤ lastNumber ∧
      d.symbols.head?.map (·.name) = some endSymbol) ∧
    (∃ symbols, (d.symbols.zipIdx.drop 1).foldlM Indexes.addSymbol {} = .ok symbols ∧
      ∃ fields, d.fields.zipIdx.foldlM Indexes.addField symbols = .ok fields ∧
      ∃ levels, d.levels.foldlM Indexes.addLevel fields = .ok levels ∧
      d.operators.foldlM Indexes.addOperator levels = .ok x) ∧
    ∀ name ∈ d.extras ++ d.externals, (x.named[name]?).isSome = true := by
  have hkinds (y : Indexes) (names : List String) : (names.forM y.checkKind = .ok ()) ↔
      ∀ name ∈ names, (y.named[name]?).isSome = true := by
    induction names with
    | nil => simp [List.forM_nil, pure, Except.pure]
    | cons name rest ih =>
        rw [List.forM_eq_forM, List.forM_cons, bind_eq_ok_iff, List.forall_mem_cons, ← ih,
          List.forM_eq_forM, Indexes.checkKind, Std.HashMap.contains_eq_isSome_getElem?]
        cases (y.named[name]?).isSome <;> simp
  unfold indexes
  by_cases hname : d.name = ""
  · simp [hname]
  by_cases hcount : lastNumber < d.symbols.length
  · simp [hname, hcount, Nat.not_le.mpr hcount]
  by_cases hfirst : d.symbols.head?.map (·.name) = some endSymbol
  · simp only [hname, hcount, hfirst, if_false, ne_eq, not_true_eq_false, not_false_eq_true,
      Nat.not_lt.mp hcount, and_self, true_and, bind_eq_ok_iff]
    constructor
    · rintro ⟨x₁, h₁, x₂, h₂, x₃, h₃, y, h₄, _, hforM, hy⟩
      obtain rfl := Except.ok.inj hy
      exact ⟨⟨x₁, h₁, x₂, h₂, x₃, h₃, h₄⟩, (hkinds _ _).mp hforM⟩
    · rintro ⟨⟨x₁, h₁, x₂, h₂, x₃, h₃, h₄⟩, hnames⟩
      exact ⟨x₁, h₁, x₂, h₂, x₃, h₃, x, h₄, (), (hkinds _ _).mpr hnames, rfl⟩
  · simp [hname, hcount, hfirst]

/-- In the indexes of a definition everything is found that a search of its tables finds. -/
structure Filled (d : Definition) (x : Indexes) : Prop where
  kinds : ∀ name named, (x.kinds named)[name]? = (d.symbolNumber? name named).map UInt16.ofNat
  fields : ∀ name, x.fields[name]? = (d.fieldNumber? name).map UInt16.ofNat
  levels : ∀ name, x.levels[name]? = d.levelValue? name

section Chain

variable {symbols fields levels x : Indexes}
  (hsymbols : (d.symbols.zipIdx.drop 1).foldlM Indexes.addSymbol {} = .ok symbols)
  (hfields : d.fields.zipIdx.foldlM Indexes.addField symbols = .ok fields)
  (hlevels : d.levels.foldlM Indexes.addLevel fields = .ok levels)

include hsymbols

/-- The loop over the symbols leaves the other indexes empty. -/
theorem frame_of_addSymbols :
    symbols.fields = ∅ ∧ symbols.levels = ∅ ∧ symbols.operators = ∅ := by
  have hround (s : Indexes) (e : SymbolEntry × Nat) (t : Indexes) (h : s.addSymbol e = .ok t) :
      (t.fields, t.levels, t.operators) = (s.fields, s.levels, s.operators) := by
    unfold Indexes.addSymbol at h
    dsimp only at h
    split at h
    · cases h
    · obtain rfl := Except.ok.inj h
      split <;> rfl
  have hsame := eq_of_foldlM (fun x : Indexes ↦ (x.fields, x.levels, x.operators)) hround
    hsymbols
  simpa using hsame

include hfields

theorem frame_of_addFields :
    fields.kinds = symbols.kinds ∧ fields.levels = ∅ ∧ fields.operators = ∅ := by
  obtain ⟨-, hlevels, hoperators⟩ := frame_of_addSymbols hsymbols
  have hround (s : Indexes) (e : String × Nat) (t : Indexes) (h : s.addField e = .ok t) :
      (t.kinds, t.levels, t.operators) = (s.kinds, s.levels, s.operators) := by
    rw [(Indexes.addField_eq_ok_iff.mp h).2.2]
    rfl
  have hsame := eq_of_foldlM (fun x : Indexes ↦ (x.kinds, x.levels, x.operators)) hround
    hfields
  simpa [hlevels, hoperators] using hsame

include hlevels

theorem frame_of_addLevels :
    levels.kinds = symbols.kinds ∧ levels.fields = fields.fields ∧ levels.operators = ∅ := by
  obtain ⟨hkinds, -, hoperators⟩ := frame_of_addFields hsymbols hfields
  have hround (s : Indexes) (l : Level) (t : Indexes) (h : s.addLevel l = .ok t) :
      (t.kinds, t.fields, t.operators) = (s.kinds, s.fields, s.operators) := by
    rw [(Indexes.addLevel_eq_ok_iff.mp h).2]
    rfl
  have hsame := eq_of_foldlM (fun x : Indexes ↦ (x.kinds, x.fields, x.operators)) hround
    hlevels
  simpa [hkinds, hoperators] using hsame

theorem filled_of_addLevels : d.Filled levels := by
  obtain ⟨hempty, -⟩ := frame_of_addSymbols hsymbols
  obtain ⟨-, hnone, -⟩ := frame_of_addFields hsymbols hfields
  obtain ⟨hkinds, hsame, -⟩ := frame_of_addLevels hsymbols hfields hlevels
  refine ⟨fun name named ↦ ?_, fun name ↦ ?_, levels_of_addLevels hlevels hnone⟩
  · rw [hkinds, kinds_of_addSymbols hsymbols]
  · rw [hsame, fields_of_addFields hfields hempty]

end Chain

namespace Filled

variable {x : Indexes} (h : d.Filled x)

include h

theorem isSome_kinds (name : String) (named : Bool) :
    ((x.kinds named)[name]?).isSome = true ↔ d.Declares name named := by
  rw [h.kinds, Option.isSome_map, ← Option.ne_none_iff_isSome, ne_eq, symbolNumber?_eq_none,
    Classical.not_not]

theorem isSome_levels (name : String) :
    (x.levels[name]?).isSome = true ↔ ∃ l ∈ d.levels, l.name = name := by
  rw [h.levels, ← Option.ne_none_iff_isSome, ne_eq, levelValue?_eq_none, Classical.not_not]

theorem infoOf?_eq (o : OperatorEntry) : x.infoOf? o = do
    return ⟨UInt16.ofNat (← d.symbolNumber? o.token false), ← d.levelValue? o.level,
      o.associativity⟩ := by
  have hsymbol : x.anonymous[o.token]? = (d.symbolNumber? o.token false).map UInt16.ofNat :=
    h.kinds o.token false
  rw [Indexes.infoOf?, hsymbol, h.levels]
  cases d.symbolNumber? o.token false <;> rfl

end Filled

theorem exists_addOperators_iff {x : Indexes} (h : d.Filled x) :
    (∃ y, d.operators.foldlM Indexes.addOperator x = .ok y) ↔
      ∀ o ∈ d.operators, (∃ l ∈ d.levels, l.name = o.level) ∧ d.Declares o.token false := by
  rw [Indexes.exists_foldlM_addOperator]
  refine forall₂_congr fun o _ ↦ ?_
  rw [h.isSome_levels, ← h.isSome_kinds]
  rfl

/-- The indexes of a definition find what a search of its tables finds. Of several operators for one
token the last one is found. -/
theorem filled_of_indexes {x : Indexes} (h : d.indexes = .ok x) :
    d.Filled x ∧ ∀ token, x.operators[token]? = d.operatorInfo? token := by
  obtain ⟨-, ⟨symbols, hsymbols, fields, hfields, levels, hlevels, hoperators⟩, -⟩ :=
    indexes_eq_ok_iff.mp h
  have hfilled := filled_of_addLevels hsymbols hfields hlevels
  obtain ⟨hkinds, hsame, hvalues⟩ := Indexes.frame_of_foldlM_addOperator hoperators
  obtain ⟨-, -, hempty⟩ := frame_of_addLevels hsymbols hfields hlevels
  refine ⟨⟨hkinds ▸ hfilled.kinds, hsame ▸ hfilled.fields, hvalues ▸ hfilled.levels⟩, ?_⟩
  intro token
  rw [Indexes.operators_of_foldlM hoperators, hempty, Std.HashMap.getElem?_empty, Option.or_none,
    operatorInfo?]
  cases hfind : d.operators.reverse.find? (·.token == token) with
  | none => rfl
  | some o =>
      obtain rfl : o.token = token := by simpa using List.find?_some hfind
      exact hfilled.infoOf?_eq o

theorem head?_eq_endSymbol_iff : d.symbols.head?.map (·.name) = some endSymbol ↔
    1 ≤ d.symbols.length ∧ ∀ s ∈ d.symbols.head?, s.name = "end" := by
  cases d.symbols <;> simp [endSymbol]

/-- Exactly the valid definitions have indexes. -/
theorem exists_indexes_iff : (∃ x, d.indexes = .ok x) ↔ d.Valid := by
  constructor
  · rintro ⟨x, hx⟩
    obtain ⟨⟨hname, hcount, hfirst⟩,
      ⟨symbols, hsymbols, fields, hfields, levels, hlevels, hoperators⟩, hnames⟩ :=
      indexes_eq_ok_iff.mp hx
    obtain ⟨hsome, hend⟩ := head?_eq_endSymbol_iff.mp hfirst
    obtain ⟨hempty, -⟩ := frame_of_addSymbols hsymbols
    obtain ⟨-, hnone, -⟩ := frame_of_addFields hsymbols hfields
    obtain ⟨hfew, hnamed, hfieldnodup⟩ := (exists_addFields_iff hempty).mp ⟨fields, hfields⟩
    have hentries := (exists_addOperators_iff
      (filled_of_addLevels hsymbols hfields hlevels)).mp ⟨x, hoperators⟩
    have hdeclared (name : String) (hmem : name ∈ d.extras ++ d.externals) :
        d.Declares name true :=
      ((filled_of_indexes hx).1.isSome_kinds name true).mp (hnames name hmem)
    exact ⟨hname, hsome, hcount, hend, exists_addSymbols_iff.mp ⟨symbols, hsymbols⟩, hfew, hnamed,
      hfieldnodup, (exists_addLevels_iff hnone).mp ⟨levels, hlevels⟩, fun o ho ↦ (hentries o ho).1,
      fun o ho ↦ (hentries o ho).2, fun name h ↦ hdeclared name (List.mem_append_left _ h),
      fun name h ↦ hdeclared name (List.mem_append_right _ h)⟩
  · intro h
    obtain ⟨symbols, hsymbols⟩ := exists_addSymbols_iff.mpr h.symbols_nodup
    obtain ⟨hempty, -⟩ := frame_of_addSymbols hsymbols
    obtain ⟨fields, hfields⟩ :=
      (exists_addFields_iff hempty).mpr ⟨h.fields_le, h.fields_ne, h.fields_nodup⟩
    obtain ⟨-, hnone, -⟩ := frame_of_addFields hsymbols hfields
    obtain ⟨levels, hlevels⟩ := (exists_addLevels_iff hnone).mpr h.levels_nodup
    have hfilled := filled_of_addLevels hsymbols hfields hlevels
    obtain ⟨x, hoperators⟩ := (exists_addOperators_iff hfilled).mpr fun o ho ↦
      ⟨h.operators_level o ho, h.operators_symbol o ho⟩
    have hkinds := (Indexes.frame_of_foldlM_addOperator hoperators).1
    refine ⟨x, indexes_eq_ok_iff.mpr ⟨⟨h.name_ne, h.symbols_le,
      head?_eq_endSymbol_iff.mpr ⟨h.some_symbol, h.first_symbol⟩⟩,
      ⟨symbols, hsymbols, fields, hfields, levels, hlevels, hoperators⟩, fun name hmem ↦ ?_⟩⟩
    have hdeclared : d.Declares name true :=
      (List.mem_append.mp hmem).elim (h.extras_symbol name) (h.externals_symbol name)
    have hfound := (hfilled.isSome_kinds name true).mpr hdeclared
    rwa [← hkinds] at hfound

theorem flaw?_eq_none_iff : d.flaw? = none ↔ d.Valid := by
  rw [flaw?_eq_none_iff_indexes, exists_indexes_iff]

end CoolTree.Grammar.Definition
