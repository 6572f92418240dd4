import CoolTree.Grammar.Index

/-!
# Filling indexes

An index is filled by a loop over a table. Where the loop refuses a second entry for a key, it gets
through exactly if all entries are allowed and have different keys, and then every key is found
where a search of the table finds it. The loop over the operators lets a later entry take the place
of an earlier one, so there a search from the end of the table finds the same.
-/

namespace CoolTree.Grammar

theorem bind_eq_ok_iff {α β : Type} {x : Except Flaw α} {f : α → Except Flaw β} {y : β} :
    x >>= f = .ok y ↔ ∃ a, x = .ok a ∧ f a = .ok y := by
  cases x with
  | ok a => exact ⟨fun h ↦ ⟨a, rfl, h⟩, fun ⟨_, ha, h⟩ ↦ Except.ok.inj ha ▸ h⟩
  | error flaw =>
      constructor
      · intro h
        cases h
      · rintro ⟨_, ha, -⟩
        cases ha

section Loops

variable {σ ε κ β τ : Type} {add : σ → ε → Except Flaw σ} {s t : σ} {entries : List ε}

theorem foldlM_cons_eq_ok_iff {e : ε} : (e :: entries).foldlM add s = .ok t ↔
    ∃ u, add s e = .ok u ∧ entries.foldlM add u = .ok t := by
  rw [List.foldlM_cons, bind_eq_ok_iff]

theorem foldlM_nil_eq_ok_iff : ([] : List ε).foldlM add s = .ok t ↔ s = t := by
  rw [List.foldlM_nil]
  exact ⟨Except.ok.inj, congrArg Except.ok⟩

/-- What no round changes is the same behind the loop. -/
theorem eq_of_foldlM (part : σ → τ) (hround : ∀ s e t, add s e = .ok t → part t = part s)
    (h : entries.foldlM add s = .ok t) : part t = part s := by
  induction entries generalizing s with
  | nil => rw [foldlM_nil_eq_ok_iff.mp h]
  | cons e rest ih =>
      obtain ⟨u, hu, hrest⟩ := foldlM_cons_eq_ok_iff.mp h
      rw [ih hrest, hround s e u hu]

/-- A round of a loop puts an entry under its key, if it is allowed and the key is free. -/
structure Fills [DecidableEq κ] (add : σ → ε → Except Flaw σ) (get : σ → κ → Option β)
    (key : ε → κ) (value : ε → β) (allowed : ε → Prop) : Prop where
  exists_ok {s : σ} {e : ε} : allowed e → get s (key e) = none → ∃ t, add s e = .ok t
  allowed {s t : σ} {e : ε} : add s e = .ok t → allowed e
  free {s t : σ} {e : ε} : add s e = .ok t → get s (key e) = none
  get {s t : σ} {e : ε} :
    add s e = .ok t → ∀ k, get t k = if key e = k then some (value e) else get s k

namespace Fills

variable [DecidableEq κ] {get : σ → κ → Option β} {key : ε → κ} {value : ε → β}
  {allowed : ε → Prop} (hfills : Fills add get key value allowed)

include hfills

theorem allowed_of_foldlM (h : entries.foldlM add s = .ok t) : ∀ e ∈ entries, allowed e := by
  induction entries generalizing s with
  | nil => simp
  | cons e rest ih =>
      obtain ⟨u, hu, hrest⟩ := foldlM_cons_eq_ok_iff.mp h
      exact List.forall_mem_cons.mpr ⟨hfills.allowed hu, ih hrest⟩

/-- A key that is taken is not among those of the entries. -/
theorem free_of_foldlM (h : entries.foldlM add s = .ok t) :
    (entries.map key).Nodup ∧ ∀ e ∈ entries, get s (key e) = none := by
  induction entries generalizing s with
  | nil => simp
  | cons e rest ih =>
      obtain ⟨u, hu, hrest⟩ := foldlM_cons_eq_ok_iff.mp h
      obtain ⟨hnodup, hfree⟩ := ih hrest
      have hnext : ∀ e' ∈ rest, key e ≠ key e' ∧ get s (key e') = none := by
        intro e' he'
        have hnone := hfree e' he'
        rw [hfills.get hu] at hnone
        split at hnone
        · cases hnone
        · exact ⟨by assumption, hnone⟩
      refine ⟨List.nodup_cons.mpr ⟨?_, hnodup⟩, List.forall_mem_cons.mpr ⟨hfills.free hu, ?_⟩⟩
      · intro hmem
        obtain ⟨e', he', heq⟩ := List.mem_map.mp hmem
        exact (hnext e' he').1 heq.symm
      · exact fun e' he' ↦ (hnext e' he').2

/-- Behind the loop a key is found where a search of the entries finds it. -/
theorem get_of_foldlM (h : entries.foldlM add s = .ok t) (k : κ) :
    get t k = ((entries.find? (key · = k)).map value).or (get s k) := by
  induction entries generalizing s with
  | nil => rw [foldlM_nil_eq_ok_iff.mp h]; rfl
  | cons e rest ih =>
      obtain ⟨u, hu, hrest⟩ := foldlM_cons_eq_ok_iff.mp h
      rw [ih hrest, hfills.get hu, List.find?_cons]
      by_cases hk : key e = k
      · have hnone : rest.find? (key · = k) = none := by
          rw [List.find?_eq_none]
          intro e' he' heq
          have hdistinct := (List.nodup_cons.mp (hfills.free_of_foldlM h).1).1
          exact hdistinct (List.mem_map.mpr ⟨e', he', (of_decide_eq_true heq).trans hk.symm⟩)
        simp [hk, hnone]
      · simp [hk]

theorem exists_foldlM (hallowed : ∀ e ∈ entries, allowed e) (hnodup : (entries.map key).Nodup)
    (hfree : ∀ e ∈ entries, get s (key e) = none) : ∃ t, entries.foldlM add s = .ok t := by
  induction entries generalizing s with
  | nil => exact ⟨s, foldlM_nil_eq_ok_iff.mpr rfl⟩
  | cons e rest ih =>
      obtain ⟨hallowed, hrest⟩ := List.forall_mem_cons.mp hallowed
      obtain ⟨hfree, hothers⟩ := List.forall_mem_cons.mp hfree
      obtain ⟨hnew, hnodup⟩ := List.nodup_cons.mp hnodup
      obtain ⟨u, hu⟩ := hfills.exists_ok hallowed hfree
      have hnext : ∀ e' ∈ rest, get u (key e') = none := by
        intro e' he'
        rw [hfills.get hu, if_neg, hothers e' he']
        exact fun heq ↦ hnew (heq ▸ List.mem_map_of_mem he')
      obtain ⟨t, ht⟩ := ih hrest hnodup hnext
      exact ⟨t, foldlM_cons_eq_ok_iff.mpr ⟨u, hu, ht⟩⟩

theorem exists_foldlM_iff (hempty : ∀ k, get s k = none) :
    (∃ t, entries.foldlM add s = .ok t) ↔ (∀ e ∈ entries, allowed e) ∧ (entries.map key).Nodup :=
  ⟨fun ⟨_, h⟩ ↦ ⟨hfills.allowed_of_foldlM h, (hfills.free_of_foldlM h).1⟩,
    fun h ↦ hfills.exists_foldlM h.1 h.2 fun _ _ ↦ hempty _⟩

end Fills

end Loops

namespace Indexes

variable {x y : Indexes}

theorem kinds_addSymbol {entry : SymbolEntry × Nat} (h : x.addSymbol entry = .ok y) :
    (∀ named name, (y.kinds named)[name]? =
      if (entry.1.name, entry.1.named) = (name, named) then some (UInt16.ofNat entry.2)
      else (x.kinds named)[name]?) ∧
    (x.kinds entry.1.named)[entry.1.name]? = none := by
  obtain ⟨s, number⟩ := entry
  unfold addSymbol at h
  dsimp only at h ⊢
  split at h
  · cases h
  · rename_i hfree
    obtain rfl := Except.ok.inj h
    rw [Std.HashMap.contains_eq_isSome_getElem?] at hfree
    refine ⟨fun named name ↦ ?_, by simpa using hfree⟩
    cases hs : s.named <;> cases named <;>
      simp [kinds, Std.HashMap.getElem?_insert]

theorem fills_addSymbol : Fills addSymbol (fun x k ↦ (x.kinds k.2)[k.1]?)
    (fun e ↦ (e.1.name, e.1.named)) (fun e ↦ UInt16.ofNat e.2) (fun _ ↦ True) where
  exists_ok {x e} _ hfree := by
    have hnot : (x.kinds e.1.named).contains e.1.name = false := by
      rw [Std.HashMap.contains_eq_isSome_getElem?, hfree]
      rfl
    exact ⟨_, by simp only [addSymbol, hnot]; rfl⟩
  allowed _ := trivial
  free h := (kinds_addSymbol h).2
  get h k := (kinds_addSymbol h).1 k.2 k.1

/-- A field that may be added has a name and a number of two bytes. -/
def FieldAllowed (entry : String × Nat) : Prop :=
  entry.1 ≠ "" ∧ entry.2 < lastNumber

theorem addField_eq_ok_iff {entry : String × Nat} : x.addField entry = .ok y ↔
    FieldAllowed entry ∧ x.fields[entry.1]? = none ∧
      y = { x with fields := x.fields.insert entry.1 (UInt16.ofNat (entry.2 + 1)) } := by
  obtain ⟨name, place⟩ := entry
  simp only [addField, FieldAllowed, Std.HashMap.contains_eq_isSome_getElem?]
  by_cases hname : name = ""
  · simp [hname]
  · by_cases hlast : lastNumber < place + 1
    · have hnot : ¬ place < lastNumber := by omega
      simp [hname, hlast, hnot]
    · have hlt : place < lastNumber := by omega
      cases hfound : x.fields[name]? with
      | some number => simp [hname, hlast]
      | none => simp [hname, hlast, hlt, eq_comm]

theorem fills_addField : Fills addField (fun x name ↦ x.fields[name]?) (fun e ↦ e.1)
    (fun e ↦ UInt16.ofNat (e.2 + 1)) FieldAllowed where
  exists_ok hallowed hfree := ⟨_, addField_eq_ok_iff.mpr ⟨hallowed, hfree, rfl⟩⟩
  allowed h := (addField_eq_ok_iff.mp h).1
  free h := (addField_eq_ok_iff.mp h).2.1
  get h k := by
    rw [(addField_eq_ok_iff.mp h).2.2]
    simp [Std.HashMap.getElem?_insert]

theorem addLevel_eq_ok_iff {l : Level} : x.addLevel l = .ok y ↔
    x.levels[l.name]? = none ∧ y = { x with levels := x.levels.insert l.name l.value } := by
  simp only [addLevel, Std.HashMap.contains_eq_isSome_getElem?]
  cases x.levels[l.name]? with
  | some value => simp
  | none => simp [eq_comm]

theorem fills_addLevel : Fills addLevel (fun x name ↦ x.levels[name]?) Level.name Level.value
    (fun _ ↦ True) where
  exists_ok _ hfree := ⟨_, addLevel_eq_ok_iff.mpr ⟨hfree, rfl⟩⟩
  allowed _ := trivial
  free h := (addLevel_eq_ok_iff.mp h).1
  get h k := by
    rw [(addLevel_eq_ok_iff.mp h).2]
    simp [Std.HashMap.getElem?_insert]

theorem addOperator_eq_ok_iff {o : OperatorEntry} : x.addOperator o = .ok y ↔
    ∃ precedence symbol, x.levels[o.level]? = some precedence ∧
      x.anonymous[o.token]? = some symbol ∧
      y = { x with
        operators := x.operators.insert o.token ⟨symbol, precedence, o.associativity⟩ } := by
  unfold addOperator
  cases x.levels[o.level]? with
  | none => simp
  | some precedence =>
      cases x.anonymous[o.token]? with
      | none => simp
      | some symbol => simp [eq_comm]

theorem addOperator_frame {o : OperatorEntry} (h : x.addOperator o = .ok y) :
    y.kinds = x.kinds ∧ y.fields = x.fields ∧ y.levels = x.levels := by
  obtain ⟨_, _, -, -, rfl⟩ := addOperator_eq_ok_iff.mp h
  exact ⟨rfl, rfl, rfl⟩

/-- What an entry for an operator says, as far as its level and its symbol are known. -/
def infoOf? (x : Indexes) (o : OperatorEntry) : Option OperatorInfo := do
  return ⟨← x.anonymous[o.token]?, ← x.levels[o.level]?, o.associativity⟩

theorem infoOf?_congr (hkinds : y.kinds = x.kinds) (hlevels : y.levels = x.levels) :
    y.infoOf? = x.infoOf? := by
  have hanonymous : y.anonymous = x.anonymous := congrFun hkinds false
  funext o
  rw [infoOf?, infoOf?, hanonymous, hlevels]

theorem frame_of_foldlM_addOperator {entries : List OperatorEntry}
    (h : entries.foldlM addOperator x = .ok y) :
    y.kinds = x.kinds ∧ y.fields = x.fields ∧ y.levels = x.levels :=
  ⟨eq_of_foldlM kinds (fun _ _ _ h ↦ (addOperator_frame h).1) h,
    eq_of_foldlM fields (fun _ _ _ h ↦ (addOperator_frame h).2.1) h,
    eq_of_foldlM levels (fun _ _ _ h ↦ (addOperator_frame h).2.2) h⟩

theorem exists_foldlM_addOperator {entries : List OperatorEntry} :
    (∃ y, entries.foldlM addOperator x = .ok y) ↔
      ∀ o ∈ entries,
        (x.levels[o.level]?).isSome = true ∧ (x.anonymous[o.token]?).isSome = true := by
  induction entries generalizing x with
  | nil =>
      exact ⟨fun _ o ho ↦ (List.not_mem_nil ho).elim, fun _ ↦ ⟨x, foldlM_nil_eq_ok_iff.mpr rfl⟩⟩
  | cons o rest ih =>
      simp only [foldlM_cons_eq_ok_iff, List.forall_mem_cons]
      constructor
      · rintro ⟨y, u, hu, hrest⟩
        obtain ⟨precedence, symbol, hlevel, hsymbol, rfl⟩ := addOperator_eq_ok_iff.mp hu
        have hothers := ih.mp ⟨y, hrest⟩
        exact ⟨by simp [hlevel, hsymbol], hothers⟩
      · rintro ⟨⟨hlevel, hsymbol⟩, hrest⟩
        obtain ⟨precedence, hlevel⟩ := Option.isSome_iff_exists.mp hlevel
        obtain ⟨symbol, hsymbol⟩ := Option.isSome_iff_exists.mp hsymbol
        let u : Indexes := { x with
          operators := x.operators.insert o.token ⟨symbol, precedence, o.associativity⟩ }
        obtain ⟨y, hy⟩ := (@ih u).mpr hrest
        exact ⟨y, u, addOperator_eq_ok_iff.mpr ⟨precedence, symbol, hlevel, hsymbol, rfl⟩, hy⟩

/-- Behind the loop over the operators the last entry for a token counts. -/
theorem operators_of_foldlM {entries : List OperatorEntry}
    (h : entries.foldlM addOperator x = .ok y) (token : String) :
    y.operators[token]? =
      ((entries.reverse.find? (·.token == token)).bind x.infoOf?).or x.operators[token]? := by
  induction entries generalizing x with
  | nil => rw [foldlM_nil_eq_ok_iff.mp h]; rfl
  | cons o rest ih =>
      obtain ⟨u, hu, hrest⟩ := foldlM_cons_eq_ok_iff.mp h
      obtain ⟨hkinds, -, hlevels⟩ := addOperator_frame hu
      obtain ⟨precedence, symbol, hlevel, hsymbol, rfl⟩ := addOperator_eq_ok_iff.mp hu
      have hinfo : x.infoOf? o = some ⟨symbol, precedence, o.associativity⟩ := by
        simp [infoOf?, hlevel, hsymbol]
      rw [ih hrest, infoOf?_congr hkinds hlevels, List.reverse_cons, List.find?_append,
        Std.HashMap.getElem?_insert]
      cases hlater : rest.reverse.find? (·.token == token) with
      | none =>
          cases htoken : o.token == token with
          | true => simp [htoken, hinfo]
          | false => simp [htoken]
      | some later =>
          have hmem : later ∈ rest := List.mem_reverse.mp (List.mem_of_find?_eq_some hlater)
          obtain ⟨hl, hs⟩ := exists_foldlM_addOperator.mp ⟨y, h⟩ later (List.mem_cons_of_mem o hmem)
          obtain ⟨value, hvalue⟩ := Option.isSome_iff_exists.mp hl
          obtain ⟨number, hnumber⟩ := Option.isSome_iff_exists.mp hs
          simp [infoOf?, hvalue, hnumber]

end Indexes

end CoolTree.Grammar
