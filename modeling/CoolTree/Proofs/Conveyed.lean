import CoolTree.Grammar.Artifact
import CoolTree.Proofs.Written

/-!
# What written bytes convey

Bytes convey an element of a type when a decoder makes it of the value that is read from them. A
record conveys its fields because each is found under its own name, and a list conveys its elements.
From this it follows, type by type, that a grammar definition is conveyed by the bytes it is written
as.
-/

namespace CoolTree

namespace MessagePack

theorem mapM_eq_some {α β : Type} {f : α → Option β} {xs : List α} {ys : List β}
    (h : List.Forall₂ (fun x y ↦ f x = some y) xs ys) : xs.mapM f = some ys := by
  induction h with
  | nil => rfl
  | cons hx _ ih => simp [hx, ih]

namespace Value

theorem place?_text {names : List String} (hnames : names.Nodup) {i : Nat}
    (hi : i < names.length) : place? names (.text (Text.encodeUtf8 names[i])) = some i := by
  have hfirst :
      (names.findIdx fun name ↦ Text.encodeUtf8 name == Text.encodeUtf8 names[i]) = i := by
    rw [List.findIdx_eq hi]
    refine ⟨beq_self_eq_true _, fun j hj ↦ beq_eq_false_iff_ne.mpr fun heq ↦ ?_⟩
    have hij : j = i := (hnames.getElem_inj_iff).mp (Text.encodeUtf8_injective heq)
    omega
  rw [place?, hfirst]

theorem atPlace?_of_mem {entries : List (Nat × Value)} (hkeys : (entries.map Prod.fst).Nodup)
    {i : Nat} {v : Value} (h : (i, v) ∈ entries) : atPlace? entries i = some v := by
  have hfilter : entries.filter (·.1 == i) = [(i, v)] := by
    induction entries with
    | nil => simp at h
    | cons entry entries ih =>
        rw [List.map_cons, List.nodup_cons] at hkeys
        obtain ⟨hfresh, hkeys⟩ := hkeys
        rcases List.mem_cons.mp h with rfl | h
        · have hnone : entries.filter (·.1 == i) = [] := by
            refine List.filter_eq_nil_iff.mpr fun entry hentry heq ↦ hfresh ?_
            exact List.mem_map.mpr ⟨entry, hentry, by simpa using heq⟩
          simp [hnone]
        · have hne : entry.1 ≠ i := by
            intro heq
            exact hfresh (List.mem_map.mpr ⟨(i, v), h, heq.symm⟩)
          rw [List.filter_cons_of_neg (by simpa using hne), ih hkeys h]
  rw [atPlace?, hfilter]

theorem record?_recordValue {names : List String} (hnames : names.Nodup) {vs : List Value}
    (hlength : vs.length = names.length) :
    record? names (Write.recordValue names vs) = some vs := by
  have hplaced : (List.zipWith (fun name v ↦ (Value.text (Text.encodeUtf8 name), v)) names vs).mapM
      (fun entry ↦ (place? names entry.1).map (·, entry.2)) =
        some ((List.range names.length).zip vs) := by
    apply mapM_eq_some
    rw [List.forall₂_iff_get]
    refine ⟨by simp, fun i h _ ↦ ?_⟩
    have hi : i < names.length := by
      rw [List.length_zipWith] at h
      omega
    simp [place?_text hnames hi]
  have hkeys : (((List.range names.length).zip vs).map Prod.fst).Nodup := by
    rw [List.map_fst_zip (by simp [hlength])]
    exact List.nodup_range
  have hvalues : (List.range names.length).mapM
      (atPlace? ((List.range names.length).zip vs)) = some vs := by
    apply mapM_eq_some
    rw [List.forall₂_iff_get]
    refine ⟨by simp [hlength], fun i _ h ↦ ?_⟩
    apply atPlace?_of_mem hkeys
    refine List.mem_iff_getElem.mpr ⟨i, by simpa [hlength] using h, by simp⟩
  simp [record?, Write.recordValue, hplaced, hvalues]

end Value

/-- Bytes that are read as a value of which a decoder makes an element. -/
def Conveys {α : Type} (depth : Nat) (decode? : Value → Option α) (bytes : List UInt8) (x : α) :
    Prop :=
  ∃ v, Represents depth bytes v ∧ decode? v = some x

theorem Conveys.ne_nil {α : Type} {depth : Nat} {decode? : Value → Option α} {bytes : List UInt8}
    {x : α} (h : Conveys depth decode? bytes x) : bytes ≠ [] := by
  obtain ⟨v, hv, -⟩ := h
  exact hv.ne_nil

namespace Write

theorem conveys_bool (depth : Nat) (b : Bool) : Conveys depth Value.bool? (bool b) b :=
  ⟨_, represents_bool depth b, rfl⟩

theorem conveys_text (depth : Nat) {s : String} (h : (text s).length < 256 ^ 4) :
    Conveys depth Value.string? (text s) s :=
  ⟨_, represents_text depth h, Text.decodeUtf8?_encodeUtf8 s⟩

theorem conveys_int (depth : Nat) (x : Int32) : Conveys depth Value.int32? (int x.toInt) x := by
  have hlow := x.le_toInt
  have hhigh := x.toInt_lt
  by_cases hneg : x.toInt < 0
  · refine ⟨_, represents_int_of_neg depth hneg (by omega), ?_⟩
    rw [Value.int32?, if_pos (by omega), Int32.ofInt_toInt]
  · have hcast : ((x.toInt.toNat : Nat) : Int) = x.toInt := Int.toNat_of_nonneg (by omega)
    refine ⟨.nat x.toInt.toNat, ?_, ?_⟩
    · rw [int, if_pos (by omega)]
      exact represents_nat depth (by omega)
    · rw [Value.int32?, if_pos (by omega), ← Int32.ofInt_eq_ofNat, hcast, Int32.ofInt_toInt]

theorem length_write_le {α : Type} (write : α → List UInt8) {xs : List α} {x : α} (h : x ∈ xs) :
    (write x).length ≤ (xs.flatMap write).length := by
  obtain ⟨before, behind, rfl⟩ := List.append_of_mem h
  simp only [List.flatMap_append, List.flatMap_cons, List.length_append]
  omega

theorem length_le_length_flatMap {α : Type} {write : α → List UInt8} {xs : List α}
    (h : ∀ x ∈ xs, write x ≠ []) : xs.length ≤ (xs.flatMap write).length := by
  induction xs with
  | nil => exact Nat.zero_le _
  | cons x xs ih =>
      obtain ⟨hx, hxs⟩ := List.forall_mem_cons.mp h
      have hpos := List.length_pos_of_ne_nil hx
      have hle := ih hxs
      rw [List.length_cons, List.flatMap_cons, List.length_append]
      omega

/-- A list is conveyed element by element. -/
theorem conveys_array {α : Type} {depth : Nat} {decode? : Value → Option α}
    {write : α → List UInt8} {xs : List α} (hshort : (array write xs).length < 256 ^ 4)
    (h : ∀ x ∈ xs, (write x).length < 256 ^ 4 → Conveys depth decode? (write x) x) :
    Conveys (depth + 1) (Value.list? decode?) (array write xs) xs := by
  have hbody : (xs.flatMap write).length < 256 ^ 4 := by
    rw [array, List.length_append] at hshort
    omega
  have hconveys : ∀ x ∈ xs, Conveys depth decode? (write x) x :=
    fun x hx ↦ h x hx ((length_write_le write hx).trans_lt hbody)
  have hcount : xs.length < 256 ^ 4 :=
    (length_le_length_flatMap fun x hx ↦ (hconveys x hx).ne_nil).trans_lt hbody
  choose! f hf using hconveys
  refine ⟨.array (xs.map f), represents_array hcount ?_, ?_⟩
  · rw [List.forall₂_map_right_iff, List.forall₂_same]
    exact fun x hx ↦ (hf x hx).1
  · apply mapM_eq_some
    rw [List.forall₂_map_left_iff, List.forall₂_same]
    exact fun x hx ↦ (hf x hx).2

/-- What a record is written as is longer than the name and the bytes of any of its entries. -/
theorem length_lt_of_mem_record {entries : List (String × List UInt8)} {n : Nat}
    (h : (record entries).length < n) :
    ∀ entry ∈ entries, (text entry.1).length + entry.2.length < n := by
  intro entry hentry
  have hle := length_write_le (fun entry : String × List UInt8 ↦ text entry.1 ++ entry.2) hentry
  rw [record, List.length_append] at h
  rw [List.length_append] at hle
  omega

/-- A record conveys what a decoder makes of the values of its entries. -/
theorem conveys_record {α : Type} {depth : Nat} {decode? : Value → Option α}
    {entries : List (String × List UInt8)} {vs : List Value} {x : α}
    (hshort : (record entries).length < 256 ^ 4) (hnames : (entries.map Prod.fst).Nodup)
    (h : List.Forall₂ (fun entry v ↦ Represents depth entry.2 v) entries vs)
    (hx : ∀ v, v.record? (entries.map Prod.fst) = some vs → decode? v = some x) :
    Conveys (depth + 1) decode? (record entries) x := by
  have htexts : ∀ entry ∈ entries, (text entry.1).length < 256 ^ 4 :=
    fun entry hentry ↦ Nat.lt_of_add_right_lt (length_lt_of_mem_record hshort entry hentry)
  have hcount : entries.length < 256 ^ 4 := by
    have hbody := hshort
    rw [record, List.length_append] at hbody
    refine (length_le_length_flatMap fun entry hentry hnil ↦ ?_).trans_lt
      (Nat.lt_of_add_left_lt hbody)
    exact (represents_text depth (htexts entry hentry)).ne_nil (List.append_eq_nil_iff.mp hnil).1
  refine ⟨_, represents_record hcount htexts h, hx _ (Value.record?_recordValue hnames ?_)⟩
  rw [List.length_map, h.length_eq]

end Write

end MessagePack

namespace Grammar

open MessagePack MessagePack.Write

theorem Associativity.conveys_encode (depth : Nat) (a : Associativity) :
    Conveys depth ofValue? a.encode a := by
  cases a
  · exact ⟨_, represents_text depth (by decide), by decide +kernel⟩
  · exact ⟨_, represents_text depth (by decide), by decide +kernel⟩

theorem SymbolEntry.conveys_encode (depth : Nat) {s : SymbolEntry}
    (h : s.encode.length < 256 ^ 4) : Conveys (depth + 1) ofValue? s.encode s := by
  have hentries := length_lt_of_mem_record h
  obtain ⟨name, hname, ename⟩ := conveys_text depth
    (Nat.lt_of_add_left_lt (hentries ("name", text s.name) (by simp)))
  obtain ⟨named, hnamed, enamed⟩ := conveys_bool depth s.named
  obtain ⟨visible, hvisible, evisible⟩ := conveys_bool depth s.visible
  refine conveys_record h (by simp) (.cons hname (.cons hnamed (.cons hvisible .nil))) fun v hv ↦ ?_
  simp only [List.map_cons, List.map_nil] at hv
  simp [ofValue?, hv, ename, enamed, evisible]

theorem Level.conveys_encode (depth : Nat) {l : Level} (h : l.encode.length < 256 ^ 4) :
    Conveys (depth + 1) ofValue? l.encode l := by
  have hentries := length_lt_of_mem_record h
  obtain ⟨name, hname, ename⟩ := conveys_text depth
    (Nat.lt_of_add_left_lt (hentries ("name", text l.name) (by simp)))
  obtain ⟨value, hvalue, evalue⟩ := conveys_int depth l.value
  refine conveys_record h (by simp) (.cons hname (.cons hvalue .nil)) fun v hv ↦ ?_
  simp only [List.map_cons, List.map_nil] at hv
  simp [ofValue?, hv, ename, evalue]

theorem OperatorEntry.conveys_encode (depth : Nat) {o : OperatorEntry}
    (h : o.encode.length < 256 ^ 4) : Conveys (depth + 1) ofValue? o.encode o := by
  have hentries := length_lt_of_mem_record h
  obtain ⟨token, htoken, etoken⟩ := conveys_text depth
    (Nat.lt_of_add_left_lt (hentries ("token", text o.token) (by simp)))
  obtain ⟨level, hlevel, elevel⟩ := conveys_text depth
    (Nat.lt_of_add_left_lt (hentries ("level", text o.level) (by simp)))
  obtain ⟨assoc, hassoc, eassoc⟩ := Associativity.conveys_encode depth o.associativity
  refine conveys_record h (by simp) (.cons htoken (.cons hlevel (.cons hassoc .nil))) fun v hv ↦ ?_
  simp only [List.map_cons, List.map_nil] at hv
  simp [ofValue?, hv, etoken, elevel, eassoc]

theorem Definition.conveys_names (depth : Nat) {names : List String}
    (h : (array text names).length < 256 ^ 4) :
    Conveys (depth + 1) (Value.list? Value.string?) (array text names) names :=
  conveys_array h fun _ _ hname ↦ conveys_text depth hname

theorem Definition.conveys_encode (depth : Nat) {d : Definition} (h : d.encode.length < 256 ^ 4) :
    Conveys (depth + 3) ofValue? d.encode d := by
  have hentries := length_lt_of_mem_record h
  obtain ⟨name, hname, ename⟩ := conveys_text (depth + 2)
    (Nat.lt_of_add_left_lt (hentries ("name", text d.name) (by simp)))
  obtain ⟨symbols, hsymbols, esymbols⟩ := conveys_array
    (Nat.lt_of_add_left_lt (hentries ("symbols", array SymbolEntry.encode d.symbols) (by simp)))
    fun s _ hs ↦ SymbolEntry.conveys_encode depth hs
  obtain ⟨fields, hfields, efields⟩ := conveys_names (depth + 1)
    (Nat.lt_of_add_left_lt (hentries ("fields", array text d.fields) (by simp)))
  obtain ⟨levels, hlevels, elevels⟩ := conveys_array
    (Nat.lt_of_add_left_lt (hentries ("precedences", array Level.encode d.levels) (by simp)))
    fun l _ hl ↦ Level.conveys_encode depth hl
  obtain ⟨operators, hoperators, eoperators⟩ := conveys_array
    (Nat.lt_of_add_left_lt
      (hentries ("binary_operators", array OperatorEntry.encode d.operators) (by simp)))
    fun o _ ho ↦ OperatorEntry.conveys_encode depth ho
  obtain ⟨primitives, hprimitives, eprimitives⟩ := conveys_names (depth + 1)
    (Nat.lt_of_add_left_lt (hentries ("primitive_types", array text d.primitiveTypes) (by simp)))
  obtain ⟨extras, hextras, eextras⟩ := conveys_names (depth + 1)
    (Nat.lt_of_add_left_lt (hentries ("extras", array text d.extras) (by simp)))
  obtain ⟨externals, hexternals, eexternals⟩ := conveys_names (depth + 1)
    (Nat.lt_of_add_left_lt (hentries ("externals", array text d.externals) (by simp)))
  refine conveys_record h (by simp) (.cons hname (.cons hsymbols (.cons hfields (.cons hlevels
    (.cons hoperators (.cons hprimitives (.cons hextras (.cons hexternals .nil)))))))) fun v hv ↦ ?_
  simp only [List.map_cons, List.map_nil] at hv
  simp [ofValue?, fieldNames, hv, ename, esymbols, efields, elevels, eoperators, eprimitives,
    eextras, eexternals]

/-- A definition is read back from the bytes it is written as. -/
theorem Definition.decode?_encode {d : Definition} (h : d.encode.length < 256 ^ 4) :
    decode? d.encode = some d := by
  obtain ⟨v, hv, hd⟩ := conveys_encode 1020 h
  have hread := hv []
  rw [List.append_nil] at hread
  simp [decode?, nestingLimit, hread, hd]

end Grammar

end CoolTree
