import CoolTree.Grammar.Language
import CoolTree.Proofs.Conveyed
import CoolTree.Proofs.Validity

/-!
# Loading what was compiled

The header of an artifact says where its payload ends, and the payload of a compiled definition is
read back as that definition. So loading fails for one reason only: the tables do not fit together.
-/

namespace CoolTree

namespace Grammar.Artifact

theorem length_littleEndian (count n : Nat) : (littleEndian count n).length = count := by
  rw [littleEndian, List.length_reverse, MessagePack.length_bigEndian]

theorem ofLittleEndian_littleEndian {count n : Nat} (h : n < 256 ^ count) :
    ofLittleEndian (littleEndian count n) = n := by
  have hflip : (fun (n : Nat) (b : UInt8) ↦ b.toNat + 256 * n) =
      fun n b ↦ n * 256 + b.toNat := by
    funext n b
    rw [Nat.add_comm, Nat.mul_comm]
  rw [ofLittleEndian, littleEndian, List.foldr_reverse, hflip, MessagePack.foldl_bigEndian,
    Nat.zero_mul, Nat.zero_add, Nat.mod_eq_of_lt h]

/-- What stands in front of a payload, with the bytes of its length. -/
def header (size : List UInt8) : List UInt8 :=
  magic ++ [1, 0] ++ size

theorem length_header {size : List UInt8} (h : size.length = 4) :
    (header size).length = headerLength := by
  have hmagic : magic.length = 8 := by decide
  simp [header, hmagic, h, headerLength]

/-- Behind the magic bytes and the version only the length of the payload decides. -/
theorem unpack_header {size : List UInt8} (h : size.length = 4) (payload : List UInt8) :
    unpack (header size ++ payload) =
      let n := ofLittleEndian size
      let actual := headerLength + payload.length
      if payload.length < n then .error (.truncated (headerLength + n) actual)
      else if n < payload.length then .error (.trailingBytes (payload.length - n))
      else .ok (version, payload) := by
  have hmagic : magic.length = 8 := by decide
  have hlength : (header size ++ payload).length = headerLength + payload.length := by
    rw [List.length_append, length_header h]
  have hfront : (header size ++ payload).take 8 = magic := by
    simp only [header, List.append_assoc]
    exact List.take_left' hmagic
  have hfound : ofLittleEndian (((header size ++ payload).drop 8).take 2) = version := by
    simp only [header, List.append_assoc]
    rw [List.drop_left' hmagic]
    rfl
  have hsize : ((header size ++ payload).drop 10).take 4 = size := by
    simp only [header]
    rw [List.append_assoc, List.drop_left' (by simp [hmagic]), List.take_left' h]
  have hbehind : (header size ++ payload).drop headerLength = payload :=
    List.drop_left' (length_header h)
  unfold unpack
  simp only [hlength, hfront, hfound, hsize, hbehind]
  simp [headerLength, oldestVersion, version, Nat.add_sub_add_left]

/-- A payload is unpacked as it was packed. -/
theorem unpack_pack {payload : List UInt8} (h : payload.length < 256 ^ 4) :
    unpack (pack payload) = .ok (version, payload) := by
  have hpack : pack payload = header (littleEndian 4 payload.length) ++ payload := rfl
  rw [hpack, unpack_header (length_littleEndian 4 _), ofLittleEndian_littleEndian h]
  simp

theorem pack_injective {payload payload' : List UInt8} (h : payload.length < 256 ^ 4)
    (h' : payload'.length < 256 ^ 4) (heq : pack payload = pack payload') : payload = payload' := by
  have hunpack := congrArg unpack heq
  rw [unpack_pack h, unpack_pack h'] at hunpack
  exact congrArg Prod.snd (Except.ok.inj hunpack)

variable {c : Codec}

theorem compileWith?_eq_some {d : Definition} {artifact : List UInt8} :
    compileWith? c d = some artifact ↔
      (c.encode d).length < 256 ^ 4 ∧ pack (c.encode d) = artifact := by
  unfold compileWith?
  dsimp only
  split_ifs with h
  · simp [h]
  · simp [h]

end Artifact

/-- Whatever fits the length in a header is read back as it was written. -/
def Codec.RoundTrips (c : Codec) : Prop :=
  ∀ d, (c.encode d).length < 2 ^ 32 → c.decode? (c.encode d) = some d

theorem Codec.roundTrips_messagePack : Codec.messagePack.RoundTrips :=
  fun _ h ↦ Definition.decode?_encode h

/-- A definition can be told from its artifact. -/
theorem Artifact.compileWith?_injective {c : Codec} (hc : c.RoundTrips) {d e : Definition}
    {artifact : List UInt8} (hd : compileWith? c d = some artifact)
    (he : compileWith? c e = some artifact) : d = e := by
  obtain ⟨hlt, rfl⟩ := compileWith?_eq_some.mp hd
  obtain ⟨hlt', heq⟩ := compileWith?_eq_some.mp he
  have hdecode := congrArg c.decode? (pack_injective hlt' hlt heq)
  rw [hc d hlt, hc e hlt'] at hdecode
  exact (Option.some.inj hdecode).symm

end Grammar

namespace Language

open Grammar

/-- An artifact of a definition is loaded as the definition is checked. -/
theorem loadWith_pack {c : Codec} (hc : c.RoundTrips) {d : Definition}
    (h : (c.encode d).length < 256 ^ 4) :
    loadWith c (Artifact.pack (c.encode d)) = ofDefinition Artifact.version d := by
  rw [loadWith, Artifact.unpack_pack h]
  dsimp only
  rw [hc d h]

theorem load_pack {d : Definition} (h : d.encode.length < 256 ^ 4) :
    load (Artifact.pack d.encode) = ofDefinition Artifact.version d :=
  loadWith_pack Codec.roundTrips_messagePack h

theorem ofDefinition_of_valid (version : Nat) {d : Definition} (h : d.Valid) :
    ofDefinition version d = .ok (.ofFlawless version d (Definition.flaw?_eq_none_iff.mpr h)) := by
  obtain ⟨x, hx⟩ := Definition.exists_indexes_iff.mpr h
  unfold ofDefinition ofFlawless
  split
  · rfl
  · rename_i flaw hflaw
    rw [hx] at hflaw
    contradiction

theorem ofDefinition_of_not_valid (version : Nat) {d : Definition} (h : ¬ d.Valid) :
    ∃ flaw, d.flaw? = some flaw ∧ ofDefinition version d = .error (.invalid flaw) := by
  unfold ofDefinition
  split
  · rename_i x hx
    exact (h (Definition.exists_indexes_iff.mp ⟨x, hx⟩)).elim
  · rename_i flaw hflaw
    exact ⟨flaw, by rw [Definition.flaw?, hflaw], rfl⟩

/-- With any way of writing definitions that can be undone, a definition whose bytes fit the length
in the header has an artifact, which no other definition has. The artifact is loaded exactly if the
definition is valid, and the language then has version 1 and the tables of the definition. Otherwise
the fault is the first flaw of these tables. -/
theorem loadWith_compileWith {c : Codec} (hc : c.RoundTrips) (d : Definition)
    (h : (c.encode d).length < 2 ^ 32) :
    ∃ artifact, Artifact.compileWith? c d = some artifact ∧
      (∀ e, Artifact.compileWith? c e = some artifact → e = d) ∧
      ((∃ l, loadWith c artifact = .ok l) ↔ d.Valid) ∧
      (∀ l, loadWith c artifact = .ok l → l.version = 1 ∧ l.definition = d) ∧
      ∀ fault, loadWith c artifact = .error fault →
        ∃ flaw, d.flaw? = some flaw ∧ fault = .invalid flaw := by
  have hcompile : Artifact.compileWith? c d = some (Artifact.pack (c.encode d)) :=
    Artifact.compileWith?_eq_some.mpr ⟨h, rfl⟩
  refine ⟨_, hcompile, fun e he ↦ Artifact.compileWith?_injective hc he hcompile, ?_⟩
  rw [loadWith_pack hc h]
  by_cases hvalid : d.Valid
  · rw [ofDefinition_of_valid _ hvalid]
    refine ⟨⟨fun _ ↦ hvalid, fun _ ↦ ⟨_, rfl⟩⟩, ?_, ?_⟩
    · intro l hl
      obtain rfl := Except.ok.inj hl
      exact ⟨version_ofFlawless _, definition_ofFlawless _⟩
    · intro fault hfault
      contradiction
  · obtain ⟨flaw, hflaw, hload⟩ := ofDefinition_of_not_valid Artifact.version hvalid
    rw [hload]
    refine ⟨⟨?_, fun hd ↦ (hvalid hd).elim⟩, ?_, ?_⟩
    · rintro ⟨l, hl⟩
      contradiction
    · intro l hl
      contradiction
    · intro fault hfault
      cases hfault
      exact ⟨flaw, hflaw, rfl⟩

/-- A definition whose bytes fit the length in the header has an artifact, which no other definition
has. The artifact is loaded exactly if the definition is valid, and the language then has version 1
and the tables of the definition. Otherwise the fault is the first flaw of these tables. -/
theorem load_compile (d : Definition) (h : d.encode.length < 2 ^ 32) :
    ∃ artifact, Artifact.compile? d = some artifact ∧
      (∀ e, Artifact.compile? e = some artifact → e = d) ∧
      ((∃ l, load artifact = .ok l) ↔ d.Valid) ∧
      (∀ l, load artifact = .ok l → l.version = 1 ∧ l.definition = d) ∧
      ∀ fault, load artifact = .error fault →
        ∃ flaw, d.flaw? = some flaw ∧ fault = .invalid flaw :=
  loadWith_compileWith Codec.roundTrips_messagePack d h

/-- Levels may lie below zero, and names need not be ASCII. -/
theorem load_compile_two_levels :
    let d : Definition :=
      ⟨"é", [⟨"end", true, false⟩, ⟨"+", false, true⟩, ⟨"+", true, true⟩], ["left"],
        [⟨"low", -2147483648⟩, ⟨"high", 40000⟩], [⟨"+", "low", .right⟩], [], ["+"], []⟩
    d.encode.length < 2 ^ 32 ∧ ∃ artifact, Artifact.compile? d = some artifact ∧ d.Valid ∧
      ∃ l, load artifact = .ok l ∧ l.definition = d := by
  intro d
  have hshort : d.encode.length < 2 ^ 32 := by decide +kernel
  obtain ⟨artifact, hartifact, -, hload, htables, -⟩ := load_compile d hshort
  have hvalid : d.Valid := by
    constructor
    all_goals decide
  obtain ⟨l, hl⟩ := hload.mpr hvalid
  exact ⟨hshort, artifact, hartifact, hvalid, l, hl, (htables l hl).2⟩

end Language

end CoolTree
