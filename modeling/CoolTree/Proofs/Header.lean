import CoolTree.Proofs.Loading

/-!
# The header of an artifact

Every text of bytes either is a header with as many bytes behind it as it says, or has one fault,
and the fault is told without the order of the checks: each one says what it leaves to the faults
that come before it. A whole artifact cannot be cut off or added to, and its header cannot be
changed, without a fault.
-/

namespace CoolTree

namespace Grammar.Artifact

/-- A header and, behind it, the payload that it announces. -/
def Framed (payload b : List UInt8) : Prop :=
  ∃ size, size.length = 4 ∧ ofLittleEndian size = payload.length ∧ b = header size ++ payload

/-- The fault that a header has. -/
inductive FaultyHeader : List UInt8 → HeaderFault → Prop
  | empty : FaultyHeader [] .empty
  | short {b : List UInt8} (some_byte : b ≠ []) (short : b.length < 14) :
      FaultyHeader b (.truncated 14 b.length)
  | magic {m rest : List UInt8} (length_eq : m.length = 8) (rest_length : 6 ≤ rest.length)
      (differs : m ≠ magic) : FaultyHeader (m ++ rest) .badMagic
  | version {v rest : List UInt8} (length_eq : v.length = 2) (rest_length : 4 ≤ rest.length)
      (differs : v ≠ [1, 0]) :
      FaultyHeader (magic ++ v ++ rest) (.versionMismatch (ofLittleEndian v))
  | missing {size payload : List UInt8} (length_eq : size.length = 4)
      (lt : payload.length < ofLittleEndian size) : FaultyHeader (header size ++ payload)
        (.truncated (14 + ofLittleEndian size) (14 + payload.length))
  | trailing {size payload : List UInt8} (length_eq : size.length = 4)
      (lt : ofLittleEndian size < payload.length) : FaultyHeader (header size ++ payload)
        (.trailingBytes (payload.length - ofLittleEndian size))

variable {b payload : List UInt8} {fault : HeaderFault}

theorem length_magic : magic.length = 8 := by
  decide

/-- So many bytes stand for one number, and no others stand for it. -/
theorem ofLittleEndian_inj {xs ys : List UInt8} (hlength : xs.length = ys.length)
    (h : ofLittleEndian xs = ofLittleEndian ys) : xs = ys := by
  induction xs generalizing ys with
  | nil => exact (List.length_eq_zero_iff.mp hlength.symm).symm
  | cons x xs ih =>
      obtain ⟨y, ys, rfl⟩ := List.exists_cons_of_length_eq_add_one hlength.symm
      have hsum : x.toNat + 256 * ofLittleEndian xs = y.toNat + 256 * ofLittleEndian ys := h
      have hx := x.toNat_lt
      have hy := y.toNat_lt
      have hfirst : x = y := UInt8.toNat_inj.mp (by omega)
      rw [hfirst, ih (Nat.succ.inj hlength) (by omega)]

theorem Framed.unpack_eq (h : Framed payload b) : unpack b = .ok (version, payload) := by
  obtain ⟨size, hsize, hlength, rfl⟩ := h
  rw [unpack_header hsize, hlength]
  simp

theorem FaultyHeader.unpack_eq (h : FaultyHeader b fault) : unpack b = .error fault := by
  cases h with
  | empty => rfl
  | short some_byte short =>
      have hsome : b.length ≠ 0 := fun hzero ↦ some_byte (List.length_eq_zero_iff.mp hzero)
      simp [unpack, hsome, headerLength, short]
  | @magic m rest length_eq rest_length differs =>
      have hlong : 14 ≤ (m ++ rest).length := by
        rw [List.length_append]
        omega
      have hfront : (m ++ rest).take 8 = m := List.take_left' length_eq
      unfold unpack
      dsimp only
      rw [if_neg (by omega), if_neg (by simp only [headerLength]; omega), hfront, if_pos differs]
  | @version v rest length_eq rest_length differs =>
      have hlong : 14 ≤ (Artifact.magic ++ v ++ rest).length := by
        simp only [List.length_append, length_magic]
        omega
      have hfront : (Artifact.magic ++ v ++ rest).take 8 = Artifact.magic := by
        rw [List.append_assoc]
        exact List.take_left' length_magic
      have hfound : ((Artifact.magic ++ v ++ rest).drop 8).take 2 = v := by
        rw [List.append_assoc, List.drop_left' length_magic]
        exact List.take_left' length_eq
      have hne : ofLittleEndian v ≠ 1 := fun hv ↦ differs (ofLittleEndian_inj length_eq hv)
      have hmismatch : ofLittleEndian v < oldestVersion ∨ Artifact.version < ofLittleEndian v := by
        simp only [oldestVersion, Artifact.version]
        omega
      unfold unpack
      dsimp only
      rw [if_neg (by omega), if_neg (by simp only [headerLength]; omega), hfront,
        if_neg (fun hne ↦ hne rfl), hfound, if_pos hmismatch]
  | missing length_eq lt =>
      rw [unpack_header length_eq]
      simp [lt, headerLength]
  | trailing length_eq lt =>
      rw [unpack_header length_eq]
      simp [lt, lt.le]

/-- Nothing is neither framed nor faulty. -/
theorem framed_or_faulty (b : List UInt8) :
    (∃ payload, Framed payload b) ∨ ∃ fault, FaultyHeader b fault := by
  by_cases hempty : b = []
  · exact .inr ⟨.empty, hempty ▸ .empty⟩
  by_cases hshort : b.length < 14
  · exact .inr ⟨_, .short hempty hshort⟩
  have hlong : 14 ≤ b.length := Nat.not_lt.mp hshort
  obtain ⟨m, rest, hm, rfl⟩ : ∃ m rest, m.length = 8 ∧ b = m ++ rest :=
    ⟨b.take 8, b.drop 8, by rw [List.length_take]; omega, (List.take_append_drop 8 b).symm⟩
  have hrest : 6 ≤ rest.length := by
    rw [List.length_append] at hlong
    omega
  by_cases hmagic : m = magic
  swap
  · exact .inr ⟨_, .magic hm hrest hmagic⟩
  obtain ⟨v, rest, hv, rfl⟩ : ∃ v more, v.length = 2 ∧ rest = v ++ more :=
    ⟨rest.take 2, rest.drop 2, by rw [List.length_take]; omega, (List.take_append_drop 2 rest).symm⟩
  have hrest : 4 ≤ rest.length := by
    rw [List.length_append] at hrest
    omega
  rw [hmagic, ← List.append_assoc]
  by_cases hversion : v = [1, 0]
  swap
  · exact .inr ⟨_, .version hv hrest hversion⟩
  obtain ⟨size, payload, hsize, rfl⟩ : ∃ size payload, size.length = 4 ∧ rest = size ++ payload :=
    ⟨rest.take 4, rest.drop 4, by rw [List.length_take]; omega, (List.take_append_drop 4 rest).symm⟩
  rw [hversion, ← List.append_assoc]
  rcases Nat.lt_trichotomy payload.length (ofLittleEndian size) with hlt | heq | hgt
  · exact .inr ⟨_, .missing hsize hlt⟩
  · exact .inl ⟨payload, size, hsize, heq.symm, rfl⟩
  · exact .inr ⟨_, .trailing hsize hgt⟩

theorem unpack_eq_error_iff : unpack b = .error fault ↔ FaultyHeader b fault := by
  refine ⟨fun h ↦ ?_, FaultyHeader.unpack_eq⟩
  obtain ⟨payload, hframed⟩ | ⟨fault', hfaulty⟩ := framed_or_faulty b
  · cases h.symm.trans hframed.unpack_eq
  · cases h.symm.trans hfaulty.unpack_eq
    exact hfaulty

theorem exists_framed_iff :
    (∃ payload, Framed payload b) ↔ ∀ fault, ¬FaultyHeader b fault := by
  constructor
  · rintro ⟨payload, hframed⟩ fault hfaulty
    cases hframed.unpack_eq.symm.trans hfaulty.unpack_eq
  · intro h
    exact (framed_or_faulty b).resolve_right fun ⟨fault, hfaulty⟩ ↦ h fault hfaulty

namespace Framed

/-- What is cut off behind its header lacks bytes of its payload. -/
theorem faulty_of_prefix (h : Framed payload b) {p : List UInt8} (hp : p <+: b) (hne : p ≠ b)
    (hlong : 14 ≤ p.length) : FaultyHeader p (.truncated b.length p.length) := by
  obtain ⟨size, hsize, hlength, rfl⟩ := h
  have hheader : header size <+: p :=
    List.prefix_of_prefix_length_le (List.prefix_append _ _) hp
      (by rw [length_header hsize]; exact hlong)
  obtain ⟨short, rfl⟩ := hheader
  obtain ⟨more, rfl⟩ := (List.prefix_append_right_inj _).mp hp
  have hmore : 0 < more.length := by
    refine List.length_pos_iff.mpr fun hnil ↦ hne ?_
    rw [hnil, List.append_nil]
  rw [List.length_append] at hlength
  have hmissing : short.length < ofLittleEndian size := by omega
  have hfault := FaultyHeader.missing hsize hmissing
  rw [hlength] at hfault
  simpa [length_header hsize, headerLength] using hfault

theorem faulty_append (h : Framed payload b) {more : List UInt8} (hmore : more ≠ []) :
    FaultyHeader (b ++ more) (.trailingBytes more.length) := by
  obtain ⟨size, hsize, hlength, rfl⟩ := h
  have hpos : 0 < more.length := List.length_pos_iff.mpr hmore
  have hlonger : ofLittleEndian size < (payload ++ more).length := by
    rw [hlength, List.length_append]
    omega
  have hfault := FaultyHeader.trailing hsize hlonger
  rw [hlength, List.length_append, Nat.add_sub_cancel_left] at hfault
  rwa [List.append_assoc]

/-- There is one header for a payload of one length. -/
theorem faulty_of_front (h : Framed payload b) {front : List UInt8} (hfront : front.length = 14)
    (hne : front ≠ b.take 14) : ∃ fault, FaultyHeader (front ++ b.drop 14) fault := by
  refine (framed_or_faulty _).resolve_left ?_
  rintro ⟨other, size', hsize', hlength', heq⟩
  obtain ⟨size, hsize, hlength, rfl⟩ := h
  have hdrop : (header size ++ payload).drop 14 = payload :=
    List.drop_left' (length_header hsize)
  have htake : (header size ++ payload).take 14 = header size :=
    List.take_left' (length_header hsize)
  rw [hdrop] at heq
  rw [htake] at hne
  obtain ⟨rfl, rfl⟩ := List.append_inj heq (by rw [hfront, length_header hsize']; rfl)
  exact hne (by rw [ofLittleEndian_inj (hsize.trans hsize'.symm) (hlength.trans hlength'.symm)])

end Framed

end Grammar.Artifact

namespace Language

open Grammar Artifact

theorem load_eq_header_iff {b : List UInt8} {fault : HeaderFault} :
    load b = .error (.header fault) ↔ FaultyHeader b fault := by
  rw [← unpack_eq_error_iff, load, loadWith]
  split
  · rename_i found hfound
    simp [hfound]
  · rename_i version payload hpayload
    rw [hpayload]
    simp only [reduceCtorEq, iff_false]
    split
    · simp
    · unfold ofDefinition
      split <;> simp

/-- The bytes that get past the header are the magic bytes, the version 1, the length of a payload
and the payload, which is then decoded. All others have a fault, the first of those there are. Where
an artifact is accepted, what is left of it when it is cut off lacks bytes, what is added to it
trails, and another header in front of its payload is faulty. -/
theorem header_of_load (b : List UInt8) :
    ((∃ payload, Framed payload b) ↔ ∀ fault, load b ≠ .error (.header fault)) ∧
      (∀ payload, Framed payload b → load b =
        match Definition.decode? payload with
        | none => .error .undecodable
        | some d => ofDefinition 1 d) ∧
      (∀ fault, load b = .error (.header fault) ↔ FaultyHeader b fault) ∧
      ∀ l, load b = .ok l →
        (∀ p, p <+: b → p ≠ b →
          (14 ≤ p.length → load p = .error (.header (.truncated b.length p.length))) ∧
          (p.length < 14 →
            load p = .error (.header (if p = [] then .empty else .truncated 14 p.length)))) ∧
        (∀ more, more ≠ [] → load (b ++ more) = .error (.header (.trailingBytes more.length))) ∧
        ∀ front, front.length = 14 → front ≠ b.take 14 →
          ∃ fault, load (front ++ b.drop 14) = .error (.header fault) := by
  simp only [ne_eq, load_eq_header_iff]
  refine ⟨exists_framed_iff, fun payload hframed ↦ ?_, fun _ ↦ trivial, fun l hl ↦ ?_⟩
  · rw [load, loadWith, hframed.unpack_eq]
    rfl
  have hfree : ∀ fault, ¬FaultyHeader b fault := fun fault hfaulty ↦ by
    cases hl.symm.trans (load_eq_header_iff.mpr hfaulty)
  obtain ⟨payload, hframed⟩ := exists_framed_iff.mpr hfree
  refine ⟨fun p hp hne ↦ ⟨hframed.faulty_of_prefix hp hne, fun hshort ↦ ?_⟩,
    fun more hmore ↦ hframed.faulty_append hmore, fun front hfront hne ↦
      hframed.faulty_of_front hfront hne⟩
  split
  · rename_i hnil
    exact hnil ▸ .empty
  · exact .short ‹_› hshort

/-- The smallest language there is: its artifact cut off in the payload and in the header, with a
byte behind it, and with a length that is one too large. -/
theorem header_of_load_smallest :
    let d : Definition := ⟨"g", [⟨"end", false, false⟩], [], [], [], [], [], []⟩
    let b := pack d.encode
    (∃ l, load b = .ok l) ∧ b.length = 132 ∧
      load (b.take 131) = .error (.header (.truncated 132 131)) ∧
      load (b.take 13) = .error (.header (.truncated 14 13)) ∧
      load (b ++ [0xc0]) = .error (.header (.trailingBytes 1)) ∧
      ∃ fault, load (header [119, 0, 0, 0] ++ b.drop 14) = .error (.header fault) := by
  intro d b
  have hvalid : d.Valid := by
    constructor
    all_goals decide
  have hload : ∃ l, load b = .ok l :=
    ⟨_, (load_pack (by decide +kernel)).trans (ofDefinition_of_valid _ hvalid)⟩
  have hlength : b.length = 132 := by decide +kernel
  obtain ⟨l, hl⟩ := hload
  obtain ⟨-, -, -, haccepted⟩ := header_of_load b
  obtain ⟨hfaulty, htrailing, hfront⟩ := haccepted l hl
  have hcut : ∀ n, n < 132 → (b.take n).length = n ∧ b.take n ≠ b := by
    intro n hn
    have htake : (b.take n).length = n := by
      rw [List.length_take, hlength]
      omega
    refine ⟨htake, fun heq ↦ ?_⟩
    rw [heq, hlength] at htake
    omega
  obtain ⟨hlong, hne⟩ := hcut 131 (by decide)
  obtain ⟨hshort, hne'⟩ := hcut 13 (by decide)
  refine ⟨⟨l, hl⟩, hlength, ?_, ?_, htrailing [0xc0] (by decide), hfront _ (by decide) ?_⟩
  · have hfault := (hfaulty _ (List.take_prefix 131 b) hne).1 (by rw [hlong]; decide)
    rwa [hlong, hlength] at hfault
  · have hfault := (hfaulty _ (List.take_prefix 13 b) hne').2 (by rw [hshort]; decide)
    rwa [hshort, if_neg (by decide +kernel)] at hfault
  · decide +kernel

end Language

end CoolTree
