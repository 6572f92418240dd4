import CoolTree.Proofs.Built
import CoolTree.Proofs.Sentence

/-!
# Sentences have no loose ends

A string in a sentence is terminated. So it is in a source that is parsed without a problem, since
an unterminated string is reported wherever it is taken.
-/

namespace CoolTree

/-- Whether a token has its end. -/
def TokenKind.isClosed : TokenKind → Bool
  | .string _ closed => closed
  | _ => true

namespace TokenKind

variable {k : TokenKind}

theorem isClosed_iff : k.isClosed = true ↔ ∀ parts, k ≠ .string parts false := by
  cases k <;> simp [isClosed]

theorem isClosed_of_isIdentifier (h : k.isIdentifier = true) : k.isClosed = true := by
  cases k <;> first | rfl | cases h

theorem isClosed_of_isTypeName (h : k.isTypeName = true) : k.isClosed = true := by
  cases k <;> first | rfl | cases h

end TokenKind

namespace Sentence

def Closed (w : List TokenKind) : Prop :=
  ∀ k ∈ w, k.isClosed = true

namespace Closed

variable {t : Terminal} {v w : List TokenKind} {k : TokenKind}

@[simp] theorem nil : Closed [] := by
  simp [Closed]

@[simp] theorem cons_iff : Closed (k :: w) ↔ k.isClosed = true ∧ Closed w :=
  List.forall_mem_cons

@[simp] theorem append_iff : Closed (v ++ w) ↔ Closed v ∧ Closed w :=
  List.forall_mem_append

@[simp] theorem flatten_iff {ws : List (List TokenKind)} :
    Closed ws.flatten ↔ ∀ w ∈ ws, Closed w := by
  induction ws with
  | nil => simp
  | cons w ws ih => simp [ih]

@[simp] theorem terminal : (TokenKind.terminal t).isClosed = true := rfl

theorem separated {parts : List (List TokenKind)} (h : ∀ part ∈ parts, Closed part) :
    Closed (separated t parts) := by
  cases parts with
  | nil => exact nil
  | cons part rest =>
      simp only [List.forall_mem_cons] at h
      simpa [Sentence.separated, List.flatMap] using h

theorem terminated {parts : List (List TokenKind)} (h : ∀ part ∈ parts, Closed part) :
    Closed (terminated t parts) := by
  simpa [Sentence.terminated, List.flatMap] using h

theorem headed {part : Option (List TokenKind)} (h : ∀ w ∈ part, Closed w) :
    Closed (headed t part) := by
  cases part with
  | none => exact nil
  | some w => simpa [Sentence.headed] using h

theorem declaration {d : Declaration} (h : d.Proper) : Closed d.word := by
  simp [Declaration.word, TokenKind.isClosed_of_isIdentifier h.1,
    TokenKind.isClosed_of_isTypeName h.2]

theorem variable_word {v : Variable} (h : v.Proper) (hvalue : ∀ e ∈ v.value, Closed e) :
    Closed v.word :=
  append_iff.mpr ⟨declaration h, headed hvalue⟩

theorem arm {a : Arm} (h : a.Proper) (hvalue : Closed a.value) : Closed a.word :=
  append_iff.mpr ⟨declaration h, cons_iff.mpr ⟨terminal, hvalue⟩⟩

theorem call (hk : k.isIdentifier = true) {as : List (List TokenKind)} (h : ∀ a ∈ as, Closed a) :
    Closed (call k as) := by
  simp [Sentence.call, TokenKind.isClosed_of_isIdentifier hk, separated h]

theorem of_expression {e : List TokenKind} (h : Expression e) : Closed e := by
  induction h with
  | name hk => simp [TokenKind.isClosed_of_isIdentifier hk]
  | new ht => simp [TokenKind.isClosed_of_isTypeName ht]
  | self | integer | string | trueWord | falseWord | emptyBlock => simp [TokenKind.isClosed]
  | assignment hk _ ih => simp [TokenKind.isClosed_of_isIdentifier hk, ih]
  | call hk _ ih => exact call hk ih
  | dispatch _ hk _ ihx ih => simp [call hk ih, ihx]
  | staticDispatch _ ht hk _ ihx ih => simp [call hk ih, ihx, TokenKind.isClosed_of_isTypeName ht]
  | binary _ _ _ ihx ihy => simp [ihx, ihy]
  | comp _ ih | isvoid _ ih | not _ ih | parenthesized _ ih => simp [ih]
  | block _ _ ih ihs => simp [terminated (List.forall_mem_cons.mpr ⟨ih, ihs⟩)]
  | conditional _ _ _ ihc iht ihf => simp [ihc, iht, headed ihf]
  | loop _ _ ihc ihb => simp [ihc, ihb]
  | letIn hvs _ _ ihvalues ihb =>
      have hvariables : ∀ w ∈ List.map Variable.word _, Closed w :=
        List.forall_mem_map.mpr fun v hv ↦ variable_word (hvs v hv) (ihvalues v hv)
      simp [ihb, separated hvariables]
  | caseOf closed _ has _ ihx ihvalues =>
      have harms : ∀ w ∈ List.map Arm.word _, Closed w :=
        List.forall_mem_map.mpr fun a ha ↦ arm (has a ha) (ihvalues a ha)
      cases closed <;> simp [ihx, separated harms]

theorem of_feature {f : List TokenKind} (h : Feature f) : Closed f := by
  cases h with
  | method hk hps ht he =>
      have hparameters : ∀ w ∈ List.map Declaration.word _, Closed w :=
        List.forall_mem_map.mpr fun p hp ↦ declaration (hps p hp)
      simp [TokenKind.isClosed_of_isIdentifier hk, separated hparameters,
        TokenKind.isClosed_of_isTypeName ht, of_expression he]
  | field hv hvalue => exact variable_word hv fun e he ↦ of_expression (hvalue e he)

theorem of_class {c : List TokenKind} (h : Class c) : Closed c := by
  cases h with
  | @mk t heritage fs ht hh hfs =>
      have hheritage : ∀ w ∈ heritage.map ([·]), Closed w := by
        intro w hw
        obtain ⟨u, hu, rfl⟩ := Option.map_eq_some_iff.mp hw
        simp [TokenKind.isClosed_of_isTypeName (hh u hu)]
      simp [TokenKind.isClosed_of_isTypeName ht, headed hheritage,
        terminated fun f hf ↦ of_feature (hfs f hf)]

/-- Programs have no unterminated string. -/
theorem of_program (h : Program w) : Closed w := by
  obtain ⟨cs, hcs, rfl⟩ := h
  exact flatten_iff.mpr fun c hc ↦ of_class (hcs c hc)

end Closed

end Sentence

theorem Kind.Fits.isClosed {kind : Kind} {k : TokenKind} (h : kind.Fits k) : k.isClosed = true :=
  TokenKind.isClosed_iff.mpr fun parts ↦ h.ne_string parts false

/-- What is parsed without a problem has no unterminated string. -/
theorem Built.closed_of_clean {s : State} {d : Draft} (h : Built s d) :
    ∃ taken, s.input.items = taken ++ d.state.input.items ∧
      (d.state.errors = [] → ∀ item ∈ taken, item.token.kind.isClosed = true) := by
  induction h with
  | blank s => exact ⟨[], rfl, by simp⟩
  | @leaf s d _ item rest hitems field kind hfits ih =>
      obtain ⟨taken, htaken, hclosed⟩ := ih
      rw [Draft.state_leaf d hitems]
      refine ⟨taken ++ [item], by simp [htaken, hitems], fun hclean ↦ ?_⟩
      exact List.forall_mem_append.mpr ⟨hclosed hclean, by simpa using hfits.isClosed⟩
  | @literal s d _ item rest hitems parts closed hkind ih =>
      obtain ⟨taken, htaken, hclosed⟩ := ih
      obtain ⟨-, hinput, -, herrors⟩ := d.stringLiteral_eq item parts closed
      refine ⟨taken ++ [item], by simp [htaken, hinput, hitems], fun hclean ↦ ?_⟩
      obtain ⟨hnew, hbefore⟩ := List.append_eq_nil_iff.mp (herrors.symm.trans hclean)
      refine List.forall_mem_append.mpr ⟨hclosed hbefore, ?_⟩
      cases closed with
      | true => simp [hkind, TokenKind.isClosed]
      | false => simp at hnew
  | missing _ field _ problem ih =>
      obtain ⟨taken, htaken, -⟩ := ih
      exact ⟨taken, htaken, fun hclean ↦ by cases hclean⟩
  | enclose _ _ ih => exact ih
  | attach _ field hpart ih ihpart =>
      obtain ⟨taken, htaken, hclosed⟩ := ih
      obtain ⟨taken', htaken', hclosed'⟩ := ihpart
      obtain ⟨-, -, -, new, herrors, -⟩ := hpart.advances
      refine ⟨taken ++ taken', by simp [htaken, htaken'], fun hclean ↦ ?_⟩
      have hbefore := (List.append_eq_nil_iff.mp (herrors.symm.trans hclean)).2
      exact List.forall_mem_append.mpr ⟨hclosed hbefore, hclosed' hclean⟩
  | swallow hw hbound problem =>
      obtain ⟨taken, htaken, -⟩ := hw.advances hbound problem
      exact ⟨taken, htaken, fun hclean ↦ by cases hclean⟩

end CoolTree
