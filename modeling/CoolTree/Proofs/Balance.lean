import CoolTree.Proofs.Sentence

/-!
# Sentences are balanced

What a bracket opens is closed by a bracket of the same shape, and what a control word opens by the
word that belongs to it. The closers that are still to come are kept as a stack. Whatever stands in
front of a sentence and behind it, the sentence leaves the stack as it was.
-/

namespace CoolTree

namespace Terminal

/-- What closes the construct that a terminal opens. -/
def closer? : Terminal → Option Terminal
  | leftParen => some rightParen
  | leftBrace => some rightBrace
  | ifWord => some fiWord
  | whileWord => some poolWord
  | letWord => some inWord
  | caseWord => some esacWord
  | _ => none

def isCloser : Terminal → Bool
  | rightParen | rightBrace | fiWord | poolWord | inWord | esacWord => true
  | _ => false

end Terminal

namespace Sentence

/-- The closers that are to come behind a token, the next one first. A token that closes something
else than the next closer has none behind it. -/
def close (stack : List Terminal) : TokenKind → Option (List Terminal)
  | .terminal t =>
    match t.closer? with
    | some closer => some (closer :: stack)
    | none =>
      if t.isCloser then if stack.head? = some t then some stack.tail else none else some stack
  | _ => some stack

def closeAll (stack : List Terminal) : List TokenKind → Option (List Terminal)
  | [] => some stack
  | k :: w => (close stack k).bind (closeAll · w)

/-- Words that close what they open, and nothing else. -/
def Balanced (w : List TokenKind) : Prop :=
  ∀ stack v, closeAll stack (w ++ v) = closeAll stack v

theorem closeAll_cons {stack next : List Terminal} {k : TokenKind} (h : close stack k = some next)
    (w : List TokenKind) : closeAll stack (k :: w) = closeAll next w := by
  rw [closeAll, h, Option.bind_some]

theorem closeAll_append (stack : List Terminal) (v w : List TokenKind) :
    closeAll stack (v ++ w) = (closeAll stack v).bind (closeAll · w) := by
  induction v generalizing stack with
  | nil => rfl
  | cons k v ih =>
      simp only [List.cons_append, closeAll]
      cases close stack k with
      | none => rfl
      | some next => simp [ih]

namespace Balanced

variable {v w : List TokenKind}

theorem nil : Balanced [] :=
  fun _ _ ↦ rfl

theorem append (hv : Balanced v) (hw : Balanced w) : Balanced (v ++ w) := by
  intro stack u
  rw [List.append_assoc, hv, hw]

/-- A token that opens and closes nothing. -/
theorem cons {k : TokenKind} (hk : ∀ stack, close stack k = some stack) (hw : Balanced w) :
    Balanced (k :: w) := by
  intro stack u
  rw [List.cons_append, closeAll_cons (hk stack), hw]

theorem enclose {t closer : Terminal} (h : t.closer? = some closer) (hw : Balanced w)
    (hv : Balanced v) : Balanced (.terminal t :: (w ++ .terminal closer :: v)) := by
  intro stack u
  have hopen : close stack (.terminal t) = some (closer :: stack) := by rw [close, h]
  have hclose : close (closer :: stack) (.terminal closer) = some stack := by
    cases t <;> cases h <;> simp [close, Terminal.closer?, Terminal.isCloser]
  rw [List.cons_append, closeAll_cons hopen, List.append_assoc, hw, List.cons_append,
    closeAll_cons hclose, hv]

theorem closeAll_eq (h : Balanced w) (stack : List Terminal) : closeAll stack w = some stack := by
  have heq := h stack []
  rwa [List.append_nil] at heq

theorem flatMap {α : Type} {parts : List α} {f : α → List TokenKind}
    (h : ∀ part ∈ parts, Balanced (f part)) : Balanced (parts.flatMap f) := by
  induction parts with
  | nil => exact nil
  | cons part parts ih =>
      obtain ⟨hpart, hparts⟩ := List.forall_mem_cons.mp h
      rw [List.flatMap_cons]
      exact hpart.append (ih hparts)

end Balanced

theorem close_of_neutral {t : Terminal} (h : t.closer? = none ∧ t.isCloser = false)
    (stack : List Terminal) : close stack (.terminal t) = some stack := by
  simp [close, h]

theorem close_of_isIdentifier {k : TokenKind} (h : k.isIdentifier = true) (stack : List Terminal) :
    close stack k = some stack := by
  cases k <;> first | rfl | cases h

theorem close_of_isTypeName {k : TokenKind} (h : k.isTypeName = true) (stack : List Terminal) :
    close stack k = some stack := by
  cases k <;> first | rfl | cases h

theorem balanced_separated {t : Terminal} {parts : List (List TokenKind)}
    (ht : t.closer? = none ∧ t.isCloser = false) (h : ∀ part ∈ parts, Balanced part) :
    Balanced (separated t parts) := by
  cases parts with
  | nil => exact .nil
  | cons part parts =>
      obtain ⟨hpart, hparts⟩ := List.forall_mem_cons.mp h
      exact hpart.append (.flatMap fun part hmem ↦ .cons (close_of_neutral ht) (hparts part hmem))

theorem balanced_terminated {t : Terminal} {parts : List (List TokenKind)}
    (ht : t.closer? = none ∧ t.isCloser = false) (h : ∀ part ∈ parts, Balanced part) :
    Balanced (terminated t parts) :=
  .flatMap fun part hmem ↦ (h part hmem).append (.cons (close_of_neutral ht) .nil)

theorem balanced_headed {t : Terminal} {part : Option (List TokenKind)}
    (ht : t.closer? = none ∧ t.isCloser = false) (h : ∀ e ∈ part, Balanced e) :
    Balanced (headed t part) := by
  cases part with
  | none => exact .nil
  | some e => exact .cons (close_of_neutral ht) (h e rfl)

theorem Declaration.Proper.balanced {d : Declaration} (h : d.Proper) : Balanced d.word :=
  .cons (close_of_isIdentifier h.1) <| .cons (close_of_neutral ⟨rfl, rfl⟩) <|
    .cons (close_of_isTypeName h.2) .nil

theorem balanced_variable {v : Variable} (h : v.Proper) (hvalue : ∀ e ∈ v.value, Balanced e) :
    Balanced v.word :=
  h.balanced.append (balanced_headed ⟨rfl, rfl⟩ hvalue)

theorem balanced_arm {a : Arm} (h : a.Proper) (hvalue : Balanced a.value) : Balanced a.word :=
  h.balanced.append (.cons (close_of_neutral ⟨rfl, rfl⟩) hvalue)

theorem balanced_call {k : TokenKind} {as : List (List TokenKind)} (hk : k.isIdentifier = true)
    (h : ∀ a ∈ as, Balanced a) : Balanced (call k as) :=
  .cons (close_of_isIdentifier hk) <|
    .enclose (t := .leftParen) rfl (balanced_separated ⟨rfl, rfl⟩ h) .nil

theorem Expression.balanced {e : List TokenKind} (h : Expression e) : Balanced e := by
  have neutral : ∀ {t : Terminal} {w : List TokenKind}, t.closer? = none ∧ t.isCloser = false →
      Balanced w → Balanced (.terminal t :: w) := fun ht hw ↦ .cons (close_of_neutral ht) hw
  induction h with
  | name hk => exact .cons (close_of_isIdentifier hk) .nil
  | self | integer | string => exact .cons (fun _ ↦ rfl) .nil
  | trueWord | falseWord => exact neutral ⟨rfl, rfl⟩ .nil
  | assignment hk _ ih => exact .cons (close_of_isIdentifier hk) (neutral ⟨rfl, rfl⟩ ih)
  | call hk _ ih => exact balanced_call hk ih
  | dispatch _ hk _ ihx ih => exact ihx.append (neutral ⟨rfl, rfl⟩ (balanced_call hk ih))
  | staticDispatch _ ht hk _ ihx ih =>
      exact ihx.append (neutral ⟨rfl, rfl⟩ (.cons (close_of_isTypeName ht)
        (neutral ⟨rfl, rfl⟩ (balanced_call hk ih))))
  | binary o _ _ ihx ihy =>
      exact ihx.append (neutral (by cases o <;> exact ⟨rfl, rfl⟩) ihy)
  | comp _ ih | isvoid _ ih | not _ ih => exact neutral ⟨rfl, rfl⟩ ih
  | new ht => exact neutral ⟨rfl, rfl⟩ (.cons (close_of_isTypeName ht) .nil)
  | parenthesized _ ih => exact .enclose (t := .leftParen) rfl ih .nil
  | emptyBlock =>
      exact .enclose (t := .leftBrace) (w := [_]) rfl (neutral ⟨rfl, rfl⟩ .nil) .nil
  | block _ _ ih ihes =>
      exact .enclose (t := .leftBrace) rfl
        (balanced_terminated ⟨rfl, rfl⟩ (List.forall_mem_cons.mpr ⟨ih, ihes⟩)) .nil
  | conditional _ _ _ ihc iht ihf =>
      have hinside := ihc.append (neutral (t := .thenWord) ⟨rfl, rfl⟩
        (iht.append (balanced_headed (t := .elseWord) ⟨rfl, rfl⟩ ihf)))
      simpa using Balanced.enclose (t := .ifWord) rfl hinside .nil
  | loop _ _ ihc ihb =>
      have hinside := ihc.append (neutral (t := .loopWord) ⟨rfl, rfl⟩ ihb)
      simpa using Balanced.enclose (t := .whileWord) rfl hinside .nil
  | letIn hvs _ _ ihvalues ihb =>
      refine .enclose (t := .letWord) rfl (balanced_separated ⟨rfl, rfl⟩ ?_) ihb
      exact List.forall_mem_map.mpr fun v hv ↦ balanced_variable (hvs v hv) (ihvalues v hv)
  | @caseOf x as closed _ has _ ihx ihvalues =>
      have harms : Balanced (separated .semicolon (as.map Arm.word)) :=
        balanced_separated ⟨rfl, rfl⟩
          (List.forall_mem_map.mpr fun a ha ↦ balanced_arm (has a ha) (ihvalues a ha))
      have hlast : Balanced (if closed then [.terminal .semicolon] else []) := by
        cases closed
        · exact .nil
        · exact neutral ⟨rfl, rfl⟩ .nil
      have hinside := ihx.append (neutral (t := .ofWord) ⟨rfl, rfl⟩ (harms.append hlast))
      simpa using Balanced.enclose (t := .caseWord) rfl hinside .nil

theorem Feature.balanced {f : List TokenKind} (h : Feature f) : Balanced f := by
  cases h with
  | method hk hps ht he =>
      have hparameters : Balanced (separated .comma _) := balanced_separated ⟨rfl, rfl⟩
        (List.forall_mem_map.mpr fun p hp ↦ (hps p hp).balanced)
      exact .cons (close_of_isIdentifier hk) <|
        .enclose (t := .leftParen) rfl hparameters <|
        .cons (close_of_neutral ⟨rfl, rfl⟩) <| .cons (close_of_isTypeName ht) <|
        .enclose (t := .leftBrace) rfl he.balanced .nil
  | field hv hvalue => exact balanced_variable hv fun e he ↦ (hvalue e he).balanced

theorem Class.balanced {c : List TokenKind} (h : Class c) : Balanced c := by
  cases h with
  | @mk t u fs ht hu hfs =>
      have hheritage : Balanced (headed .inheritsWord (u.map ([·]))) := by
        refine balanced_headed ⟨rfl, rfl⟩ fun e he ↦ ?_
        obtain ⟨u, hmem, rfl⟩ := Option.map_eq_some_iff.mp he
        exact .cons (close_of_isTypeName (hu u hmem)) .nil
      have hfeatures : Balanced (terminated .semicolon fs) :=
        balanced_terminated ⟨rfl, rfl⟩ fun f hf ↦ (hfs f hf).balanced
      exact .cons (close_of_neutral ⟨rfl, rfl⟩) <| .cons (close_of_isTypeName ht) <|
        hheritage.append <| .enclose (t := .leftBrace) rfl hfeatures <|
        .cons (close_of_neutral ⟨rfl, rfl⟩) .nil

/-- A program closes what it opens. -/
theorem Program.balanced {w : List TokenKind} (h : Program w) : Balanced w := by
  obtain ⟨cs, hcs, rfl⟩ := h
  rw [← List.flatMap_id]
  exact .flatMap fun c hc ↦ (hcs c hc).balanced

end Sentence

end CoolTree
