import CoolTree.Proofs.Tight

/-!
# What tests tell of the next tokens

Where a test is passed, something is known of the next tokens until one is taken: whether there is
one, which it can be, and which it cannot be. From this it follows which phrases take a token.
`Phrase.eats` checks it, and `Phrase.steady` checks it of the rounds of every loop, so that no loop
of a steady phrase ever goes round without a token.
-/

namespace CoolTree

namespace Test

/-- The tests that a test is put together from. -/
def units : Test → List Test
  | both a b => a.units ++ b.units
  | t => [t]

/-- What holds where a test fails. -/
def failing : Test → List Test
  | within c => [outside c]
  | outside c => [within c]
  | ahead _ | both _ _ => []

/-- What a test says of the token that is next when one is taken. -/
def behind? : Test → Option Test
  | ahead c => some (within c)
  | within _ | outside _ | both _ _ => none

end Test

/-- Whether a class is another one or one of those that the other is put together from. -/
def TokenClass.isPart (c : TokenClass) : TokenClass → Bool
  | either a b => c == either a b || c.isPart a || c.isPart b
  | d => c == d

/-- Whether the next token is known not to belong to a class. -/
def TokenClass.excluded (known : List Test) : TokenClass → Bool
  | either a b => a.excluded known && b.excluded known
  | c => known.any fun
    | .outside d => c.isPart d
    | _ => false

theorem TokenClass.has_of_isPart {c d : TokenClass} {k : TokenKind} (h : c.isPart d = true)
    (hc : c.has k = true) : d.has k = true := by
  induction d with
  | either a b iha ihb =>
      simp only [isPart, Bool.or_eq_true, beq_iff_eq] at h
      rcases h with (rfl | h) | h
      · exact hc
      · rw [has, iha h, Bool.true_or]
      · rw [has, ihb h, Bool.or_true]
  | _ =>
      simp only [isPart, beq_iff_eq] at h
      exact h ▸ hc

namespace Input

/-- The tests of a list hold. -/
def Knows (known : List Test) (i : Input) : Prop :=
  ∀ test ∈ known, test.holds i = true

variable {i : Input} {known more : List Test}

theorem knows_nil (i : Input) : i.Knows [] :=
  fun _ h ↦ nomatch h

theorem Knows.append (h : i.Knows known) (h' : i.Knows more) : i.Knows (known ++ more) :=
  List.forall_mem_append.mpr ⟨h, h'⟩

theorem knows_units {test : Test} (h : test.holds i = true) : i.Knows test.units := by
  induction test with
  | both a b iha ihb =>
      simp only [Test.holds, Bool.and_eq_true] at h
      exact (iha h.1).append (ihb h.2)
  | _ => exact List.forall_mem_singleton.mpr h

theorem knows_failing {test : Test} (h : ¬test.holds i = true) : i.Knows test.failing := by
  cases test with
  | within c => exact List.forall_mem_singleton.mpr (by simpa [Test.holds] using h)
  | outside c => exact List.forall_mem_singleton.mpr (by simpa [Test.holds] using h)
  | ahead c => exact knows_nil i
  | both a b => exact knows_nil i

/-- What was known of the token behind the next one is known of the next one when that is taken. -/
theorem Knows.tail (h : i.Knows known) : i.tail.Knows (known.filterMap Test.behind?) := by
  intro test htest
  obtain ⟨old, hold, hbehind⟩ := List.mem_filterMap.mp htest
  cases old with
  | ahead c =>
      obtain rfl := Option.some.inj hbehind
      have hahead := h _ hold
      have hcurrent : i.tail.current = i.upcoming := by
        simp only [current, upcoming, items_tail]
        rcases i.items with - | ⟨item, - | ⟨next, rest⟩⟩ <;> rfl
      rwa [Test.holds, hcurrent]
  | _ => cases hbehind

/-- Whether it is known that there is a next token. -/
def knowsToken (known : List Test) : Bool :=
  known.any fun test ↦ 1 ≤ test.sure

theorem Knows.exists_cons (h : i.Knows known) (htoken : knowsToken known = true) :
    ∃ item rest, i.items = item :: rest := by
  obtain ⟨test, htest, hsure⟩ := List.any_eq_true.mp htoken
  have hlength := Test.sure_le (h test htest)
  exact List.exists_cons_of_length_pos ((of_decide_eq_true hsure).trans hlength)

theorem Knows.not_has (h : i.Knows known) {c : TokenClass} (hc : c.excluded known = true) :
    c.has i.current = false := by
  induction c with
  | either a b iha ihb =>
      simp only [TokenClass.excluded, Bool.and_eq_true] at hc
      rw [TokenClass.has, iha hc.1, ihb hc.2, Bool.false_or]
  | _ =>
      obtain ⟨test, htest, hpart⟩ := List.any_eq_true.mp hc
      split at hpart
      · have houtside := h _ htest
        rw [Test.holds, Bool.not_eq_true'] at houtside
        refine Bool.eq_false_iff.mpr fun hhas ↦ ?_
        rw [TokenClass.has_of_isPart hpart hhas] at houtside
        cases houtside
      · cases hpart

theorem knows_only {t : Terminal} (h : i.current = .terminal t) : i.Knows [.within (.only t)] :=
  List.forall_mem_singleton.mpr (by simp [Test.holds, TokenClass.has, h])

end Input

open Draft

/-- Moving forward takes a token or stays in front of the same ones. -/
theorem State.Advances.size_lt_or_eq {s t : State} (h : s.Advances t) :
    t.input.size < s.input.size ∨ t.input = s.input := by
  obtain ⟨taken, hitems, -⟩ := h
  have hs := s.input.size_eq
  have ht := t.input.size_eq
  cases taken with
  | nil =>
      right
      rcases hi : s.input with ⟨items, size, hsize⟩
      rcases hj : t.input with ⟨items', size', hsize'⟩
      simp only [hi, hj, List.nil_append] at hitems
      subst hitems
      simp only [hsize, hsize']
  | cons item taken =>
      left
      rw [hs, ht, hitems, List.length_append, List.length_cons]
      omega

namespace Phrase

/-- Whether a phrase surely takes a token, given what is known of the next ones. Parts that may have
taken none leave what is known as it was. -/
def eats (known : List Test) : Phrase → Bool
  | done => false
  | take _ next => Input.knowsToken known || next.eats known
  | word _ slot next =>
    slot.takesNames && known.contains (.within .identifier) || next.eats known
  | operand _ _ next => known.contains (.within .expressionStart) || next.eats known
  | node _ _ body next => body.eats known || next.eats known
  | choose test yes no next =>
    yes.eats (test.units ++ known) && no.eats (test.failing ++ known) || next.eats known
  | skip stop next => Input.knowsToken known && stop.excluded known || next.eats known
  | expect _ next | literal next | loop _ _ next | absent next => next.eats known

/-- Whether every round of every loop in a phrase takes a token. -/
def steady : Phrase → Bool
  | done => true
  | choose _ yes no next => yes.steady && no.steady && next.steady
  | node _ _ body next => body.steady && next.steady
  | loop test body next => body.eats test.units && body.steady && next.steady
  | expect _ next | take _ next | word _ _ next | literal next | operand _ _ next | skip _ next
  | absent next => next.steady

theorem steady_file : file.steady = true := by
  decide

/-- The constructs that an expression can start with, each with what is known of the next tokens,
its kind and its phrase. -/
def constructs : List (List Test × Kind × Phrase) :=
  [([.within .identifier, .ahead (.only .assign)], .assignmentExpression, assignment),
    ([.within .identifier, .ahead (.only .leftParen)], .dispatchExpression, call),
    ([.within (.only .trueWord)], .booleanLiteral, .take none .done),
    ([.within (.only .falseWord)], .booleanLiteral, .take none .done),
    ([.within (.only .ifWord)], .ifExpression, conditional),
    ([.within (.only .whileWord)], .whileExpression, whileLoop),
    ([.within (.only .leftBrace)], .block, block),
    ([.within (.only .letWord)], .letExpression, letIn),
    ([.within (.only .caseWord)], .caseExpression, caseOf),
    ([.within (.only .newWord)], .newExpression, newObject),
    ([.within (.only .isvoidWord)], .isvoidExpression, unary .isvoid),
    ([.within (.only .notWord)], .notExpression, unary .negation),
    ([.within (.only .tilde)], .unaryExpression, unary .comp),
    ([.within (.only .leftParen)], .parenthesizedExpression, parenthesized)]

/-- The phrases that an expression can start with. -/
inductive Opens (i : Input) : Phrase → Prop
  | construct {known : List Test} {kind : Kind} {body : Phrase} (knows : i.Knows known)
      (mem : (known, kind, body) ∈ constructs) : Opens i (.node none kind body .done)
  | name (h : i.current.isIdentifier = true) : Opens i (.word none .identifier .done)
  | plain (h : i.current = .selfWord ∨ i.current = .integer) : Opens i (.take none .done)
  | literal {parts : List BodyPart} {closed : Bool} (h : i.current = .string parts closed) :
      Opens i (.literal .done)
  | absent (h : i.current.startsExpression = false) : Opens i (.absent .done)
  | skip (h : i.current.startsExpression = false) (h' : i.current.isSynchronizing = false) :
      Opens i (.skip (.either .synchronizing .expressionStart) .done)

theorem opens_of_isIdentifier {i : Input} (h : i.current.isIdentifier = true) :
    Opens i (opening i.current i.upcoming) := by
  have hname : i.Knows [.within .identifier] := List.forall_mem_singleton.mpr h
  have hahead : ∀ t, i.upcoming = .terminal t → i.Knows [.ahead (.only t)] := fun t ht ↦
    List.forall_mem_singleton.mpr (by simp [Test.holds, TokenClass.has, ht])
  have hopening : opening i.current i.upcoming = if i.upcoming = .terminal .assign then
      .node none .assignmentExpression assignment .done
      else if i.upcoming = .terminal .leftParen then .node none .dispatchExpression call .done
      else .word none .identifier .done := by
    cases hkind : i.current <;> rw [hkind] at h <;> first | rfl | cases h
  rw [hopening]
  split
  · exact .construct (hname.append (hahead _ ‹_›)) (by decide)
  · split
    · exact .construct (hname.append (hahead _ ‹_›)) (by decide)
    · exact .name h

theorem opens_opening (i : Input) : Opens i (opening i.current i.upcoming) := by
  cases hcurrent : i.current with
  | identifier | typeIdentifier =>
      rw [← hcurrent]
      exact opens_of_isIdentifier (by rw [hcurrent]; rfl)
  | selfWord => exact .plain (.inl hcurrent)
  | integer => exact .plain (.inr hcurrent)
  | string parts closed => exact .literal hcurrent
  | terminal t =>
      have hknows := Input.knows_only hcurrent
      cases t
      case trueWord | falseWord | ifWord | whileWord | leftBrace | letWord | caseWord | newWord |
        isvoidWord | notWord | tilde | leftParen => exact .construct hknows (by decide)
      all_goals first
        | exact .absent (by rw [hcurrent]; rfl)
        | exact .skip (by rw [hcurrent]; rfl) (by rw [hcurrent]; rfl)
  | ending => exact .absent (by rw [hcurrent]; rfl)
  | primitiveType | lineComment | blockComment _ | unknown _ =>
      exact .skip (by rw [hcurrent]; rfl) (by rw [hcurrent]; rfl)

theorem Opens.steady {i : Input} {p : Phrase} (h : Opens i p) : p.steady = true := by
  cases h with
  | construct _ mem =>
      have hall : ∀ entry ∈ constructs, entry.2.2.steady = true := by decide
      rw [Phrase.steady, hall _ mem]
      rfl
  | _ => rfl

end Phrase

theorem Continuation.steady_of_of? {v : Levels} {least : Int} {k : TokenKind} {next : Continuation}
    (h : of? v least k = some next) : next.phrase.steady = true := by
  obtain ⟨-, rfl⟩ | ⟨o, -, rfl⟩ := of?_cases h <;> rfl

namespace Draft

/-- A name is taken as a word. -/
theorem word_of_takesNames {d : Draft} {slot : Slot} (hslot : slot.takesNames = true)
    (h : d.current.isIdentifier = true) (field : Option Field) :
    ∃ item rest kind, d.state.input.items = item :: rest ∧
      d.word field slot = d.leaf field kind false := by
  obtain ⟨kind, hkind⟩ := Option.isSome_iff_exists.mp (Slot.accepts?_of_takesNames hslot h)
  have hne : d.current ≠ .ending := by
    intro hending
    rw [hending] at h
    cases h
  obtain ⟨item, rest, hitems, -⟩ := items_of_current rfl hne
  exact ⟨item, rest, kind, hitems, by rw [word, hkind]⟩

/-- What is known of the token behind the next one is known of the next one once that is taken. -/
theorem knows_leaf {d : Draft} {item : Item} {rest : List Item}
    (h : d.state.input.items = item :: rest) {known : List Test}
    (hknown : d.state.input.Knows known) (field : Option Field) (kind : Kind) (faulty : Bool) :
    (d.leaf field kind faulty).state.input.Knows (known.filterMap Test.behind?) := by
  rw [state_leaf d h]
  exact hknown.tail

theorem one_le_overrun {s : State} (h : s.input.current.startsExpression = true) :
    1 ≤ overrun 0 s.input.items := by
  have hne : s.input.current ≠ .ending := by
    intro hending
    rw [hending] at h
    cases h
  obtain ⟨item, rest, hitems, hkind⟩ :
      ∃ item rest, s.input.items = item :: rest ∧ item.token.kind = s.input.current :=
    items_of_current (d := blank s) rfl hne
  have hsync := TokenKind.not_isSynchronizing_of_startsExpression h
  rw [← hkind] at hsync
  rw [hitems, overrun_cons, hsync]
  split
  · exact Nat.le_add_left 1 _
  · exact Nat.le_add_left 1 _

theorem literal_of_string {d : Draft} {parts : List BodyPart} {closed : Bool}
    (h : d.current = .string parts closed) :
    ∃ item rest, d.state.input.items = item :: rest ∧ item.token.kind = .string parts closed ∧
      d.literal = d.stringLiteral item parts closed := by
  obtain ⟨item, rest, hitems, hkind⟩ := items_of_current h (by rintro ⟨⟩)
  refine ⟨item, rest, hitems, hkind, ?_⟩
  rw [literal, hitems]
  dsimp only
  rw [hkind]

theorem size_literal_lt {d : Draft} {parts : List BodyPart} {closed : Bool}
    (h : d.current = .string parts closed) :
    d.literal.state.input.size < d.state.input.size := by
  obtain ⟨item, rest, hitems, -, heq⟩ := literal_of_string h
  obtain ⟨-, hinput, -⟩ := stringLiteral_eq d item parts closed
  rw [heq, hinput]
  exact Input.size_tail_lt hitems

end Draft

section Eating

variable {v : Levels} {x : Int → State → Draft}
  (hadvances : ∀ least s, State.Advances s (x least s).state)
  (hstarts : ∀ least s, s.input.current.startsExpression = true →
    (x least s).state.input.size < s.input.size)

include hadvances

/-- A token is taken in front of a phrase or, if none was, by the phrase. -/
theorem Phrase.size_lt_of_part (next : Phrase) {d e : Draft} (hpart : d.state.Advances e.state)
    (h : e.state.input.size < d.state.input.size ∨ (e.state.input = d.state.input →
      (next.run v x e).state.input.size < e.state.input.size)) :
    (next.run v x e).state.input.size < d.state.input.size := by
  have hrun : e.state.Advances (next.run v x e).state := next.advances_run hadvances e
  have hnext := hrun.size_le
  rcases h with hlt | hnext'
  · exact hnext.trans_lt hlt
  · rcases hpart.size_lt_or_eq with hlt | heq
    · exact hnext.trans_lt hlt
    · exact (hnext' heq).trans_eq (congrArg Input.size heq)

include hstarts

/-- A phrase that eats takes a token, if expressions do where one starts. -/
theorem Phrase.size_run_lt (p : Phrase) {known : List Test} {d : Draft}
    (hknown : d.state.input.Knows known)
    (h : p.eats known = true) : (p.run v x d).state.input.size < d.state.input.size := by
  induction p generalizing known d with
  | done => cases h
  | expect t next ih =>
      exact size_lt_of_part hadvances next (advances_expect d t)
        (.inr fun heq ↦ ih (heq ▸ hknown) h)
  | take field next ih =>
      rw [eats, Bool.or_eq_true] at h
      refine size_lt_of_part hadvances next (advances_leaf d field _ false) (h.imp ?_ ?_)
      · intro htoken
        obtain ⟨item, rest, hitems⟩ := hknown.exists_cons htoken
        exact size_leaf_lt d hitems field _ false
      · exact fun h heq ↦ ih (heq ▸ hknown) h
  | word field slot next ih =>
      rw [eats, Bool.or_eq_true, Bool.and_eq_true, List.contains_iff_mem] at h
      refine size_lt_of_part hadvances next (advances_word d field slot) (h.imp ?_ ?_)
      · rintro ⟨hslot, hname⟩
        obtain ⟨item, rest, kind, hitems, heq⟩ :=
          word_of_takesNames hslot (hknown _ hname) (d := d) field
        exact heq ▸ size_leaf_lt d hitems field kind false
      · exact fun h heq ↦ ih (heq ▸ hknown) h
  | literal next ih =>
      exact size_lt_of_part hadvances next (advances_literal d)
        (.inr fun heq ↦ ih (heq ▸ hknown) h)
  | operand field bound next ih =>
      rw [eats, Bool.or_eq_true, List.contains_iff_mem] at h
      refine size_lt_of_part hadvances next
        (e := d.attach field (x (v.bound bound) d.state)) (hadvances _ _) (h.imp ?_ ?_)
      · exact fun hstart ↦ hstarts _ _ (hknown _ hstart)
      · exact fun h heq ↦ ih (heq ▸ hknown) h
  | node field kind body next ihbody ihnext =>
      rw [eats, Bool.or_eq_true] at h
      let inner := body.run v x (blank d.state)
      have hbody : d.state.Advances inner.state := advances_run hadvances body (blank d.state)
      have hinner := hbody.trans (advances_enclose inner kind false)
      refine size_lt_of_part hadvances next (e := d.attach field (inner.enclose kind false)) hinner
        (h.imp ?_ ?_)
      · exact fun hbody ↦ ihbody (d := blank d.state) hknown hbody
      · exact fun h heq ↦ ihnext (heq ▸ hknown) h
  | choose test yes no next ihyes ihno ihnext =>
      rw [eats, Bool.or_eq_true, Bool.and_eq_true] at h
      rw [run]
      split
      · rename_i htest
        refine size_lt_of_part hadvances next (advances_run hadvances yes d) (h.imp ?_ ?_)
        · exact fun hboth ↦ ihyes ((Input.knows_units htest).append hknown) hboth.1
        · exact fun h heq ↦ ihnext (heq ▸ hknown) h
      · rename_i htest
        refine size_lt_of_part hadvances next (advances_run hadvances no d) (h.imp ?_ ?_)
        · exact fun hboth ↦ ihno ((Input.knows_failing htest).append hknown) hboth.2
        · exact fun h heq ↦ ihnext (heq ▸ hknown) h
  | loop test body next _ ih =>
      exact size_lt_of_part hadvances next
        (advances_repeatWhile d test (advances_run hadvances body))
        (.inr fun heq ↦ ih (heq ▸ hknown) h)
  | skip stop next ih =>
      rw [eats, Bool.or_eq_true, Bool.and_eq_true] at h
      refine size_lt_of_part hadvances next (advances_skip d stop) (h.imp ?_ ?_)
      · rintro ⟨htoken, hexcluded⟩
        obtain ⟨item, rest, hitems⟩ := hknown.exists_cons htoken
        exact size_skip_lt d hitems (hknown.not_has hexcluded)
      · exact fun h heq ↦ ih (heq ▸ hknown) h
  | absent next ih =>
      exact size_lt_of_part hadvances next (advances_missing d _ _ _)
        (.inr fun heq ↦ ih (heq ▸ hknown) h)

/-- Every round of a loop in a steady phrase takes a token. -/
theorem Phrase.size_round_lt {test : Test} {body : Phrase} (h : body.eats test.units = true)
    {d : Draft} (htest : test.holds d.state.input = true) :
    (body.run v x d).state.input.size < d.state.input.size :=
  size_run_lt hadvances hstarts body (Input.knows_units htest) h

/-- The first construct of an expression takes the token it starts with. -/
theorem Draft.size_opens_lt {s : State} {p : Phrase} (hp : Phrase.Opens s.input p)
    (h : s.input.current.startsExpression = true) :
    (p.run v x (blank s)).state.input.size < s.input.size := by
  cases hp with
  | construct knows mem =>
      have hall : ∀ entry ∈ Phrase.constructs, entry.2.2.eats entry.1 = true := by decide
      refine Phrase.size_run_lt hadvances hstarts _ knows ?_
      rw [Phrase.eats, hall _ mem]
      rfl
  | name hname =>
      have hslot : Slot.identifier.takesNames = true := rfl
      obtain ⟨item, rest, kind, hitems, heq⟩ :=
        word_of_takesNames (d := blank s) hslot hname none
      rw [Phrase.run, Phrase.run, heq]
      exact size_leaf_lt (blank s) hitems none kind false
  | plain hplain =>
      obtain ⟨item, rest, hitems, -⟩ := items_of_current (d := blank s) (k := s.input.current) rfl
        (by rcases hplain with h | h <;> rw [h] <;> rintro ⟨⟩)
      exact size_leaf_lt (blank s) hitems none _ false
  | literal hkind => exact size_literal_lt (d := blank s) hkind
  | absent hnot | skip hnot _ => cases hnot.symm.trans h

end Eating

theorem Draft.size_expression_lt (v : Levels) (depth : Nat) (least : Int) (s : State)
    (h : s.input.current.startsExpression = true) :
    (Draft.expression v depth least s).state.input.size < s.input.size := by
  induction depth generalizing least s with
  | zero =>
      have hone := one_le_overrun h
      have hle := overrun_le 0 s.input.items
      rw [Draft.expression, (tooDeep s).state.input.size_eq, s.input.size_eq, items_tooDeep,
        List.length_drop]
      omega
  | succ depth ih =>
      have hadvances : ∀ least s, State.Advances s (Draft.expression v depth least s).state :=
        advances_expression depth
      exact (advances_climb hadvances least _).size_le.trans_lt
        (size_opens_lt hadvances (fun least s hs ↦ ih least s hs)
          (Phrase.opens_opening s.input) h)

end CoolTree
