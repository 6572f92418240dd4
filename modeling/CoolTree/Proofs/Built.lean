import CoolTree.Proofs.Advance

/-!
# How drafts come about

Every draft is put together in a few ways: a leaf for a token that fits, a string literal, a missing
node, an error around swallowed tokens, a construct around all of it, and the draft of a part behind
what is there. Whatever holds along these steps holds of every syntax tree. Phrases say `take`
only where the next token is known; `Phrase.guarded` checks this from the tests in front of it.
-/

namespace CoolTree

/-- Terminals and other tokens whose node needs no more than their text. -/
def TokenKind.isPlain : TokenKind → Bool
  | .terminal _ | .selfWord | .integer => true
  | _ => false

/-- Kinds of nodes that are neither errors nor comments. -/
def Kind.isOrdinary : Kind → Bool
  | .error | .inlineComment | .blockComment => false
  | _ => true

/-- The kinds of leaves that a token can make in a construct. -/
inductive Kind.Fits : Kind → TokenKind → Prop
  | plain {k : TokenKind} (h : k.isPlain = true) : Fits k.leafKind k
  | word {k : TokenKind} {kind : Kind} {slot : Slot} (h : slot.accepts? k = some kind) : Fits kind k

namespace Kind.Fits

variable {kind : Kind} {k : TokenKind}

theorem isOrdinary (h : kind.Fits k) : kind.isOrdinary = true := by
  cases h with
  | plain h => cases k <;> simp_all [TokenKind.isPlain, TokenKind.leafKind, Kind.isOrdinary]
  | @word _ _ slot h =>
      cases slot <;> cases k <;> simp_all [Slot.accepts?] <;> subst h <;> rfl

theorem ne_string (h : kind.Fits k) (parts : List BodyPart) (closed : Bool) :
    k ≠ .string parts closed := by
  rintro rfl
  cases h with
  | plain h => simp [TokenKind.isPlain] at h
  | @word _ _ slot h => cases slot <;> simp [Slot.accepts?] at h

theorem eq_terminal (h : kind.Fits k) (hnamed : kind.isNamed = false) :
    ∃ t, k = .terminal t ∧ kind = .terminal t := by
  cases h with
  | plain h => cases k <;> simp_all [TokenKind.isPlain, TokenKind.leafKind, Kind.isNamed]
  | @word _ _ slot h =>
      cases slot <;> cases k <;> simp_all [Slot.accepts?] <;> subst h <;> cases hnamed

end Kind.Fits

/-- The drafts that start at a state. -/
inductive Built : State → Draft → Prop
  | blank (s : State) : Built s (.blank s)
  | leaf {s : State} {d : Draft} (h : Built s d) {item : Item} {rest : List Item}
      (items : d.state.input.items = item :: rest) (field : Option Field) {kind : Kind}
      (fits : kind.Fits item.token.kind) : Built s (d.leaf field kind false)
  | literal {s : State} {d : Draft} (h : Built s d) {item : Item} {rest : List Item}
      (items : d.state.input.items = item :: rest) {parts : List BodyPart} {closed : Bool}
      (kind : item.token.kind = .string parts closed) : Built s (d.stringLiteral item parts closed)
  | missing {s : State} {d : Draft} (h : Built s d) (field : Option Field) {kind : Kind}
      (ordinary : kind.isOrdinary = true) (problem : Problem) :
      Built s (d.missing field kind problem)
  | enclose {s : State} {d : Draft} (h : Built s d) {kind : Kind}
      (ordinary : kind.isOrdinary = true) : Built s (d.enclose kind false)
  | attach {s : State} {d inner : Draft} (h : Built s d) (field : Option Field)
      (part : Built d.state inner) : Built s (d.attach field inner)
  | swallow {s : State} {n : Nat} {w : Draft} (h : Draft.Swallowed s n w)
      (bound : n ≤ s.input.items.length) (problem : Problem) : Built s (w.reportLast problem)

theorem Built.advances {s : State} {d : Draft} (h : Built s d) : s.Advances d.state := by
  induction h with
  | blank s => exact .refl s
  | leaf _ _ field _ ih => exact ih.trans (Draft.advances_leaf _ field _ false)
  | literal _ hitems hkind ih => exact ih.trans (Draft.advances_stringLiteral _ hitems hkind)
  | missing _ field _ problem ih => exact ih.trans (Draft.advances_missing _ field _ problem)
  | enclose _ _ ih => exact ih.trans (Draft.advances_enclose _ _ false)
  | attach _ _ _ ih ihpart => exact ih.trans ihpart
  | swallow hw hbound problem => exact hw.advances hbound problem

/-- What is known about the next token. -/
inductive Fact where
  | nothing
  | plain
  | name
  deriving DecidableEq, Inhabited

namespace Fact

def holds : Fact → TokenKind → Bool
  | nothing, _ => true
  | plain, k => k.isPlain
  | name, k => k.isIdentifier

def about (k : TokenKind) : Fact :=
  if k.isPlain then plain else if k.isIdentifier then name else nothing

theorem holds_about (k : TokenKind) : (about k).holds k = true := by
  unfold about
  split
  · assumption
  · split
    · assumption
    · rfl

end Fact

namespace Test

def fact : Test → Fact
  | within (.only _) => .plain
  | both a _ => a.fact
  | _ => .nothing

theorem holds_fact {test : Test} {i : Input} (h : test.holds i = true) :
    test.fact.holds i.current = true := by
  induction test with
  | within c =>
      cases c with
      | only t =>
          have hcurrent : i.current = .terminal t := by simpa [holds, TokenClass.has] using h
          simp [fact, Fact.holds, hcurrent, TokenKind.isPlain]
      | _ => rfl
  | outside c => rfl
  | ahead c => rfl
  | both a b iha _ =>
      simp only [holds, Bool.and_eq_true] at h
      exact iha h.1

end Test

def Slot.takesNames : Slot → Bool
  | identifier | attributeName => true
  | typeName | className => false

theorem Slot.accepts?_of_takesNames {slot : Slot} {k : TokenKind} (h : slot.takesNames = true)
    (hk : k.isIdentifier = true) : (slot.accepts? k).isSome = true := by
  cases slot <;> cases k <;> simp_all [takesNames, accepts?, TokenKind.isIdentifier]

namespace Phrase

/-- Whether a phrase takes tokens only where they are known to be plain, given what is known of the
next two tokens, and makes no errors and comments of its own. -/
def guarded : Fact → Fact → Phrase → Bool
  | _, _, done => true
  | current, upcoming, take _ next => current == .plain && guarded upcoming .nothing next
  | current, upcoming, word _ slot next =>
    guarded (if current = .name ∧ slot.takesNames then upcoming else .nothing) .nothing next
  | current, upcoming, node _ kind body next =>
    kind.isOrdinary && guarded current upcoming body && guarded .nothing .nothing next
  | current, upcoming, choose test yes no next =>
    guarded (if test.fact = .nothing then current else test.fact) upcoming yes &&
      guarded current upcoming no && guarded .nothing .nothing next
  | _, _, loop test body next =>
    guarded test.fact .nothing body && guarded .nothing .nothing next
  | _, _, expect _ next | _, _, literal next | _, _, operand _ _ next | _, _, skip _ next
  | _, _, absent next => guarded .nothing .nothing next

end Phrase

namespace Draft

variable {s : State} {d : Draft}

theorem built_skip (h : Built s d) (stop : TokenClass) : Built s (d.skip stop) := by
  rcases skip_eq d stop with ⟨-, heq⟩ | ⟨n, w, hn, hw, heq⟩
  · rw [heq]
    exact h
  · rw [heq]
    exact h.attach none (.swallow hw (hn ▸ distance_le stop _) _)

theorem built_tooDeep (s : State) : Built s (tooDeep s) :=
  .swallow .wrapped (overrun_le 0 s.input.items) .tooDeep

theorem items_of_current {k : TokenKind} (h : d.current = k) (hk : k ≠ .ending) :
    ∃ item rest, d.state.input.items = item :: rest ∧ item.token.kind = k := by
  unfold current Input.current at h
  split at h
  · rename_i item rest hitems
    exact ⟨item, rest, hitems, h⟩
  · exact (hk h.symm).elim

theorem current_of_items {item : Item} {rest : List Item}
    (h : d.state.input.items = item :: rest) : d.current = item.token.kind := by
  rw [current, Input.current, h]

theorem current_of_nil (h : d.state.input.items = []) : d.current = .ending := by
  rw [current, Input.current, h]

theorem built_leaf (h : Built s d) (field : Option Field) {kind : Kind}
    (hfits : kind.Fits d.current) : Built s (d.leaf field kind false) := by
  have hne : d.current ≠ .ending := by
    intro hk
    rw [hk] at hfits
    cases hfits with
    | plain h => simp [TokenKind.isPlain] at h
    | @word _ _ slot h => cases slot <;> simp [Slot.accepts?] at h
  obtain ⟨item, rest, hitems, hkind⟩ := items_of_current rfl hne
  exact h.leaf hitems field (hkind ▸ hfits)

theorem built_expect (h : Built s d) (t : Terminal) : Built s (d.expect t) := by
  have hskip := built_skip h (.either (.only t) .synchronizing)
  simp only [expect]
  split
  · rename_i hcurrent
    have hfits : Kind.Fits (.terminal t) (.terminal t) := .plain (k := .terminal t) rfl
    exact built_leaf hskip none (hcurrent ▸ hfits)
  · exact hskip.missing none rfl _

theorem built_word (h : Built s d) (field : Option Field) (slot : Slot) :
    Built s (d.word field slot) := by
  unfold word
  split
  · rename_i kind hkind
    exact built_leaf h field (.word hkind)
  · exact h.missing field (by cases slot <;> rfl) _

theorem built_literal (h : Built s d) : Built s d.literal := by
  unfold literal
  split
  · rename_i item rest hitems
    split
    · exact h.literal hitems ‹_›
    · exact h
  · exact h

theorem built_repeatWhile {test : Test} {round : Draft → Draft}
    (hround : ∀ d : Draft, Built s d → test.holds d.state.input = true → Built s (round d))
    (h : Built s d) : Built s (repeatWhile test round d) := by
  fun_induction repeatWhile test round d with
  | case1 d htest _ _ ih => exact ih (hround d h htest)
  | case2 d htest _ _ => exact hround d h htest
  | case3 d _ => exact h

theorem current_leaf (hne : d.current ≠ .ending) (field : Option Field) (kind : Kind)
    (faulty : Bool) : (d.leaf field kind faulty).current = d.state.input.upcoming := by
  obtain ⟨item, rest, hitems, -⟩ := items_of_current rfl hne
  simp only [current, Input.current, Input.upcoming]
  rw [state_leaf d hitems, Input.items_tail, hitems]
  cases rest <;> rfl

end Draft

open Draft

variable {levels : Levels} {expression : Int → State → Draft}

/-- Guarded phrases build drafts from drafts if the expressions in them are built. -/
theorem Phrase.built_run {s : State} (hexpression : ∀ least t, Built t (expression least t))
    (p : Phrase) {d : Draft} (h : Built s d) {current upcoming : Fact}
    (hguarded : p.guarded current upcoming = true) (hcurrent : current.holds d.current = true)
    (hupcoming : upcoming.holds d.state.input.upcoming = true) :
    Built s (p.run levels expression d) := by
  induction p generalizing s d current upcoming with
  | done => exact h
  | expect t next ih => exact ih (built_expect h t) hguarded rfl rfl
  | take field next ih =>
      simp only [guarded, Bool.and_eq_true, beq_iff_eq] at hguarded
      obtain ⟨rfl, hnext⟩ := hguarded
      have hne : d.current ≠ .ending := by
        intro hk
        rw [hk] at hcurrent
        cases hcurrent
      refine ih (built_leaf h field (.plain hcurrent)) hnext ?_ rfl
      exact current_leaf hne _ _ _ ▸ hupcoming
  | word field slot next ih =>
      refine ih (built_word h field slot) hguarded ?_ rfl
      split
      · rename_i hname
        obtain ⟨rfl, hslot⟩ := hname
        have haccepts := Slot.accepts?_of_takesNames hslot hcurrent
        obtain ⟨kind, hkind⟩ := Option.isSome_iff_exists.mp haccepts
        have hne : d.current ≠ .ending := by
          intro hk
          rw [hk] at hcurrent
          cases hcurrent
        rw [Draft.word, hkind]
        exact current_leaf hne _ _ _ ▸ hupcoming
      · rfl
  | literal next ih => exact ih (built_literal h) hguarded rfl rfl
  | operand field bound next ih =>
      exact ih (h.attach field (hexpression _ d.state)) hguarded rfl rfl
  | node field kind body next ihbody ihnext =>
      simp only [guarded, Bool.and_eq_true] at hguarded
      obtain ⟨⟨hkind, hbody⟩, hnext⟩ := hguarded
      have hinner := ihbody (.blank d.state) hbody hcurrent hupcoming
      exact ihnext (h.attach field (hinner.enclose hkind)) hnext rfl rfl
  | choose test yes no next ihyes ihno ihnext =>
      simp only [guarded, Bool.and_eq_true] at hguarded
      obtain ⟨⟨hyes, hno⟩, hnext⟩ := hguarded
      refine ihnext ?_ hnext rfl rfl
      split
      · rename_i htest
        refine ihyes h hyes ?_ hupcoming
        split
        · exact hcurrent
        · exact Test.holds_fact htest
      · exact ihno h hno hcurrent hupcoming
  | loop test body next ihbody ihnext =>
      simp only [guarded, Bool.and_eq_true] at hguarded
      refine ihnext (built_repeatWhile (fun d hd htest ↦ ?_) h) hguarded.2 rfl rfl
      exact ihbody hd hguarded.1 (Test.holds_fact htest) rfl
  | skip stop next ih => exact ih (built_skip h stop) hguarded rfl rfl
  | absent next ih => exact ih (h.missing none rfl _) hguarded rfl rfl

theorem Phrase.guarded_opening (current upcoming : TokenKind) :
    (opening current upcoming).guarded (.about current) (.about upcoming) = true := by
  have hname : ∀ upcoming : TokenKind, (if upcoming = .terminal .assign then
      Phrase.node none .assignmentExpression assignment .done
      else if upcoming = .terminal .leftParen then Phrase.node none .dispatchExpression call .done
      else .word none .identifier .done).guarded .name (.about upcoming) = true := by
    intro upcoming
    split
    · rename_i h
      subst h
      rfl
    · split <;> rfl
  unfold opening
  split
  · exact hname upcoming
  · exact hname upcoming
  all_goals try rfl
  split <;> rfl

/-- An expression goes on with a call or with an operator. -/
theorem Continuation.of?_cases {least : Int} {k : TokenKind} {next : Continuation}
    (h : of? levels least k = some next) :
    ((k = .terminal .dot ∨ k = .terminal .atSign) ∧
        next = ⟨.value, .dispatchExpression, .dispatch⟩) ∨
      ∃ o : Operator, k = .terminal o.terminal ∧ next = ⟨.left, .binaryExpression, .binary o⟩ := by
  unfold of? at h
  split at h
  · split at h <;> cases h
    exact .inl ⟨.inl rfl, rfl⟩
  · split at h <;> cases h
    exact .inl ⟨.inr rfl, rfl⟩
  · rename_i t _ _
    obtain ⟨o, ho, hnext⟩ := Option.bind_eq_some_iff.mp h
    split at hnext <;> cases hnext
    have hterminal : o.terminal = t := by simpa using List.find?_some ho
    exact .inr ⟨o, hterminal ▸ rfl, rfl⟩
  · cases h

theorem Continuation.guarded_of_of? {least : Int} {k : TokenKind} {next : Continuation}
    (h : of? levels least k = some next) : Fact.plain.holds k = true ∧
      next.phrase.guarded .plain .nothing = true ∧ next.kind.isOrdinary = true := by
  obtain ⟨rfl | rfl, rfl⟩ | ⟨o, rfl, rfl⟩ := of?_cases h <;> exact ⟨rfl, rfl, rfl⟩

namespace Draft

theorem built_climb (hexpression : ∀ least t, Built t (expression least t)) {s : State}
    (least : Int) {d : Draft} (h : Built s d) : Built s (climb levels expression least d) := by
  have hwhole : ∀ (d : Draft) (next : Continuation), Built s d →
      Continuation.of? levels least d.current = some next →
      Built s ((next.phrase.run levels expression
        ((blank d.state).attach (some next.field) d)).enclose next.kind false) := by
    intro d next hd hnext
    obtain ⟨hplain, hguarded, hkind⟩ := Continuation.guarded_of_of? hnext
    have hinside : Built s ((blank s).attach (some next.field) d) := (Built.blank s).attach _ hd
    exact (Phrase.built_run hexpression next.phrase hinside hguarded hplain rfl).enclose hkind
  fun_induction climb levels expression least d with
  | case1 d _ => exact h
  | case2 d next hnext _ _ _ ih => exact ih (hwhole d next h hnext)
  | case3 d next hnext _ _ _ => exact hwhole d next h hnext

theorem built_expression (depth : Nat) (least : Int) (s : State) :
    Built s (Draft.expression levels depth least s) := by
  induction depth generalizing least s with
  | zero => exact built_tooDeep s
  | succ depth ih =>
      exact built_climb ih least (Phrase.built_run ih _ (.blank s)
        (Phrase.guarded_opening _ _) (Fact.holds_about _) (Fact.holds_about _))

end Draft

end CoolTree
