import CoolTree.Proofs.Built
import CoolTree.Proofs.Meaning
import CoolTree.Proofs.Outcome

/-!
# Phrases follow the recognizer

One rule for each part that a phrase can have. A rule says which stacks the recognizer goes through
while the part is parsed; what is known about the next tokens is kept as a condition on the input.
-/

namespace CoolTree

open Recognizer

namespace TokenClass

variable {t : Terminal} {k : TokenKind}

theorem has_only : (only t).has k = true ↔ k = .terminal t := by
  simp [has]

theorem has_only_eq_false : (only t).has k = false ↔ k ≠ .terminal t := by
  simp [has]

end TokenClass

/-- A problem in front of all tokens that a state has left, other than too many levels. -/
def State.Pinned (s t : State) : Prop :=
  ∃ e ∈ t.errors, e.problem ≠ .tooDeep ∧
    ∀ item ∈ s.input.items, e.span.start.offset < item.token.stop.offset

theorem State.Pinned.of_advances {s t u : State} (h : s.Pinned t) (htu : t.Advances u) :
    s.Pinned u := by
  obtain ⟨e, he, hpinned⟩ := h
  obtain ⟨-, -, -, new, herrors, -⟩ := htu
  exact ⟨e, herrors ▸ List.mem_append_right new he, hpinned⟩

namespace Draft

variable {d : Draft}

theorem pinned_missing (hd : d.state.Ordered) (field : Option Field) (kind : Kind)
    {problem : Problem} (hproblem : problem ≠ .tooDeep) :
    d.state.Pinned (d.missing field kind problem).state :=
  ⟨⟨problem, .emptyAt d.state.reached⟩, List.mem_cons_self, hproblem, hd.reached_lt_stop⟩

theorem pinned_skip (hd : d.state.Ordered) {stop : TokenClass}
    (h : distance stop d.state.input.items ≠ 0) : d.state.Pinned (d.skip stop).state := by
  rcases skip_eq d stop with ⟨hzero, -⟩ | ⟨n, w, hn, hw, heq⟩
  · exact (h hzero).elim
  · cases hitems : d.state.input.items with
    | nil => simp [hitems, distance] at hn
    | cons item rest =>
        obtain ⟨before, last, hnodes, hstart⟩ := hw.start_last hitems
        rw [heq, state_attach, state_reportLast w _ hnodes]
        refine ⟨⟨_, last.span⟩, List.mem_cons_self, by rintro ⟨⟩, ?_⟩
        rw [hstart]
        exact hd.start_lt_stop_of_cons hitems

theorem distance_ne_zero {stop : TokenClass} (hne : d.current ≠ .ending)
    (h : stop.has d.current = false) : distance stop d.state.input.items ≠ 0 := by
  obtain ⟨item, rest, hitems, hkind⟩ := items_of_current rfl hne
  rw [← hkind] at h
  simp [distance, hitems, h]

theorem distance_eq_zero {stop : TokenClass} (h : stop.has d.current = true) :
    distance stop d.state.input.items = 0 := by
  unfold current Input.current at h
  unfold distance
  split at h
  · rename_i item rest hitems
    simp [hitems, h]
  · rename_i hitems
    simp [hitems]

theorem expect_of_current {t : Terminal} (h : d.current = .terminal t) :
    d.expect t = d.leaf none (.terminal t) false := by
  have hskip : d.skip (.either (.only t) .synchronizing) = d :=
    skip_of_distance_eq_zero (distance_eq_zero (by simp [TokenClass.has, h]))
  rw [expect, hskip, if_pos h]

theorem pinned_expect (hd : d.state.Ordered) {t : Terminal} (h : d.current ≠ .terminal t) :
    d.state.Pinned (d.expect t).state := by
  by_cases hdistance : distance (.either (.only t) .synchronizing) d.state.input.items = 0
  · rw [expect, skip_of_distance_eq_zero hdistance, if_neg h]
    exact pinned_missing hd none _ (by rintro ⟨⟩)
  · have hskip := pinned_skip hd hdistance
    simp only [expect]
    split
    · exact hskip.of_advances (advances_leaf _ _ _ _)
    · exact hskip.of_advances (advances_missing _ _ _ _)

theorem input_leaf {item : Item} {rest : List Item} (h : d.state.input.items = item :: rest)
    (field : Option Field) (kind : Kind) (faulty : Bool) :
    (d.leaf field kind faulty).state.input = d.state.input.tail ∧
      (d.leaf field kind faulty).state.errors = d.state.errors := by
  rw [state_leaf d h]
  exact ⟨rfl, rfl⟩

end Draft

theorem State.Clean.congr {w : Leeway} {s t : State} (hs : s.Clean w) (h : t.errors = s.errors) :
    t.Clean w :=
  fun e he ↦ hs e (h ▸ he)

/-- Stacks that go on with a token that closes or separates something, if they go on at all. -/
def Recognizer.Sealed (stack : List Pending) : Prop :=
  ∀ k w, Yields stack (k :: w) → k.isSynchronizing = true

namespace Recognizer.Sealed

variable {b : List Pending}

theorem terminal {t : Terminal} (ht : (TokenKind.terminal t).isSynchronizing = true) :
    Sealed (.terminal t :: b) := by
  rintro k w ⟨_, v, rfl, -, heq⟩
  obtain ⟨rfl, -⟩ := List.cons.inj heq
  exact ht

theorem cons {x : Pending} (hx : ∀ k w, x.Yields (k :: w) → k.isSynchronizing = true)
    (hb : Sealed b) : Sealed (x :: b) := by
  rintro k w ⟨u, v, hu, hv, heq⟩
  cases u with
  | nil => exact hb k w (heq ▸ hv)
  | cons k' u =>
      obtain ⟨rfl, -⟩ := List.cons.inj heq
      exact hx k u hu

theorem moreArguments (hb : Sealed b) : Sealed (.moreArguments :: b) := by
  refine cons ?_ hb
  rintro k w ⟨_ | ⟨a, as⟩, -, heq⟩
  · cases heq
  · obtain ⟨rfl, -⟩ := List.cons.inj heq
    rfl

theorem alternative (hb : Sealed b) : Sealed (.alternative :: b) := by
  refine cons ?_ hb
  rintro k w ⟨_ | e, -, heq⟩
  · cases heq
  · obtain ⟨rfl, -⟩ := List.cons.inj heq
    rfl

theorem moreBindings (hb : Sealed b) : Sealed (.moreBindings :: b) := by
  refine cons ?_ hb
  rintro k w ⟨_ | ⟨v, vs⟩, -, -, heq⟩
  · cases heq
  · obtain ⟨rfl, -⟩ := List.cons.inj heq
    rfl

theorem moreArms (hb : Sealed b) : Sealed (.moreArms :: b) := by
  refine cons ?_ hb
  rintro k w ⟨_ | ⟨a, as⟩, _ | _, -, -, heq⟩
  · cases heq
  all_goals
    obtain ⟨rfl, -⟩ := List.cons.inj heq
    rfl

end Recognizer.Sealed

def Slot.pending : Slot → Pending
  | identifier | attributeName => .name
  | typeName | className => .typeName

theorem Slot.after?_pending (slot : Slot) (k : TokenKind) :
    slot.pending.after? k = (slot.accepts? k).map fun _ ↦ [] := by
  cases slot <;> cases k <;> rfl

theorem Pending.after?_terminal (t : Terminal) (k : TokenKind) :
    (terminal t).after? k = if k = .terminal t then some [] else none := rfl

/-- In a file an assignment binds least of all. -/
structure Levels.Loosest (v : Levels) : Prop where
  call : v.assign ≤ v.call
  super : v.assign ≤ v.super
  operator : ∀ o, v.assign ≤ (v.operator o).strength

theorem Pending.cases_afterTail? {k : TokenKind} {xs : List Pending} (h : afterTail? k = some xs) :
    k = .terminal .dot ∨ k = .terminal .atSign ∨ ∃ o : Operator, k = .terminal o.terminal := by
  unfold afterTail? at h
  split at h
  · exact .inl rfl
  · exact .inr (.inl rfl)
  · rename_i t _ _
    split at h
    · rename_i hsome
      obtain ⟨o, ho⟩ := Option.isSome_iff_exists.mp hsome
      have hterminal : o.terminal = t := by simpa using List.find?_some ho
      exact .inr (.inr ⟨o, hterminal ▸ rfl⟩)
    · cases h
  · cases h

theorem Continuation.of?_operator {v : Levels} {least : Int} {o : Operator}
    (h : least ≤ (v.operator o).strength) :
    of? v least (.terminal o.terminal) = some ⟨.left, .binaryExpression, .binary o⟩ := by
  cases o <;> exact if_pos h

/-- Where nothing goes on with an expression that binds as little as an assignment, nothing may
follow it. -/
theorem Levels.Loosest.afterTail?_eq_none {v : Levels} (hv : v.Loosest) {k : TokenKind}
    (h : Continuation.of? v v.assign k = none) : Pending.afterTail? k = none := by
  cases hafter : Pending.afterTail? k with
  | none => rfl
  | some xs =>
      rcases Pending.cases_afterTail? hafter with rfl | rfl | ⟨o, rfl⟩
      · cases h.symm.trans (if_pos hv.call)
      · cases h.symm.trans (if_pos hv.super)
      · cases h.symm.trans (Continuation.of?_operator (hv.operator o))

/-- How the expressions inside a construct are parsed: in front of what closes or separates they
follow the recognizer, and nothing goes on with one that has been parsed. -/
structure Operands where
  leeway : Leeway
  levels : Levels
  expression : Int → State → Draft
  depth : Nat
  loosest : levels.Loosest
  advances : ∀ least s, State.Advances s (expression least s).state
  follows : ∀ least s rest, s.Fine leeway → Sealed rest →
    Outcome leeway depth 0 1 (fun i ↦ Continuation.of? levels least i.current = none)
      (.expression :: rest) (.tail :: rest) s (expression least s).state

namespace Operands

/-- Whether parsing a phrase follows the recognizer from one stack to another. -/
def Follows (g : Operands) (credit progress : Nat) (pre : Input → Prop) (a b : List Pending)
    (p : Phrase) : Prop :=
  ∀ d : Draft, d.state.Fine g.leeway → pre d.state.input →
    Outcome g.leeway g.depth credit progress (fun _ ↦ True) a b d.state
      (p.run g.levels g.expression d).state

namespace Follows

variable {g : Operands} {credit progress : Nat} {pre pre' : Input → Prop} {a b c : List Pending}
  {p next : Phrase}

theorem bind {progress₁ : Nat} {d : Draft} (d' : Draft) (hd : d.state.Fine g.leeway)
    (hadvances : d.state.Advances d'.state)
    (h : Outcome g.leeway g.depth credit progress₁ pre' a b d.state d'.state)
    (hnext : g.Follows (credit - progress₁) (progress - progress₁) pre' b c next) :
    Outcome g.leeway g.depth credit progress (fun _ ↦ True) a c d.state
      (next.run g.levels g.expression d').state := by
  have hrest : d'.state.Clean g.leeway → pre' d'.state.input →
      Outcome g.leeway g.depth (credit - progress₁) (progress - progress₁) (fun _ ↦ True) b c
        d'.state (next.run g.levels g.expression d').state :=
    fun hclean hpre ↦ hnext d' (hadvances.fine hd hclean) hpre
  exact h.bind hd.ordered hadvances (next.advances_run g.advances d') hrest le_rfl (by omega)
    (by omega)

/-- The rest of a phrase whose first part reports what the recognizer refuses. -/
theorem stuck {d : Draft} (d' : Draft) (hrefusal : refusal a d.state.input.kinds = some 0)
    (hpinned : d.state.Pinned d'.state) :
    Outcome g.leeway g.depth credit progress (fun _ ↦ True) a c d.state
      (next.run g.levels g.expression d').state := by
  obtain ⟨e, he, hproblem, hpinned⟩ := hpinned.of_advances (next.advances_run g.advances d')
  exact .of_refusal hrefusal ⟨e, he, g.leeway.not_spares hproblem, hpinned⟩

theorem weaken (h : g.Follows credit progress pre a b p) (hpre : ∀ i, pre' i → pre i) :
    g.Follows credit progress pre' a b p :=
  fun d hd hi ↦ h d hd (hpre _ hi)

theorem lower {credit' progress' : Nat} (h : g.Follows credit progress pre a b p)
    (hcredit : credit' ≤ credit) (hprogress : progress' ≤ progress) :
    g.Follows credit' progress' pre a b p :=
  fun d hd hi ↦ (h d hd hi).mono hprogress (Nat.add_le_add_left hcredit _) fun _ hpost ↦ hpost

theorem convert (hp : g.Follows credit progress pre b c p)
    (h : ∀ i : Input, i.Plain → pre i → refusal a i.kinds = refusal b i.kinds) :
    g.Follows credit progress pre a c p :=
  fun d hd hi ↦ (hp d hd hi).congr_left (h _ hd.plain hi)

theorem done (h : ∀ i : Input, i.Plain → pre i → refusal a i.kinds = refusal b i.kinds) :
    g.Follows credit 0 pre a b .done :=
  fun _ hd hi ↦ .refl hd (h _ hd.plain hi) trivial

theorem finish : g.Follows credit 0 pre a a .done :=
  done fun _ _ _ ↦ rfl

theorem take {field : Option Field}
    (hstep : ∀ i, pre i → i.current ≠ .ending ∧ step a i.current = some b)
    (hnext : g.Follows (credit - 1) (progress - 1) (fun _ ↦ True) b c next) :
    g.Follows credit progress pre a c (.take field next) := by
  intro d hd hi
  obtain ⟨hne, hstep⟩ := hstep _ hi
  obtain ⟨item, rest, hitems, hkind⟩ := Draft.items_of_current rfl hne
  obtain ⟨hinput, herrors⟩ := Draft.input_leaf hitems field d.current.leafKind false
  refine bind (d.take field) hd (Draft.advances_leaf _ _ _ _) ?_ hnext
  exact .of_step hitems hinput (hd.clean.congr herrors) (hkind ▸ hstep) trivial

theorem takeKnown {field : Option Field} {k : TokenKind} (hk : k ≠ .ending)
    (hstep : step a k = some b)
    (hnext : g.Follows (credit - 1) (progress - 1) (fun _ ↦ True) b c next) :
    g.Follows credit progress (fun i ↦ i.current = k) a c (.take field next) :=
  take (fun i hi ↦ by rw [hi]; exact ⟨hk, hstep⟩) hnext

theorem expect {t : Terminal}
    (hnext : g.Follows (credit - 1) (progress - 1) (fun _ ↦ True) b c next) :
    g.Follows credit progress pre (.terminal t :: b) c (.expect t next) := by
  intro d hd _
  by_cases hcurrent : d.current = .terminal t
  · obtain ⟨item, rest, hitems, hkind⟩ := Draft.items_of_current hcurrent (by simp)
    obtain ⟨hinput, herrors⟩ := Draft.input_leaf hitems none (.terminal t) false
    have hafter : (Pending.terminal t).after? item.token.kind = some [] := by
      rw [Pending.after?_terminal, if_pos hkind]
    refine bind (d.expect t) hd (Draft.advances_expect d t) ?_ hnext
    rw [Draft.expect_of_current hcurrent]
    exact .of_step hitems hinput (hd.clean.congr herrors) (step_of_after? hafter b) trivial
  -- Skipping tokens and missing the terminal both report something in front of the next token.
  · refine stuck (d.expect t) ?_ (Draft.pinned_expect hd.ordered hcurrent)
    exact hd.plain.refusal_eq_zero rfl ((Pending.after?_terminal t _).trans (if_neg hcurrent)) b

theorem wordKnown {field : Option Field} {slot : Slot} {x : Pending} (hx : slot.pending = x)
    (hpre : ∀ i, pre i → pre' i.tail)
    (hnext : g.Follows (credit - 1) (progress - 1) pre' b c next) :
    g.Follows credit progress pre (x :: b) c (.word field slot next) := by
  subst hx
  intro d hd hi
  cases haccepts : slot.accepts? d.current with
  | none =>
      have hword : d.word field slot =
          d.missing field slot.defaultKind (.expected slot.wanted d.current) := by
        rw [Draft.word, haccepts]
      refine stuck (d.word field slot) ?_ ?_
      · refine hd.plain.refusal_eq_zero (by cases slot <;> rfl) ?_ b
        rw [Slot.after?_pending, show slot.accepts? d.state.input.current = none from haccepts]
        rfl
      · rw [hword]
        exact Draft.pinned_missing hd.ordered _ _ (by rintro ⟨⟩)
  | some kind =>
      have hword : d.word field slot = d.leaf field kind false := by
        rw [Draft.word, haccepts]
      have hne : d.current ≠ .ending := by
        intro hk
        rw [hk] at haccepts
        cases slot <;> cases haccepts
      obtain ⟨item, rest, hitems, hkind⟩ := Draft.items_of_current rfl hne
      obtain ⟨hinput, herrors⟩ := Draft.input_leaf hitems field kind false
      have hafter : slot.pending.after? item.token.kind = some [] := by
        rw [hkind, Slot.after?_pending, haccepts]
        rfl
      refine bind (d.word field slot) hd (Draft.advances_word d field slot) ?_ hnext
      rw [hword]
      exact .of_step hitems hinput (hd.clean.congr herrors) (step_of_after? hafter b)
        (hinput ▸ hpre _ hi)

theorem word {field : Option Field} {slot : Slot} {x : Pending} (hx : slot.pending = x)
    (hnext : g.Follows (credit - 1) (progress - 1) (fun _ ↦ True) b c next) :
    g.Follows credit progress pre (x :: b) c (.word field slot next) :=
  wordKnown hx (fun _ _ ↦ trivial) hnext

theorem literal (hstep : ∀ i, i.Plain → pre i → (∃ parts, i.current = .string parts true) ∧
      step a i.current = some b)
    (hnext : g.Follows (credit - 1) (progress - 1) (fun _ ↦ True) b c next) :
    g.Follows credit progress pre a c (.literal next) := by
  intro d hd hi
  obtain ⟨⟨parts, hcurrent⟩, hstep⟩ := hstep _ hd.plain hi
  obtain ⟨item, rest, hitems, hkind⟩ := Draft.items_of_current hcurrent (by simp)
  obtain ⟨-, hinput, -, herrors⟩ := Draft.stringLiteral_eq d item parts true
  have hliteral : d.literal = d.stringLiteral item parts true := by
    simp [Draft.literal, hitems, hkind]
  refine bind d.literal hd (Draft.advances_literal d) ?_ hnext
  rw [hliteral]
  exact .of_step hitems hinput (hd.clean.congr herrors) (hkind ▸ hcurrent ▸ hstep) trivial

theorem operand {field : Option Field} {bound : Bound} (hb : Sealed b)
    (hpre : ∀ i, Continuation.of? g.levels (g.levels.bound bound) i.current = none → pre' i)
    (hnext : g.Follows 0 (progress - 1) pre' (.tail :: b) c next) :
    g.Follows 0 progress pre (.expression :: b) c (.operand field bound next) := by
  intro d hd _
  have hfirst := (g.follows (g.levels.bound bound) d.state b hd hb).mono le_rfl le_rfl hpre
  exact bind (d.attach field (g.expression _ d.state)) hd (g.advances _ d.state) hfirst hnext

/-- Nothing follows an operand that may hold an assignment. -/
theorem whole {field : Option Field} (hb : Sealed b)
    (hnext : g.Follows 0 (progress - 1) (fun _ ↦ True) b c next) :
    g.Follows 0 progress pre (.expression :: b) c (.operand field .assign next) := by
  have htail : g.Follows 0 (progress - 1) (fun i ↦ Pending.afterTail? i.current = none)
      (.tail :: b) c next :=
    convert (hnext.weaken fun _ _ ↦ trivial)
      fun i hplain hi ↦ hplain.refusal_of_isNullable (x := .tail) rfl hi b
  exact operand hb (fun i hi ↦ g.loosest.afterTail?_eq_none hi) htail

theorem node {m : Nat} {field : Option Field} {kind : Kind} {body : Phrase}
    (hbody : g.Follows credit m pre a b body)
    (hnext : g.Follows (credit - m) (progress - m) (fun _ ↦ True) b c next) :
    g.Follows credit progress pre a c (.node field kind body next) := by
  intro d hd hi
  let inner := body.run g.levels g.expression (.blank d.state)
  have hadvances : d.state.Advances inner.state := body.advances_run g.advances (.blank d.state)
  exact bind (d.attach field (inner.enclose kind false)) hd
    (hadvances.trans (Draft.advances_enclose inner kind false))
    ((hbody (.blank d.state) hd hi).enclose kind) hnext

theorem choose {m : Nat} {test : Test} {yes no : Phrase}
    (hyes : g.Follows credit m (fun i ↦ pre i ∧ test.holds i = true) a b yes)
    (hno : g.Follows credit m (fun i ↦ pre i ∧ test.holds i = false) a b no)
    (hnext : g.Follows (credit - m) (progress - m) (fun _ ↦ True) b c next) :
    g.Follows credit progress pre a c (.choose test yes no next) := by
  intro d hd hi
  rw [Phrase.run]
  split
  · exact bind _ hd (yes.advances_run g.advances d) (hyes d hd ⟨hi, ‹_›⟩) hnext
  · exact bind _ hd (no.advances_run g.advances d) (hno d hd ⟨hi, Bool.eq_false_iff.mpr ‹_›⟩) hnext

/-- Rounds that take a token each lead back to the same stack, until the test fails. -/
theorem repeatWhile {test : Test} {body : Phrase}
    (hbody : g.Follows credit 1 (fun i ↦ test.holds i = true) a a body) (d : Draft) :
    d.state.Fine g.leeway → Outcome g.leeway g.depth credit 0 (fun i ↦ test.holds i = false) a a
      d.state (d.repeatWhile test (body.run g.levels g.expression)).state := by
  fun_induction Draft.repeatWhile test (body.run g.levels g.expression) d with
  | case1 d htest next hlt ih =>
      intro hd
      have hadvances : d.state.Advances next.state := body.advances_run g.advances d
      have hrest : next.state.Clean g.leeway → True → Outcome g.leeway g.depth credit 0
          (fun i ↦ test.holds i = false) a a next.state
          (next.repeatWhile test (body.run g.levels g.expression)).state :=
        fun hclean _ ↦ ih (hadvances.fine hd hclean)
      exact (hbody d hd htest).bind hd.ordered hadvances
        (Draft.advances_repeatWhile next test (body.advances_run g.advances)) hrest le_rfl
        (Nat.le_add_right _ _) (Nat.zero_le _)
  | case2 d htest next hnot =>
      intro hd
      exact (hbody d hd htest).of_not_size_lt hnot
  | case3 d htest =>
      intro hd
      exact .refl hd rfl (by simpa using htest)

theorem loop {test : Test} {body : Phrase}
    (hbody : g.Follows credit 1 (fun i ↦ test.holds i = true) a a body)
    (hnext : g.Follows credit progress (fun i ↦ test.holds i = false) a c next) :
    g.Follows credit progress pre a c (.loop test body next) := by
  intro d hd _
  let rounds := d.repeatWhile test (body.run g.levels g.expression)
  have hadvances : d.state.Advances rounds.state :=
    Draft.advances_repeatWhile d test (body.advances_run g.advances)
  exact bind rounds hd hadvances (repeatWhile hbody d hd) hnext

theorem skip {stop : TokenClass} (h : ∀ i : Input, i.Plain → pre i →
      i.current ≠ .ending ∧ stop.has i.current = false ∧ refusal a i.kinds = some 0) :
    g.Follows credit progress pre a c (.skip stop next) := by
  intro d hd hi
  obtain ⟨hne, hstop, hrefusal⟩ := h _ hd.plain hi
  exact stuck (d.skip stop) hrefusal
    (Draft.pinned_skip hd.ordered (Draft.distance_ne_zero hne hstop))

theorem absent (h : ∀ i : Input, i.Plain → pre i → refusal a i.kinds = some 0) :
    g.Follows credit progress pre a c (.absent next) := by
  intro d hd hi
  exact stuck d.absent (h _ hd.plain hi) (Draft.pinned_missing hd.ordered _ _ (by rintro ⟨⟩))

end Follows

end Operands

end CoolTree
