import CoolTree.Proofs.Abreast
import CoolTree.Proofs.Whole

/-!
# Phrases keep away from the next class

A phrase sees no class begin. Its tests take the word that starts a class for the end, or are made
where tokens are known to be left, and it takes a token unseen only there; `Phrase.confined` checks
this. Two runs of such a phrase stay side by side, and so do two expressions, unless one of those in
them is nested too deeply and swallows what follows.
-/

namespace CoolTree

namespace Draft

theorem overrun_cons (opened : Nat) (item : Item) (rest : List Item) :
    overrun opened (item :: rest) =
      if item.token.kind.isOpening then overrun (opened + 1) rest + 1
      else if opened = 0 then
        if item.token.kind.isSynchronizing then 0 else overrun 0 rest + 1
      else if item.token.kind.isClosing then overrun (opened - 1) rest + 1
      else overrun opened rest + 1 := by
  rw [overrun]
  cases item.token.kind with
  | terminal t => cases t <;> rfl
  | _ => rfl

/-- Where no bracket that was opened stays open, nothing behind is run into. -/
theorem overrun_append {opened : Nat} {xs ys : List Item}
    (hclosing : TokenKind.Closing (xs.map (·.token.kind)))
    (hopened : opened = 0 ∨ opened + (xs.map (·.token.kind)).countP TokenKind.isOpening ≤
      (xs.map (·.token.kind)).countP TokenKind.isClosing)
    (hys : ∀ y ∈ ys.head?, y.token.kind = .terminal .classWord) :
    overrun opened (xs ++ ys) = overrun opened xs := by
  induction xs generalizing opened with
  | nil =>
      obtain rfl : opened = 0 := by simpa using hopened
      cases ys with
      | nil => rfl
      | cons y ys =>
          rw [List.nil_append, overrun_cons, hys y rfl]
          rfl
  | cons x xs ih =>
      -- The count for all of `x :: xs` serves a bracket that opens where none is open.
      have hwhole := hclosing _ List.suffix_rfl
      rw [List.map_cons, List.countP_cons, List.countP_cons] at hopened hwhole
      have hboth : ¬(x.token.kind.isOpening = true ∧ x.token.kind.isClosing = true) := by
        cases x.token.kind with
        | terminal t => cases t <;> simp [TokenKind.isOpening, TokenKind.isClosing]
        | _ => simp [TokenKind.isOpening]
      rw [List.cons_append, overrun_cons, overrun_cons]
      split
      · rw [ih hclosing.tail (by grind)]
      · split
        · rw [ih hclosing.tail (.inl rfl)]
        · split
          · rw [ih hclosing.tail (by grind)]
          · rw [ih hclosing.tail (by grind)]

theorem overrun_congr {opened : Nat} {xs ys : List Item}
    (h : xs.map Item.kinds = ys.map Item.kinds) : overrun opened xs = overrun opened ys := by
  induction xs generalizing opened ys with
  | nil => rw [List.map_eq_nil_iff.mp h.symm]
  | cons x xs ih =>
      obtain ⟨y, ys, rfl, hkinds, hrest⟩ := List.map_eq_cons_iff.mp h.symm
      have hkind : y.token.kind = x.token.kind := congrArg Prod.snd hkinds
      simp only [overrun_cons, hkind, ih hrest.symm]

/-- Two drafts side by side, or the longer run has lost its way. -/
def Together (q : Sequel) (front : List Node) (d e : Draft) : Prop :=
  Abreast q front d e ∨ q.Lost e.state

variable {q : Sequel} {front : List Node} {d e : Draft}

theorem together_tooDeep {s t : State} (h : s.Abreast q t) :
    Together q [] (tooDeep s) (tooDeep t) := by
  by_cases hrisky : q.risky
  -- A run at risk counts as lost as soon as anything is nested too deeply.
  · exact .inr ⟨hrisky, _, List.mem_cons_self, rfl⟩
  · obtain ⟨xs, hxs, hkinds⟩ := h.items
    have hcount : overrun 0 t.input.items = overrun 0 s.input.items := by
      rw [hxs, ← overrun_congr hkinds]
      rcases h.closing with hempty | hrisk | hclosing
      · rw [hempty, List.append_nil]
      · exact (hrisky hrisk).elim
      · rw [← Item.map_kind hkinds] at hclosing
        exact overrun_append hclosing (.inl rfl) q.starts
    have htokens := (Abreast.blank h).tokenNodes (overrun_le 0 s.input.items)
    rw [tooDeep, tooDeep, hcount]
    exact .inl ((htokens.enclose (by simp) .error true).reportLast .tooDeep .tooDeep)

end Draft

namespace Input

variable (i : Input)

theorem one_le_of_current (h : i.current ≠ .ending) : 1 ≤ i.items.length := by
  unfold current at h
  split at h
  · simp [*]
  · exact (h rfl).elim

theorem two_le_of_upcoming (h : i.upcoming ≠ .ending) : 2 ≤ i.items.length := by
  unfold upcoming at h
  split at h
  · simp [*]
  · exact (h rfl).elim

end Input

namespace Test

/-- How many tokens are left at least where a test holds. -/
def sure : Test → Nat
  | within c => if c.has .ending then 0 else 1
  | outside c => if c.has .ending then 1 else 0
  | ahead c => if c.has .ending then 0 else 2
  | both a b => max a.sure b.sure

/-- Whether a test is made where tokens are known to be left or takes a class for the end. -/
def settled (known : Nat) : Test → Bool
  | within c | outside c => 1 ≤ known || c.has (.terminal .classWord) == c.has .ending
  | ahead c => 1 ≤ known && c.has (.terminal .classWord) == c.has .ending
  | both a b => a.settled known && b.settled (max known a.sure)

theorem sure_le {test : Test} {i : Input} (h : test.holds i = true) :
    test.sure ≤ i.items.length := by
  induction test with
  | within c =>
      rw [holds] at h
      unfold sure
      split
      · exact Nat.zero_le _
      · exact i.one_le_of_current fun hending ↦ ‹¬_› (hending ▸ h)
  | outside c =>
      simp only [holds, Bool.not_eq_true'] at h
      unfold sure
      split
      · refine i.one_le_of_current fun hending ↦ ?_
        simp_all
      · exact Nat.zero_le _
  | ahead c =>
      rw [holds] at h
      unfold sure
      split
      · exact Nat.zero_le _
      · exact i.two_le_of_upcoming fun hending ↦ ‹¬_› (hending ▸ h)
  | both a b iha ihb =>
      simp only [holds, Bool.and_eq_true] at h
      exact Nat.max_le.mpr ⟨iha h.1, ihb h.2⟩

variable {q : Sequel} {s t : State}

theorem has_current (h : s.Abreast q t) {known : Nat} (hknown : known ≤ s.input.items.length)
    {c : TokenClass}
    (hc : (1 ≤ known || c.has (.terminal .classWord) == c.has .ending) = true) :
    c.has t.input.current = c.has s.input.current := by
  simp only [Bool.or_eq_true, decide_eq_true_eq, beq_iff_eq] at hc
  rcases hc with hone | hsame
  · obtain ⟨item, rest, hitems⟩ := List.exists_cons_of_length_pos (hone.trans hknown)
    rw [h.current_of_cons hitems]
  · exact h.current.congr hsame

theorem holds_of_abreast (h : s.Abreast q t) {known : Nat}
    (hknown : known ≤ s.input.items.length) {test : Test} (hsettled : test.settled known = true) :
    test.holds t.input = test.holds s.input := by
  induction test generalizing known with
  | within c => exact has_current h hknown hsettled
  | outside c => exact congrArg not (has_current h hknown hsettled)
  | ahead c =>
      simp only [settled, Bool.and_eq_true, decide_eq_true_eq, beq_iff_eq] at hsettled
      obtain ⟨hone, hsame⟩ := hsettled
      obtain ⟨item, rest, hitems⟩ := List.exists_cons_of_length_pos (hone.trans hknown)
      exact (h.upcoming hitems).congr hsame
  | both a b iha ihb =>
      simp only [settled, Bool.and_eq_true] at hsettled
      obtain ⟨ha, hb⟩ := hsettled
      rw [holds, holds, iha hknown ha]
      cases hholds : a.holds s.input with
      | false => rfl
      | true => rw [ihb (Nat.max_le.mpr ⟨hknown, sure_le hholds⟩) hb]

end Test

namespace Phrase

/-- Whether a phrase takes tokens unseen and tests what is next only where it may, with so many
tokens known to be left. -/
def confined : Nat → Phrase → Bool
  | _, done => true
  | _, expect t next => t != .classWord && next.confined 0
  | known, take _ next => 1 ≤ known && next.confined (known - 1)
  | known, word _ _ next => next.confined (known - 1)
  | known, node _ _ body next => body.confined known && next.confined 0
  | known, choose test yes no next =>
    test.settled known && yes.confined (max known test.sure) && no.confined known &&
      next.confined 0
  | _, loop test body next =>
    test.settled 0 && body.confined test.sure && next.confined 0
  | _, skip stop next => stop.has (.terminal .classWord) && next.confined 0
  | _, literal next | _, operand _ _ next | _, absent next => next.confined 0

end Phrase

namespace Draft

variable {q : Sequel} {front : List Node} {d e : Draft}

/-- Whatever comes next, a run that has lost its way does not find it again. -/
theorem Together.bind (h : Together q front d e) {front' : List Node} {d' e' : Draft}
    (hadvances : e.state.Advances e'.state)
    (hnext : Abreast q front d e → Together q front' d' e') : Together q front' d' e' :=
  h.elim hnext fun hlost ↦ .inr (hlost.of_advances hadvances)

theorem Together.enclose (h : Together q [] d e) (kind : Kind) (faulty : Bool) :
    Together q [] (d.enclose kind faulty) (e.enclose kind faulty) :=
  h.bind (advances_enclose e kind faulty) fun h ↦ .inl (h.enclose (by simp) kind faulty)

theorem Abreast.attach_together (h : Abreast q front d e) {inner inner' : Draft}
    (hinner : Together q [] inner inner') (field : Option Field) :
    Together q front (d.attach field inner) (e.attach field inner') :=
  hinner.imp_left (h.attach · field)

section Loop

variable {test : Test} {round : Draft → Draft}

theorem repeatWhile_of_holds (h : test.holds d.state.input = true) :
    repeatWhile test round d =
      if (round d).state.input.size < d.state.input.size then repeatWhile test round (round d)
      else round d := by
  rw [repeatWhile, if_pos h]

theorem advances_round (hadvances : ∀ e : Draft, e.state.Advances (round e).state)
    (h : test.holds d.state.input = true) :
    (round d).state.Advances (repeatWhile test round d).state := by
  rw [repeatWhile_of_holds h]
  split
  · exact advances_repeatWhile _ test hadvances
  · exact .refl _

/-- Rounds side by side make loops side by side. -/
theorem together_repeatWhile (hadvances : ∀ e : Draft, e.state.Advances (round e).state)
    (htest : ∀ d e : Draft, Abreast q front d e →
      test.holds e.state.input = test.holds d.state.input)
    (hround : ∀ d e : Draft, Abreast q front d e → test.holds d.state.input = true →
      Together q front (round d) (round e))
    (d : Draft) : ∀ e : Draft, Abreast q front d e →
      Together q front (repeatWhile test round d) (repeatWhile test round e) := by
  fun_induction repeatWhile test round d with
  | case1 d hholds next hlt ih =>
      intro e h
      have hholds' := (htest d e h).trans hholds
      refine (hround d e h hholds).bind (advances_round hadvances hholds') fun hnext ↦ ?_
      rw [repeatWhile_of_holds hholds', if_pos ((h.state.size_lt_iff hnext.state).mpr hlt)]
      exact ih (round e) hnext
  | case2 d hholds next hnot =>
      intro e h
      have hholds' := (htest d e h).trans hholds
      refine (hround d e h hholds).bind (advances_round hadvances hholds') fun hnext ↦ ?_
      rw [repeatWhile_of_holds hholds',
        if_neg fun hlt ↦ hnot ((h.state.size_lt_iff hnext.state).mp hlt)]
      exact .inl hnext
  | case3 d hnot =>
      intro e h
      have hnot' : ¬test.holds e.state.input = true := htest d e h ▸ hnot
      rw [repeatWhile, if_neg hnot']
      exact .inl h

end Loop

theorem length_leaf (d : Draft) (field : Option Field) (kind : Kind) (faulty : Bool) :
    (d.leaf field kind faulty).state.input.items.length = d.state.input.items.length - 1 := by
  cases hitems : d.state.input.items with
  | nil => rw [leaf_of_nil d hitems, hitems]; rfl
  | cons item rest => rw [state_leaf d hitems, Input.items_tail, hitems]; rfl

theorem length_word (d : Draft) (field : Option Field) (slot : Slot) :
    d.state.input.items.length - 1 ≤ (d.word field slot).state.input.items.length := by
  unfold word
  split
  · exact (length_leaf d _ _ _).ge
  · exact Nat.sub_le _ 1

end Draft

open Draft

variable {levels : Levels} {expression : Int → State → Draft} {q : Sequel}

/-- Two runs of a confined phrase stay together if the expressions in them do. -/
theorem Phrase.together_run
    (hadvances : ∀ least s, State.Advances s (expression least s).state)
    (hexpression : ∀ least s t, State.Abreast q s t →
      Together q [] (expression least s) (expression least t))
    (p : Phrase) {known : Nat} (hconfined : p.confined known = true) {front : List Node}
    {d e : Draft} (h : Abreast q front d e) (hknown : known ≤ d.state.input.items.length) :
    Together q front (p.run levels expression d) (p.run levels expression e) := by
  -- What is known counts tokens of the shorter run; behind most parts nothing is known.
  induction p generalizing known front d e with
  | done => exact .inl h
  | expect t next ih =>
      simp only [confined, Bool.and_eq_true, bne_iff_ne] at hconfined
      exact ih hconfined.2 (h.expect hconfined.1) (Nat.zero_le _)
  | take field next ih =>
      simp only [confined, Bool.and_eq_true, decide_eq_true_eq] at hconfined
      obtain ⟨item, rest, hitems⟩ := List.exists_cons_of_length_pos (hconfined.1.trans hknown)
      refine ih hconfined.2 (h.take hitems field) ?_
      rw [Draft.take, length_leaf]
      exact Nat.sub_le_sub_right hknown 1
  | word field slot next ih =>
      refine ih hconfined (h.word field slot) ?_
      exact (Nat.sub_le_sub_right hknown 1).trans (length_word d field slot)
  | literal next ih => exact ih hconfined h.literal (Nat.zero_le _)
  | operand field bound next ih =>
      exact (h.attach_together (hexpression _ _ _ h.state) field).bind
        (advances_run hadvances next _) fun hnext ↦ ih hconfined hnext (Nat.zero_le _)
  | node field kind body next ihbody ihnext =>
      simp only [confined, Bool.and_eq_true] at hconfined
      have hbody := (ihbody hconfined.1 (.blank h.state) hknown).enclose kind false
      exact (h.attach_together hbody field).bind (advances_run hadvances next _)
        fun hnext ↦ ihnext hconfined.2 hnext (Nat.zero_le _)
  | choose test yes no next ihyes ihno ihnext =>
      simp only [confined, Bool.and_eq_true] at hconfined
      obtain ⟨⟨⟨htest, hyes⟩, hno⟩, hnext⟩ := hconfined
      have hboth : Together q front
          (if test.holds d.state.input then yes.run levels expression d
            else no.run levels expression d)
          (if test.holds e.state.input then yes.run levels expression e
            else no.run levels expression e) := by
        rw [Test.holds_of_abreast h.state hknown htest]
        split
        · exact ihyes hyes h (Nat.max_le.mpr ⟨hknown, Test.sure_le ‹_›⟩)
        · exact ihno hno h hknown
      exact hboth.bind (advances_run hadvances next _) fun h ↦ ihnext hnext h (Nat.zero_le _)
  | loop test body next ihbody ihnext =>
      simp only [confined, Bool.and_eq_true] at hconfined
      obtain ⟨⟨htest, hbody⟩, hnext⟩ := hconfined
      have hloop : Together q front (d.repeatWhile test (body.run levels expression))
          (e.repeatWhile test (body.run levels expression)) :=
        together_repeatWhile (advances_run hadvances body)
          (fun _ _ h ↦ Test.holds_of_abreast h.state (Nat.zero_le _) htest)
          (fun _ _ h hholds ↦ ihbody hbody h (Test.sure_le hholds)) d e h
      exact hloop.bind (advances_run hadvances next _) fun h ↦ ihnext hnext h (Nat.zero_le _)
  | skip stop next ih =>
      simp only [confined, Bool.and_eq_true] at hconfined
      exact ih hconfined.2 (h.skip hconfined.1) (Nat.zero_le _)
  | absent next ih => exact ih hconfined h.absent (Nat.zero_le _)

theorem Phrase.opening_of_abreast {s t : State} (h : s.Abreast q t) :
    opening t.input.current t.input.upcoming = opening s.input.current s.input.upcoming := by
  cases hitems : s.input.items with
  | nil =>
      have hcurrent : s.input.current = .ending := by rw [Input.current, hitems]
      have halike := h.current
      rw [hcurrent] at halike ⊢
      rcases halike with hending | ⟨-, hclass⟩
      · rw [hending]
        rfl
      · rw [hclass]
        rfl
  | cons item rest =>
      rw [h.current_of_cons hitems]
      refine (h.upcoming hitems).congr ?_
      cases s.input.current <;> rfl

/-- The first construct of an expression takes the second token only if there is one. -/
theorem Phrase.confined_opening (i : Input) :
    (opening i.current i.upcoming).confined (min 2 i.items.length) = true := by
  unfold Input.current Input.upcoming
  rcases i.items with - | ⟨first, - | ⟨second, rest⟩⟩
  · rfl
  · dsimp only
    generalize first.token.kind = k
    cases k with
    | terminal t => cases t <;> rfl
    | _ => rfl
  · have hname : ∀ k : TokenKind, (if k = .terminal .assign then
        Phrase.node none .assignmentExpression assignment .done
        else if k = .terminal .leftParen then Phrase.node none .dispatchExpression call .done
        else .word none .identifier .done).confined 2 = true := by
      intro k
      split
      · rfl
      · split <;> rfl
    have hcount : min 2 (first :: second :: rest).length = 2 :=
      Nat.min_eq_left (Nat.le_add_left 2 rest.length)
    rw [hcount]
    dsimp only
    generalize first.token.kind = k
    cases k with
    | terminal t => cases t <;> rfl
    | identifier => exact hname _
    | typeIdentifier => exact hname _
    | _ => rfl

theorem Continuation.of?_of_alike {least : Int} {k k' : TokenKind} (h : k.Alike k') :
    of? levels least k' = of? levels least k :=
  h.congr rfl

theorem Continuation.confined_of_of? {least : Int} {k : TokenKind} {next : Continuation}
    (h : of? levels least k = some next) : next.phrase.confined 1 = true := by
  obtain ⟨-, rfl⟩ | ⟨o, -, rfl⟩ := of?_cases h <;> rfl

namespace Draft

/-- An expression with what continues it. -/
def continued (levels : Levels) (expression : Int → State → Draft) (next : Continuation)
    (d : Draft) : Draft :=
  (next.phrase.run levels expression ((blank d.state).attach (some next.field) d)).enclose
    next.kind false

theorem climb_of_some {least : Int} {d : Draft} {next : Continuation}
    (h : Continuation.of? levels least d.current = some next) :
    climb levels expression least d =
      if (continued levels expression next d).state.input.size < d.state.input.size then
        climb levels expression least (continued levels expression next d)
      else continued levels expression next d := by
  rw [climb, h]
  rfl

theorem advances_continued (hadvances : ∀ least s, State.Advances s (expression least s).state)
    {least : Int} {d : Draft} {next : Continuation}
    (h : Continuation.of? levels least d.current = some next) :
    (continued levels expression next d).state.Advances
      (climb levels expression least d).state := by
  rw [climb_of_some h]
  split
  · exact advances_climb hadvances least _
  · exact .refl _

theorem together_continued
    (hadvances : ∀ least s, State.Advances s (expression least s).state)
    (hexpression : ∀ least s t, State.Abreast q s t →
      Together q [] (expression least s) (expression least t))
    {least : Int} {d e : Draft} (h : Abreast q [] d e) {next : Continuation}
    (hnext : Continuation.of? levels least d.current = some next) :
    Together q [] (continued levels expression next d) (continued levels expression next e) := by
  have hne : d.current ≠ .ending := by
    intro hending
    rw [hending] at hnext
    cases hnext
  have hinside := (Abreast.blank h.state).attach h (some next.field)
  exact (next.phrase.together_run hadvances hexpression (Continuation.confined_of_of? hnext)
    hinside (d.state.input.one_le_of_current hne)).enclose next.kind false

theorem together_climb
    (hadvances : ∀ least s, State.Advances s (expression least s).state)
    (hexpression : ∀ least s t, State.Abreast q s t →
      Together q [] (expression least s) (expression least t))
    (least : Int) (d : Draft) : ∀ e : Draft, Abreast q [] d e →
      Together q [] (climb levels expression least d) (climb levels expression least e) := by
  fun_induction climb levels expression least d with
  | case1 d hnone =>
      intro e h
      rw [climb, (Continuation.of?_of_alike h.current).trans hnone]
      exact .inl h
  | case2 d next hnext inside whole hlt ih =>
      intro e h
      have hnext' := (Continuation.of?_of_alike h.current).trans hnext
      refine (together_continued hadvances hexpression h hnext).bind
        (advances_continued hadvances hnext') fun hwhole ↦ ?_
      rw [climb_of_some hnext', if_pos ((h.state.size_lt_iff hwhole.state).mpr hlt)]
      exact ih _ hwhole
  | case3 d next hnext inside whole hnot =>
      intro e h
      have hnext' := (Continuation.of?_of_alike h.current).trans hnext
      refine (together_continued hadvances hexpression h hnext).bind
        (advances_continued hadvances hnext') fun hwhole ↦ ?_
      rw [climb_of_some hnext', if_neg fun hlt ↦ hnot ((h.state.size_lt_iff hwhole.state).mp hlt)]
      exact .inl hwhole

/-- Expressions in states side by side stay side by side. -/
theorem together_expression (depth : Nat) (least : Int) {s t : State} (h : s.Abreast q t) :
    Together q [] (Draft.expression levels depth least s)
      (Draft.expression levels depth least t) := by
  induction depth generalizing least s t with
  | zero => exact together_tooDeep h
  | succ depth ih =>
      have hadvances : ∀ least s, State.Advances s (Draft.expression levels depth least s).state :=
        advances_expression depth
      let opening := Phrase.opening s.input.current s.input.upcoming
      have hopening : Together q [] (opening.run levels (Draft.expression levels depth) (blank s))
          (opening.run levels (Draft.expression levels depth) (blank t)) :=
        opening.together_run hadvances (fun least s t ↦ ih least) (Phrase.confined_opening s.input)
          (Abreast.blank h) (Nat.min_le_right 2 _)
      rw [Draft.expression, Draft.expression, Phrase.opening_of_abreast h]
      exact hopening.bind (advances_climb hadvances least _)
        fun hopening ↦ together_climb hadvances (fun least s t ↦ ih least) least _ _ hopening

end Draft

end CoolTree
