import CoolTree.Proofs.Acceptance
import CoolTree.Proofs.Makeup
import Mathlib.Algebra.Ring.Int.Defs

/-!
# Keeping account of the tokens taken

Constructs match their terminals one by one, and sums over tokens do not see which one matches
which. A ledger gives each token a weight, such that what a construct is made of weighs nothing, and
each problem that does not count a charge. The account is carried along the parse: from one state to
another, the tokens taken weigh at least what the new problems are charged, unless a problem that
counts is found on the way. A missing token and a skipped one count, so a terminal that is expected
is there, and a phrase weighs what its terminals do. `Phrase.closes` checks that a phrase makes up
for what is open in front of it, and that each of its parts does so by itself.
-/

namespace CoolTree

open Draft

/-- The terminal that the next token is known to be. -/
def Test.terminal? : Test → Option Terminal
  | within (.only t) => some t
  | _ => none

theorem Input.Knows.current_eq {i : Input} {known : List Test} (h : i.Knows known) {t : Terminal}
    (ht : known.findSome? Test.terminal? = some t) : i.current = .terminal t := by
  obtain ⟨test, htest, hone⟩ := List.exists_of_findSome?_eq_some ht
  have hholds := h test htest
  unfold Test.terminal? at hone
  split at hone
  · cases hone
    simpa [Test.holds, TokenClass.has] using hholds
  · cases hone

/-- Whether a phrase makes up for the weight of what is open in front of it, given what is known of
the next tokens. Its parts weigh nothing. -/
def Phrase.closes (weight : TokenKind → Int) : List Test → Int → Phrase → Bool
  | _, opened, done => opened == 0
  | _, opened, expect t next => next.closes weight [] (opened + weight (.terminal t))
  | known, opened, take _ next =>
    match known.findSome? Test.terminal? with
    | some t => next.closes weight (known.filterMap Test.behind?) (opened + weight (.terminal t))
    | none => false
  | known, opened, word _ _ next => next.closes weight (known.filterMap Test.behind?) opened
  | known, opened, node _ _ body next =>
    body.closes weight known 0 && next.closes weight [] opened
  | known, opened, choose test yes no next =>
    yes.closes weight (test.units ++ known) 0 && no.closes weight (test.failing ++ known) 0 &&
      next.closes weight [] opened
  | _, opened, loop test body next =>
    body.closes weight test.units 0 && next.closes weight [] opened
  | _, opened, literal next | _, opened, operand _ _ next | _, opened, skip _ next
  | _, opened, absent next => next.closes weight [] opened

/-- Weights of tokens for which all that is parsed weighs nothing. -/
structure Weighing where
  weight : TokenKind → Int
  weight_eq_zero : ∀ k, (∀ t, k ≠ .terminal t) → weight k = 0
  closes_file : Phrase.file.closes weight [] 0 = true
  closes_constructs :
    ∀ entry ∈ Phrase.constructs, entry.2.2.closes weight entry.1 0 = true
  closes_dispatch : Phrase.dispatch.closes weight [] 0 = true
  closes_binary :
    ∀ o : Operator, (Phrase.binary o).closes weight [.within (.only o.terminal)] 0 = true

theorem Slot.not_terminal_of_accepts? {slot : Slot} {k : TokenKind} {kind : Kind}
    (h : slot.accepts? k = some kind) (t : Terminal) : k ≠ .terminal t := by
  rintro rfl
  cases slot <;> cases h

/-- Weights, and a charge for each problem that does not count. -/
structure Ledger extends Leeway, Weighing where
  charge : SyntaxError → Int

theorem State.Advances.clean {w : Leeway} {s t : State} (h : s.Advances t) (ht : t.Clean w) :
    s.Clean w := by
  obtain ⟨-, -, -, new, herrors, -⟩ := h
  exact fun e he ↦ ht e (herrors ▸ List.mem_append_right new he)

namespace Ledger

variable (l : Ledger)

/-- What is left of the tokens, and what the problems so far are charged. -/
def account (s : State) : Int :=
  (s.input.kinds.map l.weight).sum + (s.errors.map l.charge).sum

/-- The tokens taken between two states make up for `n` and for the charges in between, or there is
a problem that counts. -/
structure Earns (n : Int) (s t : State) : Prop where
  advances : s.Advances t
  le_account : s.Fine l.toLeeway → t.Clean l.toLeeway → n + l.account t ≤ l.account s

namespace Earns

variable {l} {n m : Int} {s t u : State}

theorem refl (s : State) : l.Earns 0 s s :=
  ⟨.refl s, fun _ _ ↦ (Int.zero_add _).le⟩

theorem trans (h : l.Earns n s t) (h' : l.Earns m t u) : l.Earns (n + m) s u := by
  refine ⟨h.advances.trans h'.advances, fun hs hu ↦ ?_⟩
  have ht := h'.advances.clean hu
  have hfirst := h.le_account hs ht
  have hsecond := h'.le_account (h.advances.fine hs ht) hu
  omega

theorem congr (h : l.Earns n s t) (hn : n = m) : l.Earns m s t :=
  hn ▸ h

theorem of_problem (h : s.Advances t) {e : SyntaxError} {before : List SyntaxError}
    (herrors : t.errors = e :: before) (he : ¬l.spares e) : l.Earns n s t :=
  ⟨h, fun _ ht ↦ (he (ht e (herrors ▸ List.mem_cons_self))).elim⟩

theorem of_cons {item : Item} {rest : List Item} (h : s.Advances t)
    (hitems : s.input.items = item :: rest) (hinput : t.input = s.input.tail)
    (herrors : t.errors = s.errors) : l.Earns (l.weight item.token.kind) s t := by
  refine ⟨h, fun _ _ ↦ ?_⟩
  rw [account, account, Input.kinds, Input.kinds, hinput, Input.items_tail, hitems, List.tail_cons,
    herrors, List.map_cons, List.map_cons, List.sum_cons, Int.add_assoc]

end Earns

section Drafts

variable (d : Draft)

theorem earns_leaf {item : Item} {rest : List Item} (h : d.state.input.items = item :: rest)
    (field : Option Field) (kind : Kind) (faulty : Bool) :
    l.Earns (l.weight item.token.kind) d.state (d.leaf field kind faulty).state :=
  have hleaf := input_leaf h field kind faulty
  .of_cons (advances_leaf d field kind faulty) h hleaf.1 hleaf.2

theorem earns_missing (n : Int) (field : Option Field) (kind : Kind) {problem : Problem}
    (hproblem : problem ≠ .tooDeep) : l.Earns n d.state (d.missing field kind problem).state :=
  .of_problem (advances_missing d field kind problem) rfl (l.not_spares hproblem)

theorem earns_skip (stop : TokenClass) : l.Earns 0 d.state (d.skip stop).state := by
  have hadvances := advances_skip d stop
  rcases skip_eq d stop with ⟨-, heq⟩ | ⟨n, w, -, -, heq⟩
  · rw [heq]
    exact .refl d.state
  · rw [heq] at hadvances ⊢
    exact .of_problem hadvances rfl (l.not_spares (by rintro ⟨⟩))

theorem earns_expect (t : Terminal) :
    l.Earns (l.weight (.terminal t)) d.state (d.expect t).state := by
  have hskip := l.earns_skip d (.either (.only t) .synchronizing)
  rw [← Int.zero_add (l.weight _)]
  simp only [expect]
  split
  · rename_i hcurrent
    obtain ⟨item, rest, hitems, hkind⟩ := items_of_current hcurrent (by rintro ⟨⟩)
    exact hskip.trans (hkind ▸ l.earns_leaf _ hitems none (.terminal t) false)
  · exact hskip.trans (l.earns_missing _ _ none (.terminal t) (by rintro ⟨⟩))

theorem earns_take {t : Terminal} (h : d.current = .terminal t) (field : Option Field) :
    l.Earns (l.weight (.terminal t)) d.state (d.take field).state := by
  obtain ⟨item, rest, hitems, hkind⟩ := items_of_current h (by rintro ⟨⟩)
  exact hkind ▸ l.earns_leaf d hitems field _ false

theorem earns_literal : l.Earns 0 d.state d.literal.state := by
  unfold literal
  split
  · rename_i item rest hitems
    split
    · rename_i parts closed hkind
      have hadvances := advances_stringLiteral d hitems hkind
      obtain ⟨-, hinput, -, herrors⟩ := stringLiteral_eq d item parts closed
      have hzero : l.weight item.token.kind = 0 := l.weight_eq_zero _ (by simp [hkind])
      cases closed with
      | true => exact (Earns.of_cons hadvances hitems hinput herrors).congr hzero
      | false => exact .of_problem hadvances herrors (l.not_spares (by rintro ⟨⟩))
    · exact .refl d.state
  · exact .refl d.state

/-- A word weighs nothing, and what was known of the token behind it is then known of the next one,
unless the word is missing. -/
theorem earns_word (field : Option Field) (slot : Slot) :
    l.Earns 0 d.state (d.word field slot).state ∧ ∀ known, d.state.input.Knows known →
      (d.word field slot).state.Clean l.toLeeway →
        (d.word field slot).state.input.Knows (known.filterMap Test.behind?) := by
  unfold word
  split
  · rename_i kind hkind
    obtain ⟨item, rest, hitems, hitem⟩ :=
      items_of_current (d := d) rfl (Slot.ne_ending_of_accepts? hkind)
    have hzero : l.weight item.token.kind = 0 :=
      l.weight_eq_zero _ (hitem ▸ Slot.not_terminal_of_accepts? hkind)
    exact ⟨(l.earns_leaf d hitems field kind false).congr hzero,
      fun known hknown _ ↦ knows_leaf hitems hknown field kind false⟩
  · refine ⟨l.earns_missing d 0 field _ (by rintro ⟨⟩), fun known _ hclean ↦ ?_⟩
    exact (l.not_spares (by rintro ⟨⟩) (hclean _ List.mem_cons_self)).elim

theorem earns_repeatWhile {test : Test} {round : Draft → Draft}
    (h : ∀ d : Draft, test.holds d.state.input = true → l.Earns 0 d.state (round d).state) :
    l.Earns 0 d.state (d.repeatWhile test round).state := by
  fun_induction repeatWhile test round d with
  | case1 d htest _ _ ih => exact (h d htest).trans ih
  | case2 d htest _ _ => exact h d htest
  | case3 d _ => exact .refl d.state

end Drafts

variable {l} {v : Levels} {x : Int → State → Draft}
  (hx : ∀ least s, l.Earns 0 s (x least s).state)

include hx

/-- A phrase makes up for what is open in front of it if it is checked to, and if expressions weigh
nothing. -/
theorem earns_run (p : Phrase) {known : List Test} {opened : Int} {d : Draft}
    (hknown : d.state.input.Knows known) (hp : p.closes l.weight known opened = true) :
    l.Earns (-opened) d.state (p.run v x d).state := by
  induction p generalizing known opened d with
  | done =>
      obtain rfl := beq_iff_eq.mp hp
      exact .refl d.state
  | expect t next ih =>
      have hnext := ih (d := d.expect t) (Input.knows_nil _) hp
      exact ((l.earns_expect d t).trans hnext).congr (by omega)
  | take field next ih =>
      rw [Phrase.closes] at hp
      split at hp
      · rename_i t ht
        have hcurrent : d.current = .terminal t := hknown.current_eq ht
        obtain ⟨item, rest, hitems, -⟩ := items_of_current hcurrent (by rintro ⟨⟩)
        have hnext := ih (d := d.take field) (knows_leaf hitems hknown field _ false) hp
        exact ((l.earns_take d hcurrent field).trans hnext).congr (by omega)
      · cases hp
  | word field slot next ih =>
      obtain ⟨hword, hmore⟩ := l.earns_word d field slot
      have hnext : (d.word field slot).state.Advances (next.run v x (d.word field slot)).state :=
        next.advances_run (fun least s ↦ (hx least s).advances) _
      -- behind a missing word nothing is known, but a missing word counts
      refine ⟨hword.advances.trans hnext, fun hd hclean ↦ ?_⟩
      have hknows := hmore known hknown (hnext.clean hclean)
      exact ((hword.trans (ih hknows hp)).congr (by omega)).le_account hd hclean
  | literal next ih =>
      have hnext := ih (d := d.literal) (Input.knows_nil _) hp
      exact ((l.earns_literal d).trans hnext).congr (by omega)
  | operand field bound next ih =>
      let whole := d.attach field (x (v.bound bound) d.state)
      have hnext := ih (d := whole) (Input.knows_nil _) hp
      exact ((hx (v.bound bound) d.state).trans hnext).congr (by omega)
  | node field kind body next ihbody ihnext =>
      rw [Phrase.closes, Bool.and_eq_true] at hp
      let inner := body.run v x (blank d.state)
      have hbody := ihbody (d := blank d.state) hknown hp.1
      have hwhole : l.Earns 0 d.state (d.attach field (inner.enclose kind false)).state :=
        ⟨hbody.advances.trans (advances_enclose inner kind false), hbody.le_account⟩
      have hnext := ihnext (d := d.attach field (inner.enclose kind false)) (Input.knows_nil _) hp.2
      exact (hwhole.trans hnext).congr (by omega)
  | choose test yes no next ihyes ihno ihnext =>
      simp only [Phrase.closes, Bool.and_eq_true] at hp
      obtain ⟨⟨hyes, hno⟩, hp⟩ := hp
      rw [Phrase.run]
      split
      · rename_i htest
        have hpart := ihyes ((Input.knows_units htest).append hknown) hyes
        exact (hpart.trans (ihnext (Input.knows_nil _) hp)).congr (by omega)
      · rename_i htest
        have hpart := ihno ((Input.knows_failing htest).append hknown) hno
        exact (hpart.trans (ihnext (Input.knows_nil _) hp)).congr (by omega)
  | loop test body next ihbody ihnext =>
      rw [Phrase.closes, Bool.and_eq_true] at hp
      have hpart := l.earns_repeatWhile d fun d htest ↦
        ihbody (d := d) (Input.knows_units htest) hp.1
      exact (hpart.trans (ihnext (Input.knows_nil _) hp.2)).congr (by omega)
  | skip stop next ih =>
      have hnext := ih (d := d.skip stop) (Input.knows_nil _) hp
      exact ((l.earns_skip d stop).trans hnext).congr (by omega)
  | absent next ih =>
      have hnext := ih (d := d.absent) (Input.knows_nil _) hp
      exact ((l.earns_missing d 0 none .identifier (by rintro ⟨⟩)).trans hnext).congr (by omega)

/-- A phrase in front of which nothing is open weighs nothing. -/
theorem earns_zero (p : Phrase) {known : List Test} {d : Draft}
    (hknown : d.state.input.Knows known) (hp : p.closes l.weight known 0 = true) :
    l.Earns 0 d.state (p.run v x d).state :=
  (earns_run hx p hknown hp).congr Int.neg_zero

theorem earns_opens {s : State} {p : Phrase} (h : Phrase.Opens s.input p) :
    l.Earns 0 s (p.run v x (blank s)).state := by
  cases h with
  | @construct known kind body knows mem =>
      refine earns_zero hx _ (d := blank s) knows ?_
      rw [Phrase.closes, l.closes_constructs _ mem]
      rfl
  | plain hplain =>
      obtain ⟨item, rest, hitems, hkind⟩ :=
        items_of_current (d := blank s) (k := s.input.current) rfl
          (by rcases hplain with h | h <;> rw [h] <;> rintro ⟨⟩)
      have hleaf := l.earns_leaf (blank s) hitems none (blank s).current.leafKind false
      have hzero : l.weight item.token.kind = 0 :=
        l.weight_eq_zero _ (by rcases hplain with h | h <;> simp [hkind, h])
      exact hzero ▸ hleaf
  | name | literal | absent | skip => exact earns_zero hx _ (d := blank s) (Input.knows_nil _) rfl

theorem earns_continued {least : Int} {d : Draft} {next : Continuation}
    (h : Continuation.of? v least d.current = some next) :
    l.Earns 0 d.state (continued v x next d).state := by
  let inside := (blank d.state).attach (some next.field) d
  have hrun : l.Earns 0 inside.state (next.phrase.run v x inside).state := by
    obtain ⟨-, rfl⟩ | ⟨o, ho, rfl⟩ := Continuation.of?_cases h
    · exact earns_zero hx _ (Input.knows_nil _) l.closes_dispatch
    · exact earns_zero hx _ (Input.knows_only ho) (l.closes_binary o)
  exact ⟨hrun.advances.trans (advances_enclose _ next.kind false), hrun.le_account⟩

theorem earns_climb (least : Int) (d : Draft) : l.Earns 0 d.state (climb v x least d).state := by
  fun_induction climb v x least d with
  | case1 d _ => exact .refl d.state
  | case2 d next hnext _ _ _ ih => exact (earns_continued hx hnext).trans ih
  | case3 d next hnext _ _ _ => exact earns_continued hx hnext

omit hx

variable (hl : ∀ s, l.Earns 0 s (tooDeep s).state)

include hl

/-- If a missing level is not charged more than it takes, no expression is. -/
theorem earns_expression (v : Levels) (depth : Nat) (least : Int) (s : State) :
    l.Earns 0 s (Draft.expression v depth least s).state := by
  induction depth generalizing least s with
  | zero => exact hl s
  | succ depth ih =>
      exact (earns_opens ih (Phrase.opens_opening s.input)).trans (earns_climb ih least _)

/-- The tokens of a file make up for all that its problems are charged. -/
theorem charges_le {config : Config} {source : String}
    (hitems : l.items = (Tree.arrangement config source).items)
    (hclosed : Sentence.Closed ((Token.significant source.toList).map (·.kind))) (v : Levels)
    (hclean : (Tree.fileDraft v config.maxDepth
      (Tree.arrangement config source)).state.Clean l.toLeeway) :
    ((Tree.fileDraft v config.maxDepth (Tree.arrangement config source)).state.errors.map
        l.charge).sum ≤
      (((Token.significant source.toList).map (·.kind)).map l.weight).sum := by
  have hfile : l.Earns 0 (Tree.initialState (Tree.arrangement config source).items)
      (Tree.fileDraft v config.maxDepth (Tree.arrangement config source)).state :=
    earns_zero (earns_expression hl v config.maxDepth) .file
      (d := blank (Tree.initialState (Tree.arrangement config source).items)) (Input.knows_nil _)
      l.closes_file
  have hle := hfile.le_account (Tree.fine_initialState hitems hclosed) hclean
  have hbefore : l.account (Tree.initialState (Tree.arrangement config source).items) =
      (((Token.significant source.toList).map (·.kind)).map l.weight).sum := by
    rw [account, Tree.kinds_initialState]
    exact Int.add_zero _
  rw [hbefore, account, Input.kinds, Tree.items_end] at hle
  simpa using hle

end Ledger

end CoolTree
