import CoolTree.Proofs.Confined

/-!
# Runs in lockstep

What parsing does next depends on outlines of the next two tokens and on how binding strengths
compare. A relation between drafts that every operation keeps, and that gives both sides the same
outlook, therefore holds of the drafts of two whole files, even if the two runs use different
numbers for the strengths.
-/

namespace CoolTree

/-- A part of a string without its text. -/
def BodyPart.outline : BodyPart → BodyPart
  | content _ => content []
  | escape _ => escape 'n'

/-- A kind of token without the texts in a string and without the unknown character. -/
def TokenKind.outline : TokenKind → TokenKind
  | string parts closed => string (parts.map BodyPart.outline) closed
  | unknown _ => unknown ' '
  | k => k

namespace TokenKind

/-- What is the same for a kind and for its outline is the same for kinds of one outline. -/
theorem congr_outline {k k' : TokenKind} (h : k'.outline = k.outline) {α : Type}
    {f : TokenKind → α} (hf : ∀ k, f k.outline = f k) : f k' = f k := by
  rw [← hf k', h, hf k]

theorem outline_eq_terminal {k : TokenKind} {t : Terminal} :
    k.outline = terminal t ↔ k = terminal t := by
  cases k <;> simp [outline]

@[simp] theorem leafKind_outline (k : TokenKind) : k.outline.leafKind = k.leafKind := by
  cases k <;> rfl

@[simp] theorem isSynchronizing_outline (k : TokenKind) :
    k.outline.isSynchronizing = k.isSynchronizing := by
  cases k <;> rfl

theorem outline_string {k : TokenKind} {parts : List BodyPart} {closed : Bool}
    (h : k.outline = (string parts closed).outline) :
    ∃ parts', k = string parts' closed ∧
      parts'.map BodyPart.outline = parts.map BodyPart.outline := by
  cases k with
  | string parts' closed' =>
      simp only [outline, string.injEq] at h
      exact ⟨parts', by rw [h.2], h.1⟩
  | _ => simp [outline] at h

theorem outline_ne_string {k k' : TokenKind} (h : k'.outline = k.outline)
    (hk : ∀ parts closed, k ≠ string parts closed) (parts : List BodyPart) (closed : Bool) :
    k' ≠ string parts closed := by
  rintro rfl
  obtain ⟨parts', hparts, -⟩ := outline_string h.symm
  exact hk parts' closed hparts

end TokenKind

@[simp] theorem TokenClass.has_outline (c : TokenClass) (k : TokenKind) :
    c.has k.outline = c.has k := by
  induction c with
  | only t => simp [has, beq_eq_beq, TokenKind.outline_eq_terminal]
  | either a b iha ihb => rw [has, has, iha, ihb]
  | _ => cases k <;> rfl

@[simp] theorem Slot.accepts?_outline (slot : Slot) (k : TokenKind) :
    slot.accepts? k.outline = slot.accepts? k := by
  cases slot <;> cases k <;> rfl

@[simp] theorem Continuation.of?_outline (v : Levels) (least : Int) (k : TokenKind) :
    of? v least k.outline = of? v least k := by
  cases k <;> rfl

@[simp] theorem Phrase.opening_outline (current upcoming : TokenKind) :
    opening current.outline upcoming.outline = opening current upcoming := by
  have hname : ∀ construct construct' name : Phrase,
      (if upcoming.outline = .terminal .assign then construct
        else if upcoming.outline = .terminal .leftParen then construct' else name) =
      (if upcoming = .terminal .assign then construct
        else if upcoming = .terminal .leftParen then construct' else name) := by
    intro construct construct' name
    simp only [TokenKind.outline_eq_terminal]
  cases current with
  | identifier => exact hname _ _ _
  | typeIdentifier => exact hname _ _ _
  | terminal t => cases t <;> rfl
  | _ => rfl

/-- Levels for which every operand goes on with the same tokens. -/
def Levels.Interchangeable (v w : Levels) : Prop :=
  ∀ bound k, Continuation.of? w (w.bound bound) k = Continuation.of? v (v.bound bound) k

/-- A relation between drafts that every operation keeps. Related drafts have equally many tokens
ahead, and the next two have the same outlines. -/
structure Lockstep (R : Draft → Draft → Prop) : Prop where
  restart {d e : Draft} : R d e → R (.blank d.state) (.blank e.state)
  size {d e : Draft} : R d e → e.state.input.size = d.state.input.size
  current {d e : Draft} : R d e → e.current.outline = d.current.outline
  upcoming {d e : Draft} :
    R d e → e.state.input.upcoming.outline = d.state.input.upcoming.outline
  expect {d e : Draft} (t : Terminal) : R d e → R (d.expect t) (e.expect t)
  take {d e : Draft} (field : Option Field) : R d e → R (d.take field) (e.take field)
  word {d e : Draft} (field : Option Field) (slot : Slot) :
    R d e → R (d.word field slot) (e.word field slot)
  literal {d e : Draft} : R d e → R d.literal e.literal
  skip {d e : Draft} (stop : TokenClass) : R d e → R (d.skip stop) (e.skip stop)
  absent {d e : Draft} : R d e → R d.absent e.absent
  tooDeep {d e : Draft} : R d e → R (.tooDeep d.state) (.tooDeep e.state)
  attach {d e inner inner' : Draft} (field : Option Field) :
    R d e → R inner inner' → R (d.attach field inner) (e.attach field inner')
  enclose {d e : Draft} (kind : Kind) : R d e → R (d.enclose kind false) (e.enclose kind false)

namespace Lockstep

open Draft

variable {R : Draft → Draft → Prop} {v w : Levels} {x y : Int → State → Draft}

theorem holds (h : Lockstep R) {d e : Draft} (hde : R d e) (test : Test) :
    test.holds e.state.input = test.holds d.state.input := by
  have hcurrent : e.state.input.current.outline = d.state.input.current.outline := h.current hde
  induction test with
  | within c => exact TokenKind.congr_outline hcurrent c.has_outline
  | outside c => exact congrArg not (TokenKind.congr_outline hcurrent c.has_outline)
  | ahead c => exact TokenKind.congr_outline (h.upcoming hde) c.has_outline
  | both a b iha ihb => rw [Test.holds, Test.holds, iha, ihb]

theorem opening (h : Lockstep R) {d e : Draft} (hde : R d e) :
    Phrase.opening e.state.input.current e.state.input.upcoming =
      Phrase.opening d.state.input.current d.state.input.upcoming := by
  have hcurrent : e.state.input.current.outline = d.state.input.current.outline := h.current hde
  rw [← Phrase.opening_outline, hcurrent, h.upcoming hde, Phrase.opening_outline]

theorem repeatWhile (h : Lockstep R) {test : Test} {round round' : Draft → Draft}
    (hround : ∀ d e : Draft, R d e → R (round d) (round' e)) (d : Draft) :
    ∀ e : Draft, R d e → R (Draft.repeatWhile test round d) (Draft.repeatWhile test round' e) := by
  fun_induction Draft.repeatWhile test round d with
  | case1 d hholds next hlt ih =>
      intro e hde
      have hnext := hround d e hde
      rw [repeatWhile_of_holds ((h.holds hde test).trans hholds),
        if_pos (by rwa [h.size hnext, h.size hde])]
      exact ih _ hnext
  | case2 d hholds next hnot =>
      intro e hde
      have hnext := hround d e hde
      rw [repeatWhile_of_holds ((h.holds hde test).trans hholds),
        if_neg (by rwa [h.size hnext, h.size hde])]
      exact hnext
  | case3 d hnot =>
      intro e hde
      rw [Draft.repeatWhile, h.holds hde test, if_neg hnot]
      exact hde

/-- Two runs of a phrase are in lockstep if the expressions in them are. -/
theorem run (h : Lockstep R)
    (hexpression : ∀ bound d e, R d e → R (x (v.bound bound) d.state) (y (w.bound bound) e.state))
    (p : Phrase) {d e : Draft} (hde : R d e) : R (p.run v x d) (p.run w y e) := by
  induction p generalizing d e with
  | done => exact hde
  | expect t next ih => exact ih (h.expect t hde)
  | take field next ih => exact ih (h.take field hde)
  | word field slot next ih => exact ih (h.word field slot hde)
  | literal next ih => exact ih (h.literal hde)
  | operand field bound next ih => exact ih (h.attach field hde (hexpression bound d e hde))
  | node field kind body next ihbody ihnext =>
      exact ihnext (h.attach field hde (h.enclose kind (ihbody (h.restart hde))))
  | choose test yes no next ihyes ihno ihnext =>
      rw [Phrase.run, Phrase.run, h.holds hde test]
      split
      · exact ihnext (ihyes hde)
      · exact ihnext (ihno hde)
  | loop test body next ihbody ihnext =>
      exact ihnext (h.repeatWhile (fun _ _ ↦ ihbody) d e hde)
  | skip stop next ih => exact ih (h.skip stop hde)
  | absent next ih => exact ih (h.absent hde)

theorem climb (h : Lockstep R)
    (hexpression : ∀ bound d e, R d e → R (x (v.bound bound) d.state) (y (w.bound bound) e.state))
    {least least' : Int} (hleast : ∀ k, Continuation.of? w least' k = Continuation.of? v least k)
    (d : Draft) : ∀ e : Draft, R d e → R (Draft.climb v x least d) (Draft.climb w y least' e) := by
  have hnext : ∀ d e, R d e →
      Continuation.of? w least' e.current = Continuation.of? v least d.current := by
    intro d e hde
    rw [hleast]
    exact TokenKind.congr_outline (h.current hde) (Continuation.of?_outline v least)
  have hwhole : ∀ d e next, R d e → R (continued v x next d) (continued w y next e) := by
    intro d e next hde
    have hinside := h.attach (some next.field) (h.restart hde) hde
    exact h.enclose next.kind (h.run hexpression next.phrase hinside)
  fun_induction Draft.climb v x least d with
  | case1 d hnone =>
      intro e hde
      rw [Draft.climb, (hnext d e hde).trans hnone]
      exact hde
  | case2 d next hsome inside whole hlt ih =>
      intro e hde
      have hboth : R whole (continued w y next e) := hwhole d e next hde
      rw [climb_of_some ((hnext d e hde).trans hsome), if_pos (by rwa [h.size hboth, h.size hde])]
      exact ih _ hboth
  | case3 d next hsome inside whole hnot =>
      intro e hde
      have hboth : R whole (continued w y next e) := hwhole d e next hde
      rw [climb_of_some ((hnext d e hde).trans hsome), if_neg (by rwa [h.size hboth, h.size hde])]
      exact hboth

/-- Expressions are in lockstep if the strengths asked for admit the same tokens. -/
theorem expression (h : Lockstep R) (hlevels : v.Interchangeable w) (depth : Nat)
    {least least' : Int} (hleast : ∀ k, Continuation.of? w least' k = Continuation.of? v least k)
    {d e : Draft} (hde : R d e) :
    R (Draft.expression v depth least d.state) (Draft.expression w depth least' e.state) := by
  induction depth generalizing least least' d e with
  | zero => exact h.tooDeep hde
  | succ depth ih =>
      have hexpression : ∀ bound d e, R d e → R (Draft.expression v depth (v.bound bound) d.state)
          (Draft.expression w depth (w.bound bound) e.state) :=
        fun bound _ _ hde ↦ ih (hlevels bound) hde
      rw [Draft.expression, Draft.expression, h.opening hde]
      exact h.climb hexpression hleast _ _ (h.run hexpression _ (h.restart hde))

/-- Files are in lockstep from the start on. -/
theorem fileDraft (h : Lockstep R) (hlevels : v.Interchangeable w) (depth : Nat)
    {a b : Arrangement}
    (hstart : R (.blank (Tree.initialState a.items)) (.blank (Tree.initialState b.items))) :
    R (Tree.fileDraft v depth a) (Tree.fileDraft w depth b) :=
  h.run (fun bound _ _ ↦ h.expression hlevels depth (hlevels bound)) .file hstart

end Lockstep

end CoolTree
