import CoolTree.Proofs.Follow
import CoolTree.Proofs.Reading

/-!
# The constructs follow the recognizer

For each construct the stack in front of it and the one behind it. Where a construct looks ahead,
the stack in front is first written as the symbols of the construct that is chosen.
-/

namespace CoolTree

open Recognizer Pending

namespace Pending

theorem afterStart?_eq_none {k : TokenKind} (h : k.startsExpression = false) :
    afterStart? k = none := by
  unfold afterStart?
  split <;> first | rfl | cases h

theorem exists_afterStart? {k : TokenKind} (h : k.startsExpression = true)
    (hk : ∀ parts, k ≠ .string parts false) : ∃ xs, afterStart? k = some xs := by
  cases k with
  | terminal t => cases t <;> first | exact ⟨_, rfl⟩ | cases h
  | string parts closed =>
      cases closed with
      | true => exact ⟨_, rfl⟩
      | false => exact (hk parts rfl).elim
  | identifier | typeIdentifier | selfWord | integer => exact ⟨_, rfl⟩
  | _ => cases h

end Pending

namespace Input

variable {i : Input} {a b : List Pending}

/-- A symbol that starts with a name stands for the name and what comes behind it. -/
theorem refusal_of_name (hi : i.current.isIdentifier = true) {x : Pending} {xs : List Pending}
    (hx : x.after? i.current = some xs)
    (h : refusal (xs ++ a) i.tail.kinds = refusal b i.tail.kinds) :
    refusal (x :: a) i.kinds = refusal (.name :: b) i.kinds := by
  have hne : i.current ≠ .ending := by
    intro hk
    rw [hk] at hi
    cases hi
  have hname : name.after? i.current = some [] := if_pos hi
  exact refusal_congr_tail hne (step_of_after? hx a) (step_of_after? hname b) h

theorem Plain.refusal_method (hi : i.Plain) (hname : i.current.isIdentifier = true)
    (hparen : i.upcoming = .terminal .leftParen) :
    refusal (.features :: a) i.kinds =
      refusal (.name :: terminal .leftParen :: .parameters :: terminal .rightParen ::
        terminal .colon :: .typeName :: terminal .leftBrace :: .expression ::
        terminal .rightBrace :: terminal .semicolon :: .features :: a) i.kinds := by
  refine refusal_of_name hname (if_pos hname) ?_
  rw [← i.current_tail] at hparen
  exact hi.tail.refusal_congr (fun hend ↦ by cases hparen.symm.trans hend)
    fun _ ↦ by rw [hparen]; rfl

theorem Plain.refusal_attribute (hi : i.Plain) (hname : i.current.isIdentifier = true)
    (hparen : i.upcoming ≠ .terminal .leftParen) :
    refusal (.features :: a) i.kinds =
      refusal (.name :: terminal .colon :: .typeName :: .initializer :: terminal .semicolon ::
        .features :: a) i.kinds := by
  refine refusal_of_name hname (if_pos hname) ?_
  rw [← i.current_tail] at hparen
  refine hi.tail.refusal_congr (fun _ ↦ rfl) fun _ ↦ ?_
  by_cases hcolon : i.tail.current = .terminal .colon
  · rw [hcolon]
    rfl
  · have hrest : featureRest.after? i.tail.current = none :=
      (if_neg hparen).trans (if_neg hcolon)
    have hterminal : (terminal .colon).after? i.tail.current = none := if_neg hcolon
    exact (step_eq_none hrest rfl _).trans (step_eq_none hterminal rfl _).symm

/-- Unless the variables of a `let` are over, there is one. -/
theorem Plain.refusal_variables (hi : i.Plain) (hin : i.current ≠ .terminal .inWord) :
    refusal (.bindings :: terminal .inWord :: a) i.kinds =
      refusal (.name :: terminal .colon :: .typeName :: .initializer :: .moreBindings ::
        terminal .inWord :: a) i.kinds := by
  by_cases hname : i.current.isIdentifier = true
  · exact refusal_of_name hname (if_pos hname) rfl
  · rw [hi.refusal_of_isNullable (x := .bindings) rfl (if_neg hname),
      hi.refusal_eq_zero (x := terminal .inWord) rfl (if_neg hin),
      hi.refusal_eq_zero (x := .name) rfl (if_neg hname)]

theorem refusal_arm (hsemicolon : i.current = .terminal .semicolon)
    (hname : i.upcoming.isIdentifier = true) :
    refusal (.moreArms :: a) i.kinds =
      refusal (terminal .semicolon :: .name :: terminal .colon :: .typeName :: terminal .arrow ::
        .expression :: .moreArms :: a) i.kinds := by
  rw [← i.current_tail] at hname
  have hagain : step (.moreArms :: a) i.current = some (.armAgain :: a) := by
    rw [hsemicolon]
    rfl
  have hafter : (terminal .semicolon).after? i.current = some [] := if_pos hsemicolon
  exact refusal_congr_tail (by simp [hsemicolon]) hagain (step_of_after? hafter _)
    (refusal_of_name hname (if_pos hname) rfl)

theorem Plain.refusal_moreArms (hi : i.Plain)
    (h : ¬(i.current = .terminal .semicolon ∧ i.upcoming.isIdentifier = true)) :
    refusal (.moreArms :: a) i.kinds = refusal (.closing :: a) i.kinds := by
  by_cases hsemicolon : i.current = .terminal .semicolon
  · have hname : ¬i.tail.current.isIdentifier = true := by
      rw [i.current_tail]
      exact fun hname ↦ h ⟨hsemicolon, hname⟩
    have hagain : moreArms.after? i.current = some [.armAgain] := if_pos hsemicolon
    have hclosing : closing.after? i.current = some [] := if_pos hsemicolon
    exact refusal_congr_tail (by simp [hsemicolon]) (step_of_after? hagain a)
      (step_of_after? hclosing a)
      (hi.tail.refusal_of_isNullable (x := .armAgain) rfl (if_neg hname) a)
  · rw [hi.refusal_of_isNullable (x := .moreArms) rfl (if_neg hsemicolon),
      hi.refusal_of_isNullable (x := .closing) rfl (if_neg hsemicolon)]

theorem Plain.refusal_arms (hi : i.Plain) (hname : i.current.isIdentifier = false) :
    refusal (.arms :: a) i.kinds = refusal (.closing :: a) i.kinds := by
  by_cases hsemicolon : i.current = .terminal .semicolon
  · have harms : arms.after? i.current = some [] := if_pos hsemicolon
    have hclosing : closing.after? i.current = some [] := if_pos hsemicolon
    exact refusal_congr_tail (by simp [hsemicolon]) (step_of_after? harms a)
      (step_of_after? hclosing a) rfl
  · have harms : arms.after? i.current = none :=
      (if_neg hsemicolon).trans (if_neg (Bool.eq_false_iff.mp hname))
    rw [hi.refusal_of_isNullable rfl harms,
      hi.refusal_of_isNullable (x := .closing) rfl (if_neg hsemicolon)]

theorem refusal_arms_of_name (hname : i.current.isIdentifier = true) :
    refusal (.arms :: a) i.kinds =
      refusal (.name :: terminal .colon :: .typeName :: terminal .arrow :: .expression ::
        .moreArms :: a) i.kinds := by
  have hsemicolon : i.current ≠ .terminal .semicolon := by
    intro hk
    rw [hk] at hname
    cases hname
  exact refusal_of_name hname ((if_neg hsemicolon).trans (if_pos hname)) rfl

theorem Plain.refusal_name (hi : i.Plain) (hname : i.current.isIdentifier = true)
    (hend : i.upcoming = .ending → a.all isNullable = b.all isNullable)
    (hstep : step (.nameTail :: a) i.upcoming = step b i.upcoming) :
    refusal (.expression :: a) i.kinds = refusal (.name :: b) i.kinds := by
  have hstart : Pending.expression.after? i.current = some [.nameTail] :=
    afterStart?_of_isIdentifier hname
  rw [← i.current_tail] at hend hstep
  exact refusal_of_name hname hstart (hi.tail.refusal_congr hend fun _ ↦ hstep)

theorem step_nameTail {k : TokenKind} (hassign : k ≠ .terminal .assign)
    (hparen : k ≠ .terminal .leftParen) : step (.nameTail :: a) k = step (.tail :: a) k := by
  have hafter : nameTail.after? k = Pending.tail.after? k :=
    (if_neg hassign).trans (if_neg hparen)
  rw [step, step, hafter]
  rfl

/-- A symbol that starts with an expression stands for it and what comes behind it. -/
theorem Plain.refusal_of_expression (hi : i.Plain) {x : Pending} (ys : List Pending)
    (hx : x.after? i.current = (afterStart? i.current).map (· ++ ys))
    (hstart : x.isNullable = true → i.current.startsExpression = true) :
    refusal (x :: a) i.kinds = refusal (.expression :: (ys ++ a)) i.kinds := by
  cases hcurrent : i.current.startsExpression with
  | true =>
      obtain ⟨xs, hxs⟩ := exists_afterStart? hcurrent hi.current_ne_string
      have hne : i.current ≠ .ending := by
        intro hk
        rw [hk] at hcurrent
        cases hcurrent
      have hexpression : expression.after? i.current = some xs := hxs
      refine refusal_congr_tail hne (step_of_after? (hx.trans (by rw [hxs]; rfl)) a)
        (step_of_after? hexpression (ys ++ a)) ?_
      rw [List.append_assoc]
  | false =>
      have hnone : expression.after? i.current = none := afterStart?_eq_none hcurrent
      have hnullable : x.isNullable = false := by
        cases hnull : x.isNullable with
        | true => rw [hstart hnull] at hcurrent; cases hcurrent
        | false => rfl
      rw [hi.refusal_eq_zero hnullable (hx.trans (by rw [afterStart?_eq_none hcurrent]; rfl)),
        hi.refusal_eq_zero rfl hnone]

end Input

namespace Operands.Follows

variable {g : Operands} {credit progress : Nat} {pre : Input → Prop} {b c : List Pending}
  {next : Phrase}

/-- A part that a terminal introduces. -/
theorem optional (x : Pending) (xs : List Pending) {t : Terminal} {p : Phrase}
    (hx : x.isNullable = true) (hafter : ∀ k, x.after? k = behind? t xs k)
    (hp : g.Follows (credit - 1) 0 (fun _ ↦ True) (xs ++ b) b p)
    (hnext : g.Follows credit progress (fun _ ↦ True) b c next) :
    g.Follows credit progress pre (x :: b) c
      (.choose (.within (.only t)) (.take none p) .done next) := by
  refine choose (take (b := xs ++ b) (fun i hi ↦ ?_) hp) (done fun i hplain hi ↦ ?_) hnext
  · have hcurrent : i.current = .terminal t := TokenClass.has_only.mp hi.2
    rw [hcurrent]
    exact ⟨by simp, step_of_after? (by simp [hafter, behind?]) b⟩
  · have hcurrent : i.current ≠ .terminal t := TokenClass.has_only_eq_false.mp hi.2
    exact hplain.refusal_of_isNullable hx (by simp [hafter, behind?, hcurrent]) b

/-- Parts separated by commas: behind each part comes what more there may be. -/
theorem separated (xs : List Pending) (x : Pending) {part : Phrase → Phrase}
    (hx : x.isNullable = true) (hafter : ∀ k, x.after? k = behind? .comma (xs ++ [x]) k)
    (hpart : ∀ {pre : Input → Prop} {c : List Pending} {next : Phrase},
      g.Follows 0 0 (fun _ ↦ True) (x :: b) c next →
        g.Follows 0 0 pre (xs ++ x :: b) c (part next)) :
    g.Follows 0 0 pre (xs ++ x :: b) b (Phrase.separated part) := by
  refine hpart (loop (take (b := xs ++ x :: b) (fun i hi ↦ ?_) ?_) (done fun i hplain hi ↦ ?_))
  · have hcurrent : i.current = .terminal .comma := TokenClass.has_only.mp hi
    rw [hcurrent]
    refine ⟨by simp, ?_⟩
    rw [step_of_after? ((hafter _).trans (if_pos rfl)), List.append_assoc, List.singleton_append]
  · exact hpart finish
  · have hcurrent : i.current ≠ .terminal .comma := TokenClass.has_only_eq_false.mp hi
    exact hplain.refusal_of_isNullable hx (by simp [hafter, behind?, hcurrent]) b

theorem declaration :
    g.Follows credit 3 pre (.name :: terminal .colon :: .typeName :: b) b .declaration :=
  word rfl (expect (word rfl finish))

theorem initializer {x : Pending} (hx : Sealed (x :: b))
    (h : g.Follows 0 0 (fun _ ↦ True) (x :: b) c next) :
    g.Follows 0 0 pre (.initializer :: x :: b) c
      (.choose (.within (.only .assign)) .initializer .done next) :=
  optional .initializer [.expression] rfl (fun _ ↦ rfl) (whole hx finish) h

theorem parameters :
    g.Follows 0 0 pre (terminal .leftParen :: .parameters :: terminal .rightParen :: b) b
      .parameters := by
  refine expect (choose (convert (separated [.name, terminal .colon, .typeName] .moreParameters rfl
    (fun _ ↦ rfl) fun hnext ↦ node declaration hnext) fun i _ hi ↦ ?_) (done fun i hplain hi ↦ ?_)
    (expect finish))
  · exact Input.refusal_of_name hi.2 (if_pos hi.2) rfl
  · exact hplain.refusal_of_isNullable (x := .parameters) rfl
      (if_neg (Bool.eq_false_iff.mp hi.2)) _

theorem arguments :
    g.Follows 0 0 pre (terminal .leftParen :: .arguments :: terminal .rightParen :: b) b
      .arguments := by
  refine expect (choose (convert (separated [.expression] .moreArguments rfl (fun _ ↦ rfl)
    fun hnext ↦ whole (.moreArguments (.terminal rfl)) hnext) fun i hplain hi ↦ ?_)
    (done fun i hplain hi ↦ ?_) (expect finish))
  · exact hplain.refusal_of_expression (x := .arguments) [.moreArguments] rfl fun _ ↦ hi.2
  · exact hplain.refusal_of_isNullable rfl (by rw [Pending.after?, afterStart?_eq_none hi.2]; rfl) _

theorem call :
    g.Follows 1 1 pre
      (.name :: terminal .leftParen :: .arguments :: terminal .rightParen :: b) b .call :=
  word rfl (node arguments finish)

theorem method :
    g.Follows 0 0 pre
      (.name :: terminal .leftParen :: .parameters :: terminal .rightParen :: terminal .colon ::
        .typeName :: terminal .leftBrace :: .expression :: terminal .rightBrace :: b) b
      .method :=
  word rfl (node parameters (expect (word rfl (expect
    (whole (.terminal rfl) (expect finish))))))

theorem attributeItem {x : Pending} (hx : Sealed (x :: b)) :
    g.Follows 0 0 pre (.name :: terminal .colon :: .typeName :: .initializer :: x :: b) (x :: b)
      .attributeItem :=
  word rfl (expect (word rfl (initializer hx finish)))

theorem feature :
    g.Follows 0 1 (fun i ↦ i.current.isIdentifier = true) (.features :: b) (.features :: b)
      .feature := by
  refine choose (convert (node method finish) fun i hplain hi ↦ ?_)
    (convert (node (attributeItem (.terminal rfl)) finish) fun i hplain hi ↦ ?_)
    (expect finish)
  · exact hplain.refusal_method hi.1 (TokenClass.has_only.mp hi.2)
  · exact hplain.refusal_attribute hi.1 (TokenClass.has_only_eq_false.mp hi.2)

theorem features :
    g.Follows 0 0 pre (terminal .leftBrace :: .features :: terminal .rightBrace :: b) b
      .features := by
  refine expect (loop (choose (m := 1) (feature.weaken fun i hi ↦ hi.2)
    (skip fun i hplain hi ↦ ?_) finish)
    (convert (expect finish) fun i hplain hi ↦ ?_))
  · have hname : i.current.isIdentifier = false := hi.2
    have hend : ((i.current ≠ .terminal .rightBrace ∧ i.current ≠ .terminal .classWord) ∧
        i.current ≠ .ending) := by
      simpa [Test.holds, TokenClass.has, Phrase.featuresEnd, and_assoc] using hi.1
    obtain ⟨⟨hbrace, hclass⟩, hend⟩ := hend
    refine ⟨hend, by simp [TokenClass.has, hname, hbrace, hclass], ?_⟩
    rw [hplain.refusal_of_isNullable (x := .features) rfl
      (if_neg (Bool.eq_false_iff.mp hname))]
    exact hplain.refusal_eq_zero (x := terminal .rightBrace) rfl (if_neg hbrace) _
  · have hend : (i.current = .terminal .rightBrace ∨ i.current = .terminal .classWord) ∨
        i.current = .ending := by
      have hhas : Phrase.featuresEnd.has i.current = true := by simpa [Test.holds] using hi
      simpa [TokenClass.has, Phrase.featuresEnd, or_assoc] using hhas
    refine hplain.refusal_of_isNullable (x := .features) rfl ?_ _
    rcases hend with (hk | hk) | hk <;> (rw [hk]; rfl)

theorem classItem :
    g.Follows 1 1 (fun i ↦ i.current = .terminal .classWord) (.classes :: b) (.classes :: b)
      .classItem :=
  takeKnown (by simp) rfl (word rfl (optional .heritage [.typeName] rfl (fun _ ↦ rfl)
    (word rfl finish) (node features (expect finish))))

theorem file : g.Follows 1 0 pre [.classes] [] .file := by
  refine loop (choose (m := 1) (node (m := 1) (classItem.weaken fun i hi ↦ ?_)
    finish) (skip fun i hplain hi ↦ ?_) finish)
    (done fun i hplain hi ↦ ?_)
  · exact TokenClass.has_only.mp hi.2
  · have hend : i.current ≠ .ending := by
      simpa [Test.holds, TokenClass.has] using hi.1
    have hclass : i.current ≠ .terminal .classWord := TokenClass.has_only_eq_false.mp hi.2
    refine ⟨hend, hi.2, ?_⟩
    rw [hplain.refusal_of_isNullable (x := .classes) rfl (if_neg hclass),
      Input.kinds_of_current hend]
    rfl
  · rw [hplain.kinds_eq_nil (by simpa [Test.holds, TokenClass.has] using hi)]
    rfl

theorem unary {k : TokenKind} {bound : Bound} (hb : Sealed b) (hk : k ≠ .ending)
    (hstart : afterStart? k = some [.expression]) :
    g.Follows 1 1 (fun i ↦ i.current = k) (.expression :: b) (.tail :: b) (.unary bound) := by
  have hafter : Pending.expression.after? k = some [.expression] := hstart
  exact takeKnown hk (step_of_after? hafter b) (operand hb (fun _ _ ↦ trivial) finish)

theorem newObject :
    g.Follows 1 1 (fun i ↦ i.current = .terminal .newWord) (.expression :: b) (.tail :: b)
      .newObject :=
  takeKnown (by simp) rfl (word rfl finish)

theorem parenthesized :
    g.Follows 1 1 (fun i ↦ i.current = .terminal .leftParen) (.expression :: b) (.tail :: b)
      .parenthesized :=
  takeKnown (by simp) rfl (whole (.terminal rfl) (expect finish))

theorem conditional :
    g.Follows 1 1 (fun i ↦ i.current = .terminal .ifWord) (.expression :: b) (.tail :: b)
      .conditional :=
  takeKnown (by simp) rfl (whole (.terminal rfl) (expect
    (whole (.alternative (.terminal rfl)) (optional .alternative [.expression] rfl
      (fun _ ↦ rfl) (whole (.terminal rfl) finish) (expect finish)))))

theorem whileLoop :
    g.Follows 1 1 (fun i ↦ i.current = .terminal .whileWord) (.expression :: b) (.tail :: b)
      .whileLoop :=
  takeKnown (by simp) rfl (whole (.terminal rfl) (expect
    (whole (.terminal rfl) (expect finish))))

theorem statement :
    g.Follows 0 1 (fun i ↦ i.current.startsExpression = true) (.statements :: b)
      (.statements :: b) .statement :=
  convert (whole (.terminal rfl) (expect finish))
    fun _ hplain hi ↦ hplain.refusal_of_expression (x := .statements)
      [terminal .semicolon, .statements] rfl fun _ ↦ hi

theorem statements :
    g.Follows 0 0 pre (.expression :: terminal .semicolon :: .statements :: b) b
      (.operand none .assign <| .expect .semicolon <|
        .loop (.within .expressionStart) .statement .done) :=
  whole (.terminal rfl) (expect (loop statement (done fun _ hplain hi ↦
    hplain.refusal_of_isNullable (x := .statements) rfl
      (by rw [Pending.after?, afterStart?_eq_none hi]; rfl) _)))

theorem block :
    g.Follows 1 1 (fun i ↦ i.current = .terminal .leftBrace) (.expression :: b) (.tail :: b)
      .block := by
  refine takeKnown (by simp) rfl (choose (m := 0) (take (fun i hi ↦ ?_) finish)
    (convert statements fun i hplain hi ↦ ?_) (expect finish))
  · have hcurrent : i.current = .terminal .semicolon := TokenClass.has_only.mp hi.2
    rw [hcurrent]
    exact ⟨by simp, rfl⟩
  · have hcurrent : i.current ≠ .terminal .semicolon := TokenClass.has_only_eq_false.mp hi.2
    exact hplain.refusal_of_expression (x := .block) [terminal .semicolon, .statements]
      (if_neg hcurrent) (by simp [isNullable])

theorem binder {x : Pending} (hx : Sealed (x :: b))
    (h : g.Follows 0 0 (fun _ ↦ True) (x :: b) c next) :
    g.Follows 0 0 pre (.name :: terminal .colon :: .typeName :: .initializer :: x :: b) c
      (.binder next) :=
  word rfl (expect (word rfl (initializer hx h)))

theorem letIn (hb : Sealed b) :
    g.Follows 1 1 (fun i ↦ i.current = .terminal .letWord) (.expression :: b) (.tail :: b)
      .letIn := by
  refine takeKnown (by simp) rfl (choose (m := 0)
    (convert (separated [.name, terminal .colon, .typeName, .initializer] .moreBindings rfl
      (fun _ ↦ rfl) (binder (.moreBindings (.terminal rfl)))) fun i hplain hi ↦ ?_)
    (done fun i hplain hi ↦ ?_) (expect (operand hb (fun _ _ ↦ trivial) finish)))
  · have hcurrent : i.current ≠ .terminal .inWord := by
      simpa [Test.holds, TokenClass.has] using hi.2
    exact hplain.refusal_variables hcurrent
  · have hcurrent : i.current = .terminal .inWord := by
      simpa [Test.holds, TokenClass.has] using hi.2
    exact hplain.refusal_of_isNullable (x := .bindings) rfl (by rw [hcurrent]; rfl) _

theorem caseArm (hb : Sealed b) :
    g.Follows 0 1 pre
      (.name :: terminal .colon :: .typeName :: terminal .arrow :: .expression :: b) b .caseArm :=
  node declaration (expect (whole hb finish))

theorem armAgain (hb : Sealed b) :
    g.Follows 0 1 (fun i ↦ i.current = .terminal .semicolon ∧ i.upcoming.isIdentifier = true)
      (.moreArms :: b) (.moreArms :: b)
      (.take none <| .node (some .body) .caseArm .caseArm .done) := by
  have htake : g.Follows 0 1 (fun i ↦ i.current = .terminal .semicolon)
      (terminal .semicolon :: .name :: terminal .colon :: .typeName :: terminal .arrow ::
        .expression :: .moreArms :: b) (.moreArms :: b)
      (.take none <| .node (some .body) .caseArm .caseArm .done) :=
    takeKnown (by simp) rfl (node (caseArm (.moreArms hb)) finish)
  exact convert (htake.weaken fun _ hi ↦ hi.1) fun _ _ hi ↦ Input.refusal_arm hi.1 hi.2

theorem arms (hb : Sealed b) :
    g.Follows 0 0 pre
      (.name :: terminal .colon :: .typeName :: terminal .arrow :: .expression :: .moreArms :: b)
      (.closing :: b)
      (.node (some .body) .caseArm .caseArm <|
        .loop (.both (.within (.only .semicolon)) (.ahead .identifier))
          (.take none <| .node (some .body) .caseArm .caseArm .done) .done) := by
  refine node (caseArm (.moreArms hb)) (loop ((armAgain hb).weaken fun i hi ↦ ?_)
    (done fun i hplain hi ↦ ?_))
  · simpa [Test.holds, TokenClass.has] using hi
  · exact hplain.refusal_moreArms (by simpa [Test.holds, TokenClass.has] using hi)

theorem caseOf :
    g.Follows 1 1 (fun i ↦ i.current = .terminal .caseWord) (.expression :: b) (.tail :: b)
      .caseOf := by
  refine takeKnown (by simp) rfl (whole (.terminal rfl) (expect (choose (m := 0)
    (convert (arms (.terminal rfl)) fun i _ hi ↦ ?_)
    (done fun i hplain hi ↦ hplain.refusal_arms hi.2)
    (optional .closing [] rfl (fun _ ↦ rfl) finish
      (expect finish)))))
  exact Input.refusal_arms_of_name hi.2

theorem assignment (hb : Sealed b) :
    g.Follows 1 1 (fun i ↦ i.current.isIdentifier = true ∧ i.upcoming = .terminal .assign)
      (.expression :: b) (.tail :: b) .assignment := by
  have hword : g.Follows 1 1 (fun i ↦ i.upcoming = .terminal .assign)
      (.name :: terminal .assign :: .expression :: b) (.tail :: b) .assignment :=
    wordKnown rfl (fun i hi ↦ i.current_tail.trans hi)
      (takeKnown (by simp) rfl (operand hb (fun _ _ ↦ trivial) finish))
  refine convert (hword.weaken fun _ hi ↦ hi.2) fun i hplain hi ↦ hplain.refusal_name hi.1 ?_ ?_
  · rw [hi.2]
    simp
  · rw [hi.2]
    rfl

theorem functionCall :
    g.Follows 1 1 (fun i ↦ i.current.isIdentifier = true ∧ i.upcoming = .terminal .leftParen)
      (.expression :: b) (.tail :: b) .call := by
  refine convert call fun i hplain hi ↦ hplain.refusal_name hi.1 ?_ ?_
  · rw [hi.2]
    simp
  · rw [hi.2]
    rfl

theorem name :
    g.Follows 1 1 (fun i ↦ i.current.isIdentifier = true ∧ i.upcoming ≠ .terminal .assign ∧
        i.upcoming ≠ .terminal .leftParen) (.expression :: b) (.tail :: b)
      (.word none .identifier .done) :=
  convert (word rfl finish) fun _ hplain hi ↦
    hplain.refusal_name hi.1 (fun _ ↦ rfl) (Input.step_nameTail hi.2.1 hi.2.2)

theorem dispatch :
    g.Follows 0 1 (fun i ↦ i.current = .terminal .dot ∨ i.current = .terminal .atSign)
      (.tail :: b) (.tail :: b) .dispatch := by
  refine choose (m := 0) (take (fun i hi ↦ ?_) (word rfl finish))
    (done fun i hplain hi ↦ ?_) (expect (call.lower (Nat.zero_le _) (Nat.zero_le _)))
  · have hcurrent : i.current = .terminal .atSign := TokenClass.has_only.mp hi.2
    rw [hcurrent]
    exact ⟨by simp, rfl⟩
  · have hcurrent : i.current ≠ .terminal .atSign := TokenClass.has_only_eq_false.mp hi.2
    have hdot := hi.1.resolve_right hcurrent
    exact hplain.refusal_congr (fun hend ↦ by cases hdot.symm.trans hend) fun _ ↦ by rw [hdot]; rfl

theorem binary (o : Operator) (hb : Sealed b) :
    g.Follows 0 1 (fun i ↦ i.current = .terminal o.terminal) (.tail :: b) (.tail :: b)
      (.binary o) :=
  takeKnown (by simp) (by cases o <;> rfl) (operand hb (fun _ _ ↦ trivial) finish)

theorem unstarted {k : TokenKind} (hk : k.startsExpression = false) :
    g.Follows credit progress (fun i ↦ i.current = k) (.expression :: b) c
      (if k.isSynchronizing then .absent .done
        else .skip (.either .synchronizing .expressionStart) .done) := by
  have hrefusal : ∀ i : Input, i.Plain → i.current = k →
      refusal (.expression :: b) i.kinds = some 0 := by
    intro i hplain hi
    subst hi
    exact hplain.refusal_eq_zero (x := .expression) rfl (afterStart?_eq_none hk) b
  split
  · exact absent hrefusal
  · rename_i hsynchronizing
    refine skip fun i hplain hi ↦ ⟨?_, ?_, hrefusal i hplain hi⟩
    · rintro hend
      rw [← hi, hend] at hsynchronizing
      exact hsynchronizing rfl
    · simp [TokenClass.has, hi, hk, hsynchronizing]

theorem named (upcoming : TokenKind) (hb : Sealed b) :
    g.Follows 1 1 (fun i ↦ i.current.isIdentifier = true ∧ i.upcoming = upcoming)
      (.expression :: b) (.tail :: b)
      (if upcoming = .terminal .assign then .node none .assignmentExpression .assignment .done
        else if upcoming = .terminal .leftParen then .node none .dispatchExpression .call .done
        else .word none .identifier .done) := by
  split
  · rename_i hassign
    subst hassign
    exact node (assignment hb) finish
  · rename_i hassign
    split
    · rename_i hparen
      subst hparen
      exact node functionCall finish
    · rename_i hparen
      exact name.weaken fun i hi ↦ ⟨hi.1, hi.2 ▸ hassign, hi.2 ▸ hparen⟩

theorem construct {k upcoming : TokenKind} {kind : Kind} {body : Phrase}
    (h : g.Follows 1 1 (fun i ↦ i.current = k) (.expression :: b) (.tail :: b) body) :
    g.Follows 1 1 (fun i ↦ i.current = k ∧ i.upcoming = upcoming) (.expression :: b) (.tail :: b)
      (.node none kind body .done) :=
  node (h.weaken fun _ hi ↦ hi.1) finish

theorem single {k : TokenKind} (hk : k ≠ .ending) (hstart : afterStart? k = some [.tail]) :
    g.Follows 1 1 (fun i ↦ i.current = k) (.expression :: b) (.tail :: b) (.take none .done) := by
  have hafter : Pending.expression.after? k = some [.tail] := hstart
  exact takeKnown hk (step_of_after? hafter b) finish

theorem stringLiteral {parts : List BodyPart} {closed : Bool} :
    g.Follows 1 1 (fun i ↦ i.current = .string parts closed) (.expression :: b) (.tail :: b)
      (.literal .done) := by
  refine literal (fun i hplain hi ↦ ?_) finish
  cases closed with
  | false => exact (hplain.current_ne_string parts hi).elim
  | true =>
      rw [hi]
      exact ⟨⟨parts, rfl⟩, rfl⟩

/-- Whatever an expression starts with is followed up to where it may go on. -/
theorem opening (current upcoming : TokenKind) (hb : Sealed b) :
    g.Follows 1 1 (fun i ↦ i.current = current ∧ i.upcoming = upcoming) (.expression :: b)
      (.tail :: b) (.opening current upcoming) := by
  unfold Phrase.opening
  -- one case for each token that an expression can start with, and one for all other tokens
  split
  · exact (named upcoming hb).weaken fun i hi ↦ ⟨hi.1 ▸ rfl, hi.2⟩
  · exact (named upcoming hb).weaken fun i hi ↦ ⟨hi.1 ▸ rfl, hi.2⟩
  · exact (single (by simp) rfl).weaken fun i hi ↦ hi.1
  · exact (single (by simp) rfl).weaken fun i hi ↦ hi.1
  · exact stringLiteral.weaken fun i hi ↦ hi.1
  · exact construct (single (by simp) rfl)
  · exact construct (single (by simp) rfl)
  · exact construct conditional
  · exact construct whileLoop
  · exact construct block
  · exact construct (letIn hb)
  · exact construct caseOf
  · exact construct newObject
  · exact construct (unary hb (by simp) rfl)
  · exact construct (unary hb (by simp) rfl)
  · exact construct (unary hb (by simp) rfl)
  · exact construct parenthesized
  · refine (unstarted ?_).weaken fun i hi ↦ hi.1
    unfold TokenKind.startsExpression
    split <;> simp_all

end Operands.Follows

end CoolTree
