import CoolTree.Proofs.Meaning

/-!
# The recognizer reads every program

Behind an expression the stack is what it was, with a symbol for what may follow on top. That
symbol gives way to every token that does not go on with the expression, so that lists and
constructs are read part by part.
-/

namespace CoolTree

open Sentence

namespace Recognizer

open Pending

variable {rest : List Pending} {w : List TokenKind}

theorem run_after {x : Pending} {k : TokenKind} {xs : List Pending} (h : x.after? k = some xs) :
    run (x :: rest) (k :: w) = run (xs ++ rest) w :=
  run_cons (step_of_after? h rest) w

theorem run_skip {x : Pending} {k : TokenKind} (h : x.after? k = none) (hx : x.isNullable = true) :
    run (x :: rest) (k :: w) = run rest (k :: w) := by
  rw [run, run, step_of_isNullable h hx]

@[simp] theorem run_terminal (t : Terminal) :
    run (terminal t :: rest) (.terminal t :: w) = run rest w := by
  have h : (terminal t).after? (.terminal t) = some [] := by simp [terminal, after?]
  exact run_after h

theorem run_name {k : TokenKind} (h : k.isIdentifier = true) :
    run (name :: rest) (k :: w) = run rest w := by
  have h : name.after? k = some [] := behindName?_eq_some_iff.mpr ⟨h, rfl⟩
  exact run_after h

theorem run_typeName {k : TokenKind} (h : k.isTypeName = true) :
    run (typeName :: rest) (k :: w) = run rest w := by
  have h : typeName.after? k = some [] := by simp [after?, h]
  exact run_after h

/-- Tokens that go on with no expression. -/
def Boundary (k : TokenKind) : Prop :=
  k ≠ .terminal .assign ∧ k ≠ .terminal .leftParen ∧ afterTail? k = none

instance (k : TokenKind) : Decidable (Boundary k) :=
  inferInstanceAs (Decidable (_ ∧ _ ∧ _))

/-- Texts that the recognizer reads as an expression. -/
structure Covers (e : List TokenKind) : Prop where
  begins : ∃ k v xs, e = k :: v ∧ afterStart? k = some xs
  settles : ∀ rest, ∃ x, (x = tail ∨ x = nameTail) ∧ run (expression :: rest) e = some (x :: rest)

namespace Covers

variable {e : List TokenKind}

theorem run_boundary {x : Pending} (hx : x = tail ∨ x = nameTail) {k : TokenKind}
    (hk : Boundary k) : run (x :: rest) (k :: w) = run rest (k :: w) := by
  obtain ⟨hassign, hparen, htail⟩ := hk
  rcases hx with rfl | rfl
  · exact run_skip htail rfl
  · exact run_skip (by simp [after?, hassign, hparen, htail]) rfl

/-- In front of a boundary an expression is read as a whole. -/
theorem run_append (h : Covers e) {k : TokenKind} (hk : Boundary k) :
    run (expression :: rest) (e ++ k :: w) = run rest (k :: w) := by
  obtain ⟨x, hx, hrun⟩ := h.settles rest
  rw [Recognizer.run_append, hrun, Option.bind_some, run_boundary hx hk]

theorem run_append_tail (h : Covers e) {k : TokenKind} {xs : List Pending}
    (hk : afterTail? k = some xs) :
    run (expression :: rest) (e ++ k :: w) = run (xs ++ rest) w := by
  obtain ⟨x, hx, hrun⟩ := h.settles rest
  rw [Recognizer.run_append, hrun, Option.bind_some]
  rcases hx with rfl | rfl
  · exact run_after hk
  · have hne : k ≠ .terminal .assign ∧ k ≠ .terminal .leftParen := by
      constructor <;> rintro rfl <;> simp [afterTail?, Operator.ofTerminal?, Operator.all,
        Operator.terminal] at hk
    exact run_after (by simp [after?, hne, hk])

/-- Where an expression may start, it is read with what is to come behind it. -/
theorem run_map (h : Covers e) {x : Pending} (ys : List Pending)
    (hx : ∀ k xs, afterStart? k = some xs → x.after? k = some (xs ++ ys)) :
    run (x :: rest) (e ++ w) = run (expression :: (ys ++ rest)) (e ++ w) := by
  obtain ⟨k, v, xs, rfl, hk⟩ := h.begins
  rw [List.cons_append, run_after (hx k xs hk), run_after (x := expression) hk, List.append_assoc]

end Covers

theorem Covers.begins_append {e : List TokenKind} (h : Covers e) (w : List TokenKind) :
    ∃ k v xs, e ++ w = k :: v ∧ afterStart? k = some xs := by
  obtain ⟨k, v, xs, rfl, hk⟩ := h.begins
  exact ⟨k, v ++ w, xs, rfl, hk⟩

theorem afterStart?_of_isIdentifier {k : TokenKind} (h : k.isIdentifier = true) :
    afterStart? k = some [nameTail] := by
  cases k <;> simp_all [TokenKind.isIdentifier, afterStart?]

theorem run_flatMap {stack : List Pending} {t : Terminal} {parts : List (List TokenKind)}
    (ht : Boundary (.terminal t)) (hparts : ∀ part ∈ parts, ∀ k, Boundary k → ∀ w,
      run stack (.terminal t :: (part ++ k :: w)) = run stack (k :: w))
    {k : TokenKind} (hk : Boundary k) :
    run stack (parts.flatMap (.terminal t :: ·) ++ k :: w) = run stack (k :: w) := by
  induction parts with
  | nil => rfl
  | cons part parts ih =>
      obtain ⟨hpart, hparts⟩ := List.forall_mem_cons.mp hparts
      rw [← ih hparts, List.flatMap_cons, List.cons_append, List.cons_append, List.append_assoc]
      cases parts with
      | nil => exact hpart k hk w
      | cons next parts => exact hpart _ ht _

/-- Separated parts are read one after the other, the first one on its own. -/
theorem run_separated {first : List Pending} (more : List Pending) {t : Terminal}
    {parts : List (List TokenKind)} (ht : Boundary (.terminal t)) (hne : parts ≠ [])
    (hfirst : ∀ part ∈ parts, ∀ k, Boundary k → ∀ w,
      run first (part ++ k :: w) = run more (k :: w))
    (hmore : ∀ part ∈ parts, ∀ k, Boundary k → ∀ w,
      run more (.terminal t :: (part ++ k :: w)) = run more (k :: w))
    {k : TokenKind} (hk : Boundary k) :
    run first (separated t parts ++ k :: w) = run more (k :: w) := by
  cases parts with
  | nil => exact (hne rfl).elim
  | cons part parts =>
      have hpart := hfirst part List.mem_cons_self
      have hparts := fun part hmem ↦ hmore part (List.mem_cons_of_mem _ hmem)
      rw [← run_flatMap ht hparts hk, separated, List.append_assoc]
      cases parts with
      | nil => exact hpart k hk w
      | cons next parts => exact hpart _ ht _

theorem run_terminated {stack : List Pending} {t : Terminal} {parts : List (List TokenKind)}
    (h : ∀ part ∈ parts, ∀ w, run stack (part ++ .terminal t :: w) = run stack w) :
    run stack (terminated t parts ++ w) = run stack w := by
  induction parts with
  | nil => rfl
  | cons part parts ih =>
      obtain ⟨hpart, hparts⟩ := List.forall_mem_cons.mp h
      rw [terminated, List.flatMap_cons, List.append_assoc, List.append_assoc,
        List.singleton_append, hpart]
      exact ih hparts

theorem run_initializer {value : Option (List TokenKind)} (h : ∀ e ∈ value, Covers e)
    {k : TokenKind} (hk : Boundary k) :
    run (initializer :: rest) (headed .assign value ++ k :: w) = run rest (k :: w) := by
  cases value with
  | none => exact run_skip (by simp [after?, behind?, hk.1]) rfl
  | some e =>
      rw [headed, List.cons_append, run_after (x := initializer) rfl]
      exact (h e rfl).run_append hk

theorem run_declaration {d : Declaration} (h : d.Proper) :
    run (name :: terminal .colon :: typeName :: rest) (d.word ++ w) = run rest w := by
  simp only [Declaration.word, List.cons_append, List.nil_append]
  rw [run_name h.1, run_terminal, run_typeName h.2]

theorem run_named {d : Declaration} (h : d.Proper) {x : Pending} {xs : List Pending}
    (hx : x.after? d.name = some xs) :
    run (x :: rest) (d.word ++ w) = run (name :: (xs ++ rest)) (d.word ++ w) := by
  simp only [Declaration.word, List.cons_append]
  rw [run_after hx, run_name h.1]

theorem run_variable {v : Variable} (h : v.Proper) (hvalue : ∀ e ∈ v.value, Covers e)
    {k : TokenKind} (hk : Boundary k) :
    run (name :: terminal .colon :: typeName :: initializer :: rest) (v.word ++ k :: w) =
      run rest (k :: w) := by
  rw [Variable.word, List.append_assoc, run_declaration h, run_initializer hvalue hk]

theorem run_arm {a : Arm} (h : a.Proper) (hvalue : Covers a.value) {k : TokenKind}
    (hk : Boundary k) :
    run (name :: terminal .colon :: typeName :: terminal .arrow :: expression :: rest)
      (a.word ++ k :: w) = run rest (k :: w) := by
  rw [Arm.word, List.append_assoc, run_declaration h, List.cons_append, run_terminal,
    hvalue.run_append hk]

theorem run_arguments {as : List (List TokenKind)} (h : ∀ a ∈ as, Covers a) :
    run (arguments :: terminal .rightParen :: rest)
      (separated .comma as ++ .terminal .rightParen :: w) = run rest w := by
  by_cases hne : as = []
  · subst hne
    rw [separated, List.nil_append, run_skip rfl rfl, run_terminal]
  · rw [run_separated (moreArguments :: terminal .rightParen :: rest) (by decide) hne,
      run_skip rfl rfl, run_terminal]
    · intro a ha k hk w
      rw [(h a ha).run_map (x := arguments) [moreArguments]]
      · exact (h a ha).run_append hk
      · intro k xs hk
        simp [after?, hk]
    · intro a ha k hk w
      rw [run_after (x := moreArguments) rfl]
      exact (h a ha).run_append hk
    · decide

theorem run_statements {es : List (List TokenKind)} (h : ∀ e ∈ es, Covers e) :
    run (statements :: rest) (terminated .semicolon es ++ w) = run (statements :: rest) w := by
  refine run_terminated fun e he w ↦ ?_
  rw [(h e he).run_map (x := statements) [terminal .semicolon, statements]]
  · rw [List.cons_append, List.cons_append, List.nil_append, (h e he).run_append (by decide),
      run_terminal]
  · intro k xs hk
    simp [after?, hk]

theorem run_variables {vs : List Variable} (h : ∀ v ∈ vs, v.Proper)
    (hvalues : ∀ v ∈ vs, ∀ e ∈ v.value, Covers e) :
    run (bindings :: terminal .inWord :: rest)
      (separated .comma (vs.map Variable.word) ++ .terminal .inWord :: w) = run rest w := by
  by_cases hne : vs = []
  · subst hne
    rw [List.map_nil, separated, List.nil_append, run_skip rfl rfl, run_terminal]
  · rw [run_separated (moreBindings :: terminal .inWord :: rest) (by decide)
      (by simpa using hne), run_skip rfl rfl, run_terminal]
    · rw [List.forall_mem_map]
      intro v hv k hk w
      have hname : bindings.after? v.name =
          some [terminal .colon, typeName, initializer, moreBindings] :=
        behindName?_eq_some_iff.mpr ⟨(h v hv).1, rfl⟩
      rw [Variable.word, List.append_assoc, run_named (h v hv) hname, ← List.append_assoc]
      exact run_variable (h v hv) (hvalues v hv) hk
    · rw [List.forall_mem_map]
      intro v hv k hk w
      rw [run_after (x := moreBindings) rfl]
      exact run_variable (h v hv) (hvalues v hv) hk
    · decide

theorem run_parameters {ps : List Declaration} (h : ∀ p ∈ ps, p.Proper) :
    run (parameters :: terminal .rightParen :: rest)
      (separated .comma (ps.map Declaration.word) ++ .terminal .rightParen :: w) = run rest w := by
  by_cases hne : ps = []
  · subst hne
    rw [List.map_nil, separated, List.nil_append, run_skip rfl rfl, run_terminal]
  · rw [run_separated (moreParameters :: terminal .rightParen :: rest) (by decide)
      (by simpa using hne), run_skip rfl rfl, run_terminal]
    · rw [List.forall_mem_map]
      intro p hp k hk w
      have hname : parameters.after? p.name = some [terminal .colon, typeName, moreParameters] :=
        behindName?_eq_some_iff.mpr ⟨(h p hp).1, rfl⟩
      rw [run_named (h p hp) hname]
      exact run_declaration (h p hp)
    · rw [List.forall_mem_map]
      intro p hp k hk w
      rw [run_after (x := moreParameters) rfl]
      exact run_declaration (h p hp)
    · decide

theorem after?_of_isIdentifier {k : TokenKind} (h : k.isIdentifier = true) {x : Pending}
    (hx : x = arms ∨ x = armAgain) :
    x.after? k = some [terminal .colon, typeName, terminal .arrow, expression, moreArms] := by
  have hne : k ≠ .terminal .semicolon := by
    rintro rfl
    cases h
  rcases hx with rfl | rfl <;> simp [after?, behindName?, h, hne]

theorem run_arms {as : List Arm} (h : ∀ a ∈ as, a.Proper) (hvalues : ∀ a ∈ as, Covers a.value)
    (closed : Bool) :
    run (arms :: terminal .esacWord :: rest)
      (separated .semicolon (as.map Arm.word) ++
        ((if closed then [.terminal .semicolon] else []) ++ .terminal .esacWord :: w)) =
      run rest w := by
  -- An arm is read alike at the front and behind a semicolon, where none has to come.
  have hfirst : ∀ x, x = arms ∨ x = armAgain → ∀ a ∈ as, ∀ k, Boundary k → ∀ w,
      run (x :: terminal .esacWord :: rest) (a.word ++ k :: w) =
        run (moreArms :: terminal .esacWord :: rest) (k :: w) := by
    intro x hx a ha k hk w
    rw [Arm.word, List.append_assoc, run_named (h a ha) (after?_of_isIdentifier (h a ha).1 hx),
      ← List.append_assoc]
    exact run_arm (h a ha) (hvalues a ha) hk
  have hmore : ∀ part ∈ as.map Arm.word, ∀ k, Boundary k → ∀ w,
      run (moreArms :: terminal .esacWord :: rest) (.terminal .semicolon :: (part ++ k :: w)) =
        run (moreArms :: terminal .esacWord :: rest) (k :: w) := by
    rw [List.forall_mem_map]
    intro a ha k hk w
    rw [run_after (x := moreArms) rfl]
    exact hfirst armAgain (.inr rfl) a ha k hk w
  by_cases hne : as = []
  · subst hne
    cases closed
    · exact (run_skip rfl rfl).trans (run_terminal _)
    · exact (run_after (x := arms) rfl).trans (run_terminal _)
  · have hseparated : ∀ k, Boundary k → ∀ w, run (arms :: terminal .esacWord :: rest)
        (separated .semicolon (as.map Arm.word) ++ k :: w) =
          run (moreArms :: terminal .esacWord :: rest) (k :: w) := by
      intro k hk w
      refine run_separated _ (by decide) (by simpa using hne) ?_ hmore hk
      rw [List.forall_mem_map]
      exact hfirst arms (.inl rfl)
    cases closed
    · simp only [Bool.false_eq_true, if_false, List.nil_append]
      rw [hseparated _ (by decide), run_skip rfl rfl, run_terminal]
    · simp only [if_true, List.cons_append, List.nil_append]
      rw [hseparated _ (by decide), run_after (x := moreArms) rfl, List.cons_append,
        List.nil_append, run_skip rfl rfl, run_terminal]

/-- The recognizer reads every expression. -/
theorem covers_of_expression {e : List TokenKind} (h : Expression e) : Covers e := by
  induction h with
  | @name k hk =>
      have hstart := afterStart?_of_isIdentifier hk
      exact ⟨⟨k, [], _, rfl, hstart⟩, fun rest ↦ ⟨_, .inr rfl, run_after (x := expression) hstart⟩⟩
  | self | integer | string | trueWord | falseWord =>
      exact ⟨⟨_, [], _, rfl, rfl⟩, fun rest ↦ ⟨_, .inl rfl, rfl⟩⟩
  | @assignment k e hk _ ih =>
      have hstart := afterStart?_of_isIdentifier hk
      refine ⟨⟨k, _, _, rfl, hstart⟩, fun rest ↦ ?_⟩
      rw [run_after (x := expression) hstart, List.cons_append, List.nil_append,
        run_after (x := nameTail) rfl]
      exact ih.settles rest
  | @call k as hk _ ih =>
      have hstart := afterStart?_of_isIdentifier hk
      refine ⟨⟨k, _, _, rfl, hstart⟩, fun rest ↦ ⟨tail, .inl rfl, ?_⟩⟩
      rw [Sentence.call, run_after (x := expression) hstart, List.cons_append, List.nil_append,
        run_after (x := nameTail) rfl]
      exact run_arguments ih
  | @dispatch x k as _ hk _ ihx ih =>
      refine ⟨ihx.begins_append _, fun rest ↦ ⟨tail, .inl rfl, ?_⟩⟩
      rw [ihx.run_append_tail (k := .terminal .dot) rfl, call]
      simp only [List.cons_append, List.nil_append]
      rw [run_name hk, run_terminal]
      exact run_arguments ih
  | @staticDispatch x t k as _ ht hk _ ihx ih =>
      refine ⟨ihx.begins_append _, fun rest ↦ ⟨tail, .inl rfl, ?_⟩⟩
      rw [ihx.run_append_tail (k := .terminal .atSign) rfl, call]
      simp only [List.cons_append, List.nil_append]
      rw [run_typeName ht, run_terminal, run_name hk, run_terminal]
      exact run_arguments ih
  | @binary x y o _ _ ihx ihy =>
      refine ⟨ihx.begins_append _, fun rest ↦ ?_⟩
      have ho : afterTail? (.terminal o.terminal) = some [expression] := by cases o <;> rfl
      rw [ihx.run_append_tail ho]
      exact ihy.settles rest
  | comp _ ih | isvoid _ ih | not _ ih =>
      refine ⟨⟨_, _, _, rfl, rfl⟩, fun rest ↦ ?_⟩
      rw [run_after (x := expression) rfl]
      exact ih.settles rest
  | new ht =>
      refine ⟨⟨_, _, _, rfl, rfl⟩, fun rest ↦ ⟨tail, .inl rfl, ?_⟩⟩
      rw [run_after (x := expression) rfl]
      exact run_typeName ht
  | parenthesized _ ih =>
      refine ⟨⟨_, _, _, rfl, rfl⟩, fun rest ↦ ⟨tail, .inl rfl, ?_⟩⟩
      rw [run_after (x := expression) rfl]
      simp only [List.cons_append, List.nil_append]
      rw [ih.run_append (by decide), run_terminal, run_nil]
  | emptyBlock => exact ⟨⟨_, _, _, rfl, rfl⟩, fun rest ↦ ⟨tail, .inl rfl, rfl⟩⟩
  | @block e es _ _ ih ihes =>
      refine ⟨⟨_, _, _, rfl, rfl⟩, fun rest ↦ ⟨tail, .inl rfl, ?_⟩⟩
      have hblock : ∀ k xs, afterStart? k = some xs →
          block.after? k = some (xs ++ [terminal .semicolon, statements]) := by
        intro k xs hk
        have hne : k ≠ .terminal .semicolon := by
          rintro rfl
          cases hk
        simp [after?, hne, hk]
      rw [run_after (x := expression) rfl, terminated, List.flatMap_cons]
      simp only [List.cons_append, List.nil_append, List.append_assoc]
      rw [ih.run_map _ hblock]
      simp only [List.cons_append, List.nil_append]
      rw [ih.run_append (by decide), run_terminal]
      have hstatements : run (statements :: terminal .rightBrace :: tail :: rest)
          (terminated .semicolon es ++ [.terminal .rightBrace]) =
            run (statements :: terminal .rightBrace :: tail :: rest) [.terminal .rightBrace] :=
        run_statements ihes
      rw [terminated] at hstatements
      rw [hstatements, run_skip rfl rfl, run_terminal, run_nil]
  | @conditional c t f _ _ _ ihc iht ihf =>
      refine ⟨⟨_, _, _, rfl, rfl⟩, fun rest ↦ ⟨tail, .inl rfl, ?_⟩⟩
      rw [run_after (x := expression) rfl]
      simp only [List.cons_append, List.nil_append]
      rw [ihc.run_append (by decide), run_terminal]
      cases f with
      | none =>
          rw [headed, List.nil_append, iht.run_append (by decide), run_skip rfl rfl, run_terminal,
            run_nil]
      | some e =>
          rw [headed, List.cons_append, iht.run_append (by decide),
            run_after (x := alternative) rfl, List.cons_append, List.nil_append,
            (ihf e rfl).run_append (by decide), run_terminal, run_nil]
  | loop _ _ ihc ihb =>
      refine ⟨⟨_, _, _, rfl, rfl⟩, fun rest ↦ ⟨tail, .inl rfl, ?_⟩⟩
      rw [run_after (x := expression) rfl]
      simp only [List.cons_append, List.nil_append]
      rw [ihc.run_append (by decide), run_terminal, ihb.run_append (by decide), run_terminal,
        run_nil]
  | letIn hvs _ _ ihvalues ihb =>
      refine ⟨⟨_, _, _, rfl, rfl⟩, fun rest ↦ ?_⟩
      rw [run_after (x := expression) rfl]
      simp only [List.cons_append, List.nil_append]
      rw [run_variables hvs ihvalues]
      exact ihb.settles rest
  | caseOf closed _ has _ ihx ihvalues =>
      refine ⟨⟨_, _, _, rfl, rfl⟩, fun rest ↦ ⟨tail, .inl rfl, ?_⟩⟩
      rw [run_after (x := expression) rfl]
      simp only [List.cons_append, List.nil_append]
      rw [ihx.run_append (by decide), run_terminal, run_arms has ihvalues, run_nil]

theorem run_feature {f : List TokenKind} (h : Feature f) :
    run (features :: rest) (f ++ .terminal .semicolon :: w) = run (features :: rest) w := by
  cases h with
  | method hk hps ht he =>
      have hname : features.after? _ = some [featureRest, terminal .semicolon, features] :=
        behindName?_eq_some_iff.mpr ⟨hk, rfl⟩
      simp only [List.cons_append, List.append_assoc, List.nil_append]
      rw [run_after hname]
      simp only [List.cons_append, List.nil_append]
      rw [run_after (x := featureRest) rfl]
      simp only [List.cons_append, List.nil_append]
      rw [run_parameters hps, run_terminal, run_typeName ht, run_terminal,
        (covers_of_expression he).run_append (by decide), run_terminal, run_terminal]
  | @field v hv hvalue =>
      have hname : features.after? v.name = some [featureRest, terminal .semicolon, features] :=
        behindName?_eq_some_iff.mpr ⟨hv.1, rfl⟩
      simp only [Variable.word, Declaration.word, List.cons_append, List.nil_append]
      rw [run_after hname]
      simp only [List.cons_append, List.nil_append]
      rw [run_after (x := featureRest) rfl]
      simp only [List.cons_append, List.nil_append]
      rw [run_typeName hv.2, run_initializer (fun e he ↦ covers_of_expression (hvalue e he))
        (by decide), run_terminal]

theorem run_class {c : List TokenKind} (h : Class c) :
    run [classes] (c ++ w) = run [classes] w := by
  cases h with
  | @mk t u fs ht hu hfs =>
      have hheritage : ∀ rest w, run (heritage :: terminal .leftBrace :: rest)
          (headed .inheritsWord (u.map ([·])) ++ .terminal .leftBrace :: w) = run rest w := by
        intro rest w
        cases u with
        | none => exact (run_skip rfl rfl).trans (run_terminal _)
        | some u =>
            simp only [Option.map_some, headed, List.cons_append, List.nil_append]
            rw [run_after (x := heritage) rfl, List.cons_append, List.nil_append,
              run_typeName (hu u rfl), run_terminal]
      simp only [List.cons_append, List.append_assoc, List.nil_append]
      rw [run_after (x := classes) rfl]
      simp only [List.cons_append, List.nil_append]
      rw [run_typeName ht, hheritage, run_terminated fun f hf w ↦ run_feature (hfs f hf),
        run_skip rfl rfl, run_terminal, run_terminal]

theorem run_program {w : List TokenKind} (h : Program w) : run [classes] w = some [classes] := by
  obtain ⟨cs, hcs, rfl⟩ := h
  induction cs with
  | nil => rfl
  | cons c cs ih =>
      obtain ⟨hc, hcs⟩ := List.forall_mem_cons.mp hcs
      rw [List.flatten_cons, run_class hc, ih hcs]

/-- The recognizer accepts the programs and nothing else. -/
theorem program_iff {w : List TokenKind} : Program w ↔ refusal [classes] w = none := by
  constructor
  · exact fun h ↦ refusal_eq_none (run_program h) rfl
  · intro h
    obtain ⟨last, hrun, hlast⟩ := run_of_refusal_eq_none h
    exact program_of_run hrun hlast

/-- What is refused starts like a program up to the token that is refused, and no further. -/
theorem viable_of_refusal {w : List TokenKind} {n : Nat} (h : refusal [classes] w = some n) :
    ∃ before behind, w = before ++ behind ∧ before.length = n ∧ Viable before ∧
      match behind with
      | [] => ¬ Program before
      | k :: _ => ¬ Viable (before ++ [k]) := by
  obtain ⟨before, behind, next, rfl, hlength, hrun, hbehind⟩ := of_refusal_eq_some h
  refine ⟨before, behind, rfl, hlength, viable_of_run hrun, ?_⟩
  cases behind with
  | nil =>
      intro hprogram
      rw [List.append_nil, program_iff.mp hprogram] at h
      cases h
  | cons k behind =>
      rintro ⟨rest, hprogram⟩
      have hwhole := run_program hprogram
      rw [List.append_assoc, run_append, hrun, Option.bind_some, List.cons_append, run] at hwhole
      rw [show step next k = none from hbehind] at hwhole
      cases hwhole

end Recognizer

end CoolTree
