import CoolTree.Proofs.Recognizer

/-!
# What the symbols of the recognizer stand for

Each symbol stands for some texts, and a stack for texts of its symbols one behind the other. What
the recognizer reads is right: in front of a text that its new stack stands for, the token makes a
text that the old one stands for. Every stack stands for some text, so whatever the recognizer has
read can go on.
-/

namespace CoolTree

open Sentence

namespace Pending

/-- Whether a symbol stands for a text. -/
def Yields : Pending → List TokenKind → Prop
  | token k, w => w = [k]
  | name, w => ∃ k, k.isIdentifier = true ∧ w = [k]
  | typeName, w => ∃ k, k.isTypeName = true ∧ w = [k]
  | expression, w => Expression w
  | tail, w => ∀ x, Expression x → Expression (x ++ w)
  | nameTail, w => ∀ k, k.isIdentifier = true → Expression (k :: w)
  | arguments, w => ∃ as, (∀ a ∈ as, Expression a) ∧ w = separated .comma as
  | moreArguments, w => ∃ as : List (List TokenKind),
    (∀ a ∈ as, Expression a) ∧ w = as.flatMap (.terminal .comma :: ·)
  | block, w => w = [.terminal .semicolon] ∨
    ∃ e es, Expression e ∧ (∀ s ∈ es, Expression s) ∧ w = terminated .semicolon (e :: es)
  | statements, w => ∃ es, (∀ s ∈ es, Expression s) ∧ w = terminated .semicolon es
  | alternative, w => ∃ f : Option (List TokenKind),
    (∀ e ∈ f, Expression e) ∧ w = headed .elseWord f
  | initializer, w => ∃ value : Option (List TokenKind),
    (∀ e ∈ value, Expression e) ∧ w = headed .assign value
  | bindings, w => ∃ vs : List Variable, (∀ v ∈ vs, v.Proper) ∧
    (∀ v ∈ vs, ∀ e ∈ v.value, Expression e) ∧ w = separated .comma (vs.map Variable.word)
  | moreBindings, w => ∃ vs : List Variable, (∀ v ∈ vs, v.Proper) ∧
    (∀ v ∈ vs, ∀ e ∈ v.value, Expression e) ∧
    w = (vs.map Variable.word).flatMap (.terminal .comma :: ·)
  | arms, w => ∃ (as : List Arm) (closed : Bool), (∀ a ∈ as, a.Proper) ∧
    (∀ a ∈ as, Expression a.value) ∧
    w = separated .semicolon (as.map Arm.word) ++ if closed then [.terminal .semicolon] else []
  | moreArms, w => ∃ (as : List Arm) (closed : Bool), (∀ a ∈ as, a.Proper) ∧
    (∀ a ∈ as, Expression a.value) ∧
    w = (as.map Arm.word).flatMap (.terminal .semicolon :: ·) ++
      if closed then [.terminal .semicolon] else []
  | armAgain, w => w = [] ∨ ∃ (as : List Arm) (closed : Bool), as ≠ [] ∧ (∀ a ∈ as, a.Proper) ∧
    (∀ a ∈ as, Expression a.value) ∧
    w = separated .semicolon (as.map Arm.word) ++ if closed then [.terminal .semicolon] else []
  | closing, w => w = [] ∨ w = [.terminal .semicolon]
  | classes, w => Program w
  | heritage, w => ∃ h : Option TokenKind, (∀ u ∈ h, u.isTypeName = true) ∧
    w = headed .inheritsWord (h.map ([·]))
  | features, w => ∃ fs, (∀ f ∈ fs, Feature f) ∧ w = terminated .semicolon fs
  | featureRest, w => ∀ k, k.isIdentifier = true → Feature (k :: w)
  | parameters, w => ∃ ps : List Declaration, (∀ p ∈ ps, p.Proper) ∧
    w = separated .comma (ps.map Declaration.word)
  | moreParameters, w => ∃ ps : List Declaration, (∀ p ∈ ps, p.Proper) ∧
    w = (ps.map Declaration.word).flatMap (.terminal .comma :: ·)

end Pending

namespace Recognizer

open Pending

/-- Whether a stack stands for a text. -/
def Yields : List Pending → List TokenKind → Prop
  | [], w => w = []
  | x :: rest, w => ∃ u v, x.Yields u ∧ Yields rest v ∧ w = u ++ v

theorem yields_append {xs ys : List Pending} {w : List TokenKind} :
    Yields (xs ++ ys) w ↔ ∃ u v, Yields xs u ∧ Yields ys v ∧ w = u ++ v := by
  induction xs generalizing w with
  | nil => simp [Yields]
  | cons x xs ih =>
      constructor
      · rintro ⟨u, _, hu, hrest, rfl⟩
        obtain ⟨v, z, hv, hz, rfl⟩ := ih.mp hrest
        exact ⟨u ++ v, z, ⟨u, v, hu, hv, rfl⟩, hz, by simp⟩
      · rintro ⟨_, z, ⟨u, v, hu, hv, rfl⟩, hz, rfl⟩
        exact ⟨u, v ++ z, hu, ih.mpr ⟨v, z, hv, hz, rfl⟩, by simp⟩

theorem yields_nil {x : Pending} (h : x.isNullable = true) : x.Yields [] := by
  cases x with
  | token | name | typeName | expression | block | featureRest => simp [isNullable] at h
  | initializer | alternative => exact ⟨none, by simp, rfl⟩
  | heritage => exact ⟨none, by simp, rfl⟩
  | tail => exact fun x hx ↦ by simpa using hx
  | nameTail => exact fun k hk ↦ .name hk
  | arguments | moreArguments | statements | features | parameters | moreParameters =>
      exact ⟨[], by simp, rfl⟩
  | classes => exact ⟨[], by simp, rfl⟩
  | bindings | moreBindings => exact ⟨[], by simp, by simp, rfl⟩
  | arms | moreArms => exact ⟨[], false, by simp, by simp, rfl⟩
  | armAgain | closing => exact .inl rfl

theorem exists_yields (x : Pending) : ∃ w, x.Yields w := by
  by_cases h : x.isNullable = true
  · exact ⟨[], yields_nil h⟩
  · cases x with
    | token k => exact ⟨[k], rfl⟩
    | name => exact ⟨[.identifier], .identifier, rfl, rfl⟩
    | typeName => exact ⟨[.typeIdentifier], .typeIdentifier, rfl, rfl⟩
    | expression => exact ⟨[.selfWord], .self⟩
    | block => exact ⟨[.terminal .semicolon], .inl rfl⟩
    | featureRest =>
        refine ⟨[.terminal .colon, .typeIdentifier], fun k hk ↦ ?_⟩
        exact .field (v := ⟨⟨k, .typeIdentifier⟩, none⟩) ⟨hk, rfl⟩ (by simp)
    | _ => exact (h rfl).elim

theorem exists_stack_yields (stack : List Pending) : ∃ w, Yields stack w := by
  induction stack with
  | nil => exact ⟨[], rfl⟩
  | cons x rest ih =>
      obtain ⟨u, hu⟩ := exists_yields x
      obtain ⟨v, hv⟩ := ih
      exact ⟨u ++ v, u, v, hu, hv, rfl⟩

theorem expression_append_of_tail {x w : List TokenKind} (hx : Expression x)
    (hw : Yields [tail] w) : Expression (x ++ w) := by
  obtain ⟨u, _, hu, rfl, rfl⟩ := hw
  rw [List.append_nil]
  exact hu x hx

/-- What may come behind the first token of an expression makes one with it. -/
theorem expression_of_afterStart? {k : TokenKind} {xs : List Pending} (h : afterStart? k = some xs)
    {w : List TokenKind} (hw : Yields xs w) : Expression (k :: w) := by
  unfold afterStart? at h
  split at h <;> cases h
  · obtain ⟨u, _, hu, rfl, rfl⟩ := hw
    simpa using hu .identifier rfl
  · obtain ⟨u, _, hu, rfl, rfl⟩ := hw
    simpa using hu .typeIdentifier rfl
  · exact expression_append_of_tail .self hw
  · exact expression_append_of_tail .integer hw
  · exact expression_append_of_tail (.string _) hw
  · exact expression_append_of_tail .trueWord hw
  · exact expression_append_of_tail .falseWord hw
  · obtain ⟨e, _, he, rfl, rfl⟩ := hw
    simpa using .comp he
  · obtain ⟨e, _, he, rfl, rfl⟩ := hw
    simpa using .isvoid he
  · obtain ⟨e, _, he, rfl, rfl⟩ := hw
    simpa using .not he
  · obtain ⟨_, z, ⟨t, ht, rfl⟩, hz, rfl⟩ := hw
    exact expression_append_of_tail (.new ht) hz
  · obtain ⟨e, _, he, ⟨_, z, rfl, hz, rfl⟩, rfl⟩ := hw
    simpa using expression_append_of_tail (.parenthesized he) hz
  · obtain ⟨b, _, hb, ⟨_, z, rfl, hz, rfl⟩, rfl⟩ := hw
    rcases hb with rfl | ⟨e, es, he, hes, rfl⟩
    · simpa using expression_append_of_tail .emptyBlock hz
    · simpa using expression_append_of_tail (.block he hes) hz
  · obtain ⟨c, _, hc, ⟨_, _, rfl, ⟨t, _, ht, ⟨_, _, ⟨f, hf, rfl⟩, ⟨_, z, rfl, hz, rfl⟩, rfl⟩, rfl⟩,
      rfl⟩, rfl⟩ := hw
    simpa using expression_append_of_tail (.conditional hc ht hf) hz
  · obtain ⟨c, _, hc, ⟨_, _, rfl, ⟨b, _, hb, ⟨_, z, rfl, hz, rfl⟩, rfl⟩, rfl⟩, rfl⟩ := hw
    simpa using expression_append_of_tail (.loop hc hb) hz
  · obtain ⟨_, _, ⟨vs, hvs, hvalues, rfl⟩, ⟨_, _, rfl, ⟨b, _, hb, rfl, rfl⟩, rfl⟩, rfl⟩ := hw
    simpa using Expression.letIn hvs hvalues hb
  · obtain ⟨x, _, hx, ⟨_, _, rfl, ⟨_, _, ⟨as, closed, has, hvalues, rfl⟩, ⟨_, z, rfl, hz, rfl⟩,
      rfl⟩, rfl⟩, rfl⟩ := hw
    simpa using expression_append_of_tail (.caseOf closed hx has hvalues) hz

theorem expression_of_afterTail? {k : TokenKind} {xs : List Pending} (h : afterTail? k = some xs)
    {w : List TokenKind} (hw : Yields xs w) {x : List TokenKind} (hx : Expression x) :
    Expression (x ++ k :: w) := by
  unfold afterTail? at h
  split at h
  · cases h
    obtain ⟨_, _, ⟨m, hm, rfl⟩, ⟨_, _, rfl, ⟨_, _, ⟨as, has, rfl⟩, ⟨_, z, rfl, hz, rfl⟩, rfl⟩, rfl⟩,
      rfl⟩ := hw
    simpa [call] using expression_append_of_tail (.dispatch hx hm has) hz
  · cases h
    obtain ⟨_, _, ⟨t, ht, rfl⟩, ⟨_, _, rfl, ⟨_, _, ⟨m, hm, rfl⟩, ⟨_, _, rfl, ⟨_, _, ⟨as, has, rfl⟩,
      ⟨_, z, rfl, hz, rfl⟩, rfl⟩, rfl⟩, rfl⟩, rfl⟩, rfl⟩ := hw
    simpa [call] using expression_append_of_tail (.staticDispatch hx ht hm has) hz
  · split at h <;> cases h
    rename_i t _ _ hoperator
    obtain ⟨o, ho⟩ := Option.isSome_iff_exists.mp hoperator
    have ht : o.terminal = t := by simpa using List.find?_some ho
    obtain ⟨y, _, hy, rfl, rfl⟩ := hw
    simpa [← ht] using Expression.binary o hx hy
  · cases h

theorem yields_map_afterStart? {k : TokenKind} {xs rest : List Pending}
    (h : (afterStart? k).map (· ++ rest) = some xs) {w : List TokenKind} (hw : Yields xs w) :
    ∃ e v, Expression e ∧ Yields rest v ∧ k :: w = e ++ v := by
  obtain ⟨start, hstart, rfl⟩ := Option.map_eq_some_iff.mp h
  obtain ⟨u, v, hu, hv, rfl⟩ := yields_append.mp hw
  exact ⟨k :: u, v, expression_of_afterStart? hstart hu, hv, rfl⟩

theorem exists_variable {k : TokenKind} (hk : k.isIdentifier = true) {rest : List Pending}
    {w : List TokenKind} (hw : Yields (terminal .colon :: typeName :: initializer :: rest) w) :
    ∃ (v : Variable) (z : List TokenKind), v.Proper ∧ (∀ e ∈ v.value, Expression e) ∧
      Yields rest z ∧ k :: w = v.word ++ z := by
  obtain ⟨_, _, rfl, ⟨_, _, ⟨t, ht, rfl⟩, ⟨_, z, ⟨value, hvalue, rfl⟩, hz, rfl⟩, rfl⟩, rfl⟩ := hw
  exact ⟨⟨⟨k, t⟩, value⟩, z, ⟨hk, ht⟩, hvalue, hz, by simp [Variable.word, Declaration.word]⟩

theorem exists_arm {k : TokenKind} (hk : k.isIdentifier = true) {rest : List Pending}
    {w : List TokenKind}
    (hw : Yields (terminal .colon :: typeName :: terminal .arrow :: expression :: rest) w) :
    ∃ (a : Arm) (z : List TokenKind), a.Proper ∧ Expression a.value ∧
      Yields rest z ∧ k :: w = a.word ++ z := by
  obtain ⟨_, _, rfl, ⟨_, _, ⟨t, ht, rfl⟩, ⟨_, _, rfl, ⟨e, z, he, hz, rfl⟩, rfl⟩, rfl⟩, rfl⟩ := hw
  exact ⟨⟨⟨k, t⟩, e⟩, z, ⟨hk, ht⟩, he, hz, by simp [Arm.word, Declaration.word]⟩

theorem exists_declaration {k : TokenKind} (hk : k.isIdentifier = true) {rest : List Pending}
    {w : List TokenKind} (hw : Yields (terminal .colon :: typeName :: rest) w) :
    ∃ (d : Declaration) (z : List TokenKind), d.Proper ∧ Yields rest z ∧ k :: w = d.word ++ z := by
  obtain ⟨_, _, rfl, ⟨_, z, ⟨t, ht, rfl⟩, hz, rfl⟩, rfl⟩ := hw
  exact ⟨⟨k, t⟩, z, ⟨hk, ht⟩, hz, by simp [Declaration.word]⟩

/-- What may come behind the first token of a symbol makes a text of the symbol with it. -/
theorem yields_of_after? {x : Pending} {k : TokenKind} {xs : List Pending}
    (h : x.after? k = some xs) {w : List TokenKind} (hw : Yields xs w) : x.Yields (k :: w) := by
  cases x with
  | token k' =>
      simp only [after?] at h
      split at h <;> cases h
      rw [show w = [] from hw, ‹k = k'›]
      rfl
  | name =>
      obtain ⟨hk, rfl⟩ := behindName?_eq_some_iff.mp h
      rw [show w = [] from hw]
      exact ⟨k, hk, rfl⟩
  | typeName =>
      simp only [after?] at h
      split at h <;> cases h
      rw [show w = [] from hw]
      exact ⟨k, ‹_›, rfl⟩
  | expression => exact expression_of_afterStart? h hw
  | tail => exact fun x hx ↦ expression_of_afterTail? h hw hx
  | nameTail =>
      intro m hm
      simp only [after?] at h
      split at h
      · rename_i hk
        cases h
        obtain ⟨e, _, he, rfl, rfl⟩ := hw
        simpa [hk] using Expression.assignment hm he
      · split at h
        · rename_i hk
          cases h
          obtain ⟨_, _, ⟨as, has, rfl⟩, ⟨_, z, rfl, hz, rfl⟩, rfl⟩ := hw
          simpa [hk, call] using expression_append_of_tail (.call hm has) hz
        · exact expression_of_afterTail? h hw (.name hm)
  | arguments =>
      obtain ⟨e, _, he, ⟨_, _, ⟨as, has, rfl⟩, rfl, rfl⟩, hkw⟩ := yields_map_afterStart? h hw
      exact ⟨e :: as, by simpa using ⟨he, has⟩, by simpa [separated] using hkw⟩
  | moreArguments =>
      obtain ⟨rfl, rfl⟩ := behind?_eq_some_iff.mp h
      obtain ⟨e, _, he, ⟨_, _, ⟨as, has, rfl⟩, rfl, rfl⟩, rfl⟩ := hw
      exact ⟨e :: as, by simpa using ⟨he, has⟩, by simp⟩
  | block =>
      simp only [after?] at h
      split at h
      · rename_i hk
        cases h
        exact .inl (by rw [hk, show w = [] from hw])
      · obtain ⟨e, _, he, ⟨_, _, rfl, ⟨_, _, ⟨es, hes, rfl⟩, rfl, rfl⟩, rfl⟩, hkw⟩ :=
          yields_map_afterStart? h hw
        exact .inr ⟨e, es, he, hes, by simpa [terminated] using hkw⟩
  | statements =>
      obtain ⟨e, _, he, ⟨_, _, rfl, ⟨_, _, ⟨es, hes, rfl⟩, rfl, rfl⟩, rfl⟩, hkw⟩ :=
        yields_map_afterStart? h hw
      exact ⟨e :: es, by simpa using ⟨he, hes⟩, by simpa [terminated] using hkw⟩
  | alternative | initializer =>
      obtain ⟨rfl, rfl⟩ := behind?_eq_some_iff.mp h
      obtain ⟨e, _, he, rfl, rfl⟩ := hw
      exact ⟨some e, by rintro _ ⟨⟩; exact he, by simp [headed]⟩
  | bindings =>
      obtain ⟨hk, rfl⟩ := behindName?_eq_some_iff.mp h
      obtain ⟨v, _, hv, hvalue, ⟨_, _, ⟨vs, hvs, hvalues, rfl⟩, rfl, rfl⟩, hkw⟩ :=
        exists_variable hk hw
      exact ⟨v :: vs, by simpa using ⟨hv, hvs⟩, by simpa using ⟨hvalue, hvalues⟩,
        by simpa [separated] using hkw⟩
  | moreBindings =>
      obtain ⟨rfl, rfl⟩ := behind?_eq_some_iff.mp h
      obtain ⟨_, u, ⟨m, hm, rfl⟩, hu, rfl⟩ := hw
      obtain ⟨v, _, hv, hvalue, ⟨_, _, ⟨vs, hvs, hvalues, rfl⟩, rfl, rfl⟩, hkw⟩ :=
        exists_variable hm hu
      exact ⟨v :: vs, by simpa using ⟨hv, hvs⟩, by simpa using ⟨hvalue, hvalues⟩,
        by simpa using hkw⟩
  | arms =>
      simp only [after?] at h
      split at h
      · rename_i hk
        cases h
        rw [show w = [] from hw, hk]
        exact ⟨[], true, by simp, by simp, rfl⟩
      · obtain ⟨hk, rfl⟩ := behindName?_eq_some_iff.mp h
        obtain ⟨a, _, ha, hvalue, ⟨_, _, ⟨as, closed, has, hvalues, rfl⟩, rfl, rfl⟩, hkw⟩ :=
          exists_arm hk hw
        exact ⟨a :: as, closed, by simpa using ⟨ha, has⟩, by simpa using ⟨hvalue, hvalues⟩,
          by simpa [separated] using hkw⟩
  | moreArms =>
      obtain ⟨rfl, rfl⟩ := behind?_eq_some_iff.mp h
      obtain ⟨_, _, harms, rfl, rfl⟩ := hw
      rcases harms with rfl | ⟨as, closed, hne, has, hvalues, rfl⟩
      · exact ⟨[], true, by simp, by simp, rfl⟩
      · refine ⟨as, closed, has, hvalues, ?_⟩
        cases as with
        | nil => exact (hne rfl).elim
        | cons a as => simp [separated]
  | armAgain =>
      obtain ⟨hk, rfl⟩ := behindName?_eq_some_iff.mp h
      obtain ⟨a, _, ha, hvalue, ⟨_, _, ⟨as, closed, has, hvalues, rfl⟩, rfl, rfl⟩, hkw⟩ :=
        exists_arm hk hw
      exact .inr ⟨a :: as, closed, by simp, by simpa using ⟨ha, has⟩,
        by simpa using ⟨hvalue, hvalues⟩, by simpa [separated] using hkw⟩
  | closing =>
      obtain ⟨rfl, rfl⟩ := behind?_eq_some_iff.mp h
      exact .inr (by rw [show w = [] from hw])
  | classes =>
      obtain ⟨rfl, rfl⟩ := behind?_eq_some_iff.mp h
      obtain ⟨_, _, ⟨t, ht, rfl⟩, ⟨_, _, ⟨u, hu, rfl⟩, ⟨_, _, rfl, ⟨_, _, ⟨fs, hfs, rfl⟩, ⟨_, _,
        rfl, ⟨_, _, rfl, ⟨_, _, ⟨cs, hcs, rfl⟩, rfl, rfl⟩, rfl⟩, rfl⟩, rfl⟩, rfl⟩, rfl⟩, rfl⟩ := hw
      exact ⟨_ :: cs, by simpa using ⟨.mk ht hu hfs, hcs⟩, by simp⟩
  | heritage =>
      obtain ⟨rfl, rfl⟩ := behind?_eq_some_iff.mp h
      obtain ⟨_, _, ⟨t, ht, rfl⟩, rfl, rfl⟩ := hw
      exact ⟨some t, by simpa using ht, by simp [headed]⟩
  | features =>
      obtain ⟨hk, rfl⟩ := behindName?_eq_some_iff.mp h
      obtain ⟨f, _, hf, ⟨_, _, rfl, ⟨_, _, ⟨fs, hfs, rfl⟩, rfl, rfl⟩, rfl⟩, rfl⟩ := hw
      exact ⟨(k :: f) :: fs, by simpa using ⟨hf k hk, hfs⟩, by simp [terminated]⟩
  | featureRest =>
      intro m hm
      simp only [after?] at h
      split at h
      · rename_i hk
        cases h
        obtain ⟨_, _, ⟨ps, hps, rfl⟩, ⟨_, _, rfl, ⟨_, _, rfl, ⟨_, _, ⟨t, ht, rfl⟩, ⟨_, _, rfl,
          ⟨e, _, he, ⟨_, _, rfl, rfl, rfl⟩, rfl⟩, rfl⟩, rfl⟩, rfl⟩, rfl⟩, rfl⟩ := hw
        simpa [hk] using Feature.method hm hps ht he
      · obtain ⟨rfl, rfl⟩ := behind?_eq_some_iff.mp h
        obtain ⟨_, _, ⟨t, ht, rfl⟩, ⟨_, _, ⟨value, hvalue, rfl⟩, rfl, rfl⟩, rfl⟩ := hw
        simpa [Variable.word, Declaration.word] using
          Feature.field (v := ⟨⟨m, t⟩, value⟩) ⟨hm, ht⟩ hvalue
  | parameters =>
      obtain ⟨hk, rfl⟩ := behindName?_eq_some_iff.mp h
      obtain ⟨p, _, hp, ⟨_, _, ⟨ps, hps, rfl⟩, rfl, rfl⟩, hkw⟩ := exists_declaration hk hw
      exact ⟨p :: ps, by simpa using ⟨hp, hps⟩, by simpa [separated] using hkw⟩
  | moreParameters =>
      obtain ⟨rfl, rfl⟩ := behind?_eq_some_iff.mp h
      obtain ⟨_, u, ⟨m, hm, rfl⟩, hu, rfl⟩ := hw
      obtain ⟨p, _, hp, ⟨_, _, ⟨ps, hps, rfl⟩, rfl, rfl⟩, hkw⟩ := exists_declaration hm hu
      exact ⟨p :: ps, by simpa using ⟨hp, hps⟩, by simpa using hkw⟩

theorem yields_of_step {stack next : List Pending} {k : TokenKind} (h : step stack k = some next)
    {w : List TokenKind} (hw : Yields next w) : Yields stack (k :: w) := by
  induction stack with
  | nil => cases h
  | cons x rest ih =>
      rw [step] at h
      split at h
      · rename_i xs hxs
        cases h
        obtain ⟨u, v, hu, hv, rfl⟩ := yields_append.mp hw
        exact ⟨k :: u, v, yields_of_after? hxs hu, hv, rfl⟩
      · split at h
        · exact ⟨[], k :: w, yields_nil ‹_›, ih h, rfl⟩
        · cases h

theorem yields_of_run {stack last : List Pending} {v : List TokenKind} (h : run stack v = some last)
    {w : List TokenKind} (hw : Yields last w) : Yields stack (v ++ w) := by
  induction v generalizing stack with
  | nil =>
      cases h
      exact hw
  | cons k v ih =>
      obtain ⟨next, hstep, hrun⟩ := Option.bind_eq_some_iff.mp h
      exact yields_of_step hstep (ih hrun)

theorem yields_of_all_isNullable {stack : List Pending} (h : stack.all isNullable = true) :
    Yields stack [] := by
  induction stack with
  | nil => rfl
  | cons x rest ih =>
      simp only [List.all_cons, Bool.and_eq_true] at h
      exact ⟨[], [], yields_nil h.1, ih h.2, rfl⟩

/-- Everything the recognizer runs over is the start of a program. -/
theorem viable_of_run {v : List TokenKind} {last : List Pending} (h : run [classes] v = some last) :
    Viable v := by
  obtain ⟨w, hw⟩ := exists_stack_yields last
  obtain ⟨u, _, hu, rfl, heq⟩ := yields_of_run h hw
  exact ⟨w, by rw [heq, List.append_nil]; exact hu⟩

/-- Everything the recognizer accepts is a program. -/
theorem program_of_run {v : List TokenKind} {last : List Pending} (h : run [classes] v = some last)
    (hlast : last.all isNullable = true) : Program v := by
  obtain ⟨u, _, hu, rfl, heq⟩ := yields_of_run h (yields_of_all_isNullable hlast)
  rw [List.append_nil, List.append_nil] at heq
  exact heq ▸ hu

end Recognizer

end CoolTree
