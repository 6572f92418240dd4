import CoolTree.Proofs.Packaged
import CoolTree.Proofs.Report

/-!
# The limit of nesting is not seen before it is hit

If nothing was nested too deeply, parsing with a higher limit makes the same nodes in the same order
and finds the same problems. Problems that were found are kept, so where none of those at the end
says that an expression is nested too deeply, none did on the way, and no expression was cut off.
-/

namespace CoolTree

namespace Workspace

/-- No problem so far says that an expression is nested too deeply. -/
def Shallow (w : Workspace) : Prop :=
  ∀ e ∈ w.errors, e.problem ≠ .tooDeep

/-- As long as nothing is nested too deeply, an expression is parsed in the same way. -/
def Agree (x y : Int → Parsing Parcel) : Prop :=
  ∀ least w rest s, Shows w rest {} (.blank s) → (x least w).2.Shallow → y least w = x least w

variable {w : Workspace} {rest : List Nat} {b : Builder} {d : Draft}

/-- What was not nested too deeply at the end was not on the way. -/
theorem Shows.shallow (h : w.Shows rest b d) {w' : Workspace} {rest' : List Nat} {b' : Builder}
    {d' : Draft} (h' : w'.Shows rest' b' d') (hadvances : d.state.Advances d'.state)
    (hfree : w'.Shallow) : w.Shallow := by
  intro e he
  rw [h.errors] at he
  refine hfree e ?_
  rw [h'.errors]
  exact hadvances.mem_errors he

theorem Shows.repeatWhile_congr {round round' : Builder → Parsing Builder} {f : Draft → Draft}
    (hround : ∀ {w b d}, Shows w rest b d → w.Reaches rest (round b w) (f d))
    (hadvances : ∀ d : Draft, d.state.Advances (f d).state)
    (hcongr : ∀ {w b d}, Shows w rest b d → (round b w).2.Shallow → round' b w = round b w)
    (test : Test) (h : w.Shows rest b d) (hfree : (b.repeatWhile test round w).2.Shallow) :
    b.repeatWhile test round' w = b.repeatWhile test round w := by
  induction hsize : w.input.size using Nat.strongRecOn generalizing w b d with
  | ind size ih =>
      rw [Builder.repeatWhile] at hfree
      rw [Builder.repeatWhile, Builder.repeatWhile]
      by_cases htest : test.holds w.input = true
      case neg => rw [if_neg htest, if_neg htest]
      rw [if_pos htest] at hfree
      rw [if_pos htest, if_pos htest]
      dsimp only at hfree ⊢
      obtain ⟨-, hnext⟩ := hround h
      by_cases hless : (round b w).2.input.size < w.input.size
      · rw [if_pos hless] at hfree
        have hlast := (hnext.repeatWhile hround test).2
        have hsame :=
          hcongr h (hnext.shallow hlast (Draft.advances_repeatWhile _ _ hadvances) hfree)
        rw [hsame, if_pos hless, if_pos hless]
        exact ih _ (hsize ▸ hless) hnext hfree rfl
      · rw [if_neg hless] at hfree
        rw [hcongr h hfree, if_neg hless, if_neg hless]

variable {v : Levels} {x y : Int → Parsing Parcel} {e : Int → State → Draft}

theorem Shows.build_congr (hx : Expresses x e) (hagree : Agree x y)
    (hadvances : ∀ least s, State.Advances s (e least s).state) (p : Phrase)
    (h : w.Shows rest b d) (hfree : (p.build v x b w).2.Shallow) :
    p.build v y b w = p.build v x b w := by
  induction p generalizing w rest b d with
  | done => rfl
  | expect t next ih => exact ih (h.expect t).2 hfree
  | take field next ih => exact ih (h.take field).2 hfree
  | word field slot next ih => exact ih (h.word field slot).2 hfree
  | literal next ih => exact ih h.literal.2 hfree
  | operand field bound next ih =>
      have hpart := hx (v.bound bound) w _ _ h.blank
      have hpush := (h.push hpart field).2
      have hlast := (hpush.build (v := v) hx next).2
      have hmiddle := hpush.shallow hlast (Phrase.advances_run hadvances next _) hfree
      have hsame := hagree (v.bound bound) w _ _ h.blank hmiddle
      show next.build v y (b.push field (y (v.bound bound) w).1)
        (y (v.bound bound) w).2 = _
      rw [hsame]
      exact ih hpush hfree
  | node field kind body next ihbody ih =>
      obtain ⟨hgrows, hbody⟩ := h.blank.build (v := v) hx body
      have hpush := (h.push ((hbody.finish kind false).of_grows hgrows) field).2
      have hlast := (hpush.build (v := v) hx next).2
      let whole := d.attach field ((body.run v e (.blank d.state)).enclose kind false)
      have hlater : (body.run v e (.blank d.state)).state.Advances
          (next.run v e whole).state :=
        (Draft.advances_enclose _ kind false).trans (Phrase.advances_run hadvances next whole)
      have hmiddle := hbody.shallow hlast hlater hfree
      have hsame := ihbody h.blank hmiddle
      show next.build v y
        (b.push field ((body.build v y {} w).1.finish kind false (body.build v y {} w).2).1)
        ((body.build v y {} w).1.finish kind false (body.build v y {} w).2).2 = _
      rw [hsame]
      exact ih hpush hfree
  | choose test yes no next ihyes ihno ih =>
      have hchosen : ∀ {w b d}, Shows w rest b d → ∀ chosen ∈ [yes, no],
          (next.build v x (chosen.build v x b w).1 (chosen.build v x b w).2).2.Shallow →
            (chosen.build v x b w).2.Shallow := by
        intro w b d h chosen _ hfree
        have hpart := (h.build (v := v) hx chosen).2
        have hlast := (hpart.build (v := v) hx next).2
        exact hpart.shallow hlast (Phrase.advances_run hadvances next _) hfree
      rw [Phrase.build_choose] at hfree
      rw [Phrase.build_choose, Phrase.build_choose]
      by_cases htest : test.holds w.input = true
      · rw [if_pos htest] at hfree
        rw [if_pos htest, ihyes h (hchosen h yes (by simp) hfree)]
        exact ih (h.build hx yes).2 hfree
      · rw [if_neg htest] at hfree
        rw [if_neg htest, ihno h (hchosen h no (by simp) hfree)]
        exact ih (h.build hx no).2 hfree
  | loop test body next ihbody ih =>
      have hround : ∀ {w b d}, Shows w rest b d →
          w.Reaches rest (body.build v x b w) (body.run v e d) :=
        fun h ↦ h.build hx body
      have hloop := (h.repeatWhile hround test).2
      have hlast := (hloop.build (v := v) hx next).2
      have hmiddle := hloop.shallow hlast (Phrase.advances_run hadvances next _) hfree
      have hsame := h.repeatWhile_congr hround (Phrase.advances_run hadvances body)
        (fun h hfree ↦ ihbody h hfree) test hmiddle
      show next.build v y (b.repeatWhile test (body.build v y) w).1
        (b.repeatWhile test (body.build v y) w).2 = _
      rw [hsame]
      exact ih hloop hfree
  | skip stop next ih => exact ih (h.skip stop).2 hfree
  | absent next ih => exact ih h.absent.2 hfree

theorem Shows.extend_congr (hx : Expresses x e) (hagree : Agree x y)
    (hadvances : ∀ least s, State.Advances s (e least s).state) (c : Continuation) {p : Parcel}
    {role : Option Field} (h : w.Shows rest (p.alone role) d)
    (hfree : (Parsing.extend v x c p w).2.Shallow) :
    Parsing.extend v y c p w = Parsing.extend v x c p w := by
  have hsame := (h.assign (some c.field)).build_congr (v := v) hx hagree hadvances c.phrase
    hfree
  show Builder.finish (c.phrase.build v y (p.alone (some c.field)) w).1 c.kind false
    (c.phrase.build v y (p.alone (some c.field)) w).2 = _
  rw [hsame]
  rfl

theorem Shows.climb_congr (hx : Expresses x e) (hagree : Agree x y)
    (hadvances : ∀ least s, State.Advances s (e least s).state) (least : Int) {p : Parcel}
    {role : Option Field} (h : w.Shows rest (p.alone role) d)
    (hfree : (Parsing.climb v x least p w).2.Shallow) :
    Parsing.climb v y least p w = Parsing.climb v x least p w := by
  induction hsize : w.input.size using Nat.strongRecOn generalizing w p role d with
  | ind size ih =>
      rw [Parsing.climb] at hfree
      rw [Parsing.climb, Parsing.climb]
      cases hnext : Continuation.of? v least w.input.current with
      | none => rfl
      | some next =>
          rw [hnext] at hfree
          dsimp only at hfree ⊢
          obtain ⟨role', -, hwhole⟩ := h.extend (v := v) hx next
          by_cases hless : (Parsing.extend v x next p w).2.input.size < w.input.size
          · rw [if_pos hless] at hfree
            obtain ⟨_, -, hlast⟩ := hwhole.climb (v := v) hx least
            have hmiddle := hwhole.shallow hlast (Draft.advances_climb hadvances least _) hfree
            rw [h.extend_congr hx hagree hadvances next hmiddle, if_pos hless, if_pos hless]
            exact ih _ (hsize ▸ hless) hwhole hfree rfl
          · rw [if_neg hless] at hfree
            rw [h.extend_congr hx hagree hadvances next hfree, if_neg hless, if_neg hless]

/-- Where nothing is nested too deeply, a higher limit makes no difference. -/
theorem agree_expression (v : Levels) {m m' : Nat} (hle : m ≤ m') :
    Agree (Parsing.expression v m) (Parsing.expression v m') := by
  induction m generalizing m' with
  | zero =>
      intro least w rest s h hfree
      obtain ⟨_, -, hdeep⟩ := h.tooDeep
      obtain ⟨e, he, hproblem⟩ : ∃ e ∈ (Draft.tooDeep s).state.errors, e.problem = .tooDeep :=
        ⟨_, List.mem_cons_self, rfl⟩
      exact (hfree e (hdeep.errors ▸ he) hproblem).elim
  | succ m ih =>
      obtain ⟨m', rfl⟩ : ∃ k, m' = k + 1 := ⟨m' - 1, by omega⟩
      intro least w rest s h hfree
      let opening := Phrase.opening s.input.current s.input.upcoming
      have hx := expresses_expression v m
      have hagree := ih (Nat.le_of_succ_le_succ hle)
      have hadvances : ∀ least s, State.Advances s (Draft.expression v m least s).state :=
        Draft.advances_expression m
      rw [expression_succ, show w.input = s.input from h.input] at hfree
      rw [expression_succ, expression_succ, show w.input = s.input from h.input]
      obtain ⟨role, -, hfirst⟩ := h.opening (v := v) hx
      obtain ⟨_, -, hlast⟩ := hfirst.climb (v := v) hx least
      have hmiddle := hfirst.shallow hlast (Draft.advances_climb hadvances least _) hfree
      have hsame := h.build_congr (v := v) hx hagree hadvances opening hmiddle
      rw [hsame]
      exact hfirst.climb_congr hx hagree hadvances least hfree

end Workspace

namespace Tree

theorem parse_eq_of_le (l : Language) (comments : Bool) {m m' : Nat} (hle : m ≤ m')
    {source : String} (hfree : ∀ e ∈ (parse l ⟨m, comments⟩ source).errors, e.problem ≠ .tooDeep) :
    parse l ⟨m', comments⟩ source = parse l ⟨m, comments⟩ source := by
  let a := arrangement ⟨m, comments⟩ source
  let start := Workspace.start a.items a.trailing
  have hx := Workspace.expresses_expression l.levels m
  have hshows := Workspace.shows_start a
  have hfile := (hshows.build (v := l.levels) hx .file).2
  have hshallow :
      (Phrase.file.build l.levels (Parsing.expression l.levels m) {} start).2.Shallow := by
    intro e he
    rw [hfile.errors] at he
    refine hfree e ((perm_errors l ⟨m, comments⟩ source).mem_iff.mpr (List.mem_append_left _ he))
  have hsame := hshows.build_congr (v := l.levels) hx
    (Workspace.agree_expression l.levels hle) (Draft.advances_expression m) .file hshallow
  -- the arrangement depends on whether comments are kept, and not on the limit
  have hassemble : ∀ span, assemble l.levels m' span (arrangement ⟨m', comments⟩ source) =
      assemble l.levels m span (arrangement ⟨m, comments⟩ source) :=
    fun span ↦ congrArg (fun r : Builder × Workspace ↦ r.1.root span r.2) hsame
  rw [arrangement, arrangement] at hassemble
  rw [parse, parse]
  dsimp only
  rw [hassemble]

end Tree

/-- If no problem says that an expression is nested too deeply, parsing with a higher limit gives
the same tree and the same problems. -/
theorem Parser.limit_of_parse {p q : Parser} {l : Language} (hlanguage : p.setLanguage l = .ok q)
    (comments : Bool) {m m' : Nat} (hle : m ≤ m') (source : String) :
    ∃ tree, (q.setConfig ⟨m, comments⟩).parse? source = some tree ∧
      ((∀ e ∈ tree.errors, e.message ≠ "expression nested too deeply") →
        (q.setConfig ⟨m', comments⟩).parse? source = some tree) := by
  refine ⟨_, parse?_of_setLanguage hlanguage ⟨m, comments⟩ source, fun hfree ↦ ?_⟩
  have hproblem : ∀ e ∈ (Tree.parse l ⟨m, comments⟩ source).errors, e.problem ≠ .tooDeep := by
    intro e he hdeep
    exact hfree e he (by rw [SyntaxError.message, hdeep]; rfl)
  rw [parse?_of_setLanguage hlanguage ⟨m', comments⟩ source,
    Tree.parse_eq_of_le l comments hle hproblem]

/-- An unclosed bracket is a problem, but none of depth. -/
theorem Parser.limit_of_parse_unclosed :
    let s := "class A \x7b x : B <- (1 + \"a; \n \x7d; -- c"
    Parser.setLanguage {} .cool = .ok { language := some .cool } ∧ 3 ≤ 256 ∧
      ∃ tree, (Parser.setConfig { language := some .cool } ⟨3, true⟩).parse? s = some tree ∧
        (∀ e ∈ tree.errors, e.message ≠ "expression nested too deeply") ∧ tree.errors.length = 3 ∧
        (Parser.setConfig { language := some .cool } ⟨256, true⟩).parse? s = some tree := by
  intro s
  have hle : 3 ≤ 256 := by decide
  obtain ⟨tree, htree, hlimit⟩ := limit_of_parse (setLanguage_cool {}) true hle s
  have hfound : ((Tree.fileDraft Language.cool.levels 3
      (Tree.arrangement ⟨3, true⟩ s)).state.errors ++
        Tree.commentErrors (Token.ofSource s.toList)).map (·.problem) =
      [.expected (.terminal .semicolon) (.terminal .rightBrace),
        .expected (.terminal .rightParen) (.terminal .rightBrace), .unterminatedString] := by
    rw [Language.levels_cool]
    decide +kernel
  obtain rfl := Option.some.inj htree
  have hproblems := (Tree.perm_errors .cool ⟨3, true⟩ s).map (·.problem)
  rw [hfound] at hproblems
  have hfree : ∀ e ∈ (Tree.parse .cool ⟨3, true⟩ s).errors,
      e.message ≠ "expression nested too deeply" := by
    intro e he
    have hmem := hproblems.mem_iff.mp (List.mem_map_of_mem he)
    rw [SyntaxError.message]
    simp only [List.mem_cons, List.not_mem_nil, or_false] at hmem
    rcases hmem with h | h | h <;> rw [h] <;> decide
  have hsome : (Tree.parse .cool ⟨3, true⟩ s).errors.length = 3 := by
    simpa using hproblems.length_eq
  exact ⟨setLanguage_cool {}, hle, _, rfl, hfree, hsome, hlimit hfree⟩

end CoolTree
