import CoolTree.Proofs.Ledger
import CoolTree.Proofs.Overdeep
import Mathlib.Algebra.Order.BigOperators.Group.List
import Mathlib.Algebra.Order.Ring.Int

/-!
# Too deep and nothing else

In a source that is fine with more levels, an expression for which no level is left is an error up
to a token that closes or separates something. If no control word in the error is exposed, the error
holds the whole expression, and what stands around it is parsed as with more levels. Otherwise the
error ends inside the expression. Then more control words are left to close than to open, and that
is a problem of another kind.
-/

namespace CoolTree

open Recognizer Sentence

namespace Recognizer

open Pending

variable {rest : List Pending} {w x z : List TokenKind}

theorem boundary_of_isSynchronizing {k : TokenKind} (h : k.isSynchronizing = true) :
    Boundary k := by
  cases k with
  | terminal t => cases t <;> first | decide | cases h
  | ending => decide
  | _ => cases h

/-- What is accepted from an expression on is one, and then what is to come behind it. -/
theorem exists_expression_of_refusal (h : refusal (.expression :: rest) w = none) :
    ∃ x z, Expression x ∧ Yields rest z ∧ w = x ++ z := by
  obtain ⟨last, hrun, hlast⟩ := run_of_refusal_eq_none h
  obtain ⟨x, z, hx, hz, heq⟩ := yields_of_run hrun (yields_of_all_isNullable hlast)
  exact ⟨x, z, hx, hz, by simpa using heq⟩

/-- What stands behind an expression is accepted without it. -/
theorem Sealed.refusal_tail (hrest : Sealed rest) (hx : Expression x) (hz : Yields rest z)
    (h : refusal (.expression :: rest) (x ++ z) = none) : refusal (.tail :: rest) z = none := by
  obtain ⟨last, hrun, hlast⟩ := run_of_refusal_eq_none h
  have hcovers := covers_of_expression hx
  cases z with
  | nil =>
      obtain ⟨y, -, hy⟩ := hcovers.settles rest
      rw [List.append_nil] at hrun
      obtain rfl := Option.some.inj (hy.symm.trans hrun)
      rw [List.all_cons, Bool.and_eq_true] at hlast
      have hall : (Pending.tail :: rest).all isNullable = true := by
        simpa [isNullable] using hlast.2
      exact refusal_eq_none (run_nil _) hall
  | cons k z =>
      have hk := boundary_of_isSynchronizing (hrest k z hz)
      refine refusal_eq_none ?_ hlast
      rw [run_skip (x := .tail) hk.2.2 rfl, ← hcovers.run_append hk]
      exact hrun

end Recognizer

/-- An expression that is nested too deeply does not count if its error holds an expression. It is
severe if a control word in the error is exposed. -/
def Leeway.expressions (items : List Item) : Leeway where
  items := items
  spares e := e.problem = .tooDeep ∧ Expression (e.span.kindsIn items)
  severe e := exposed 0 (e.span.kindsIn items) ≠ 0
  tooDeep_of_spares _ h := h.1

/-- Where no control word is exposed, what is swallowed is the expression that is to come. -/
theorem Recognizer.Sealed.lead_eq {rest : List Pending} {x z : List TokenKind} (hrest : Sealed rest)
    (hx : Expression x) (hz : Yields rest z) (h : exposed 0 (lead 0 (x ++ z)) = 0) :
    swallowed 0 (x ++ z) = x.length ∧ lead 0 (x ++ z) = x := by
  -- What is to come behind the expression starts with a token at which swallowing stops.
  have hstop : swallowed 0 z = 0 := by
    cases z with
    | nil => rfl
    | cons k z => exact if_pos ⟨rfl, hrest k z hz⟩
  have hswallowed : swallowed 0 (x ++ z) = x.length := by
    rw [hx.contained z h, hstop, Nat.add_zero]
  exact ⟨hswallowed, by rw [lead, hswallowed, List.take_left]⟩

/-- An expression for which no level is left is swallowed up to what is to come behind it, unless a
control word is exposed. -/
theorem Levels.grounded_expressions (v : Levels) {items : List Item}
    (hw : (Leeway.expressions items).Proper) : v.Grounded (.expressions items) := by
  intro least s rest hs hrest
  obtain ⟨span, herrors, hwithin⟩ : ∃ span : Span, (Draft.tooDeep s).state.errors = _ ∧
      span.kindsIn items = lead 0 s.input.kinds := hw.errors_tooDeep hs
  by_cases hfits : refusal (.expression :: rest) s.input.kinds = none ∧
      exposed 0 (lead 0 s.input.kinds) = 0
  · obtain ⟨hnone, hexposed⟩ := hfits
    obtain ⟨x, z, hx, hz, hkinds⟩ := exists_expression_of_refusal hnone
    rw [hkinds] at hnone hexposed hwithin
    obtain ⟨hswallowed, hlead⟩ := hrest.lead_eq hx hz hexposed
    have hitems : (Draft.tooDeep s).state.input.items = s.input.items.drop x.length := by
      rw [Draft.items_tooDeep, Draft.overrun_eq_swallowed, hkinds, hswallowed]
    have hbehind : (Draft.tooDeep s).state.input.kinds = z := by
      rw [Draft.kinds_tooDeep, hkinds, hswallowed, List.drop_left]
    have hlength : (s.input.items.take x.length).length = x.length := by
      rw [← List.length_map (·.token.kind), List.map_take, ← Input.kinds, hkinds, List.take_left]
    refine .fits (s.input.items.take x.length) ?_ ?_ (fun e he ↦ ?_) ?_ ?_
    · rw [hitems, List.take_append_drop]
    · obtain ⟨k, v, -, rfl, -⟩ := (covers_of_expression hx).begins
      rw [hlength]
      exact Nat.le_add_left 1 v.length
    · rw [herrors] at he
      rcases List.mem_cons.mp he with rfl | he
      · exact ⟨rfl, hwithin.trans hlead ▸ hx⟩
      · exact hs.clean e he
    · rw [hkinds, hbehind, hnone, hrest.refusal_tail hx hz hnone]
      rfl
    · exact Continuation.of?_of_isSynchronizing (Draft.isSynchronizing_tooDeep s)
  · refine .deep ⟨_, herrors ▸ List.mem_cons_self, rfl, fun hnone hexposed ↦ ?_⟩ (Nat.zero_le _)
    exact hfits ⟨hnone, hwithin ▸ hexposed⟩

/-- The ledger of control words. Expressions that are nested too deeply do not count, and each of
them is charged the control words that are exposed in it. -/
def Ledger.controls (items : List Item) : Ledger where
  items := items
  spares e := e.problem = .tooDeep
  severe _ := True
  tooDeep_of_spares _ h := h
  weight := controlChange
  weight_eq_zero k hk := by cases k <;> first | rfl | exact (hk _ rfl).elim
  closes_file := by decide
  closes_constructs := by decide
  closes_dispatch := by decide
  closes_binary o := by cases o <;> decide
  charge e := exposed 0 (e.span.kindsIn items)

theorem Ledger.earns_tooDeep {items : List Item} (hw : (controls items).Proper)
    (hbalanced : Balanced (items.map (·.token.kind))) (s : State) :
    (controls items).Earns 0 s (Draft.tooDeep s).state := by
  refine ⟨Draft.advances_tooDeep s, fun hs _ ↦ ?_⟩
  obtain ⟨span, herrors, hwithin⟩ : ∃ span : Span, (Draft.tooDeep s).state.errors = _ ∧
      span.kindsIn items = lead 0 s.input.kinds := hw.errors_tooDeep hs
  obtain ⟨before, hbefore⟩ := hs.suffix
  have hle : (exposed 0 (lead 0 s.input.kinds) : Int) ≤
      ((lead 0 s.input.kinds).map controlChange).sum := by
    refine Balanced.exposed_lead_le (v := before.map (·.token.kind)) ?_
    rw [Input.kinds, ← List.map_append, hbefore]
    exact hbalanced
  have hsplit : (s.input.kinds.map controlChange).sum =
      ((lead 0 s.input.kinds).map controlChange).sum +
        ((s.input.kinds.drop (swallowed 0 s.input.kinds)).map controlChange).sum := by
    rw [lead, ← List.sum_append, ← List.map_append, List.take_append_drop]
  rw [account, account, Draft.kinds_tooDeep, herrors, List.map_cons, List.sum_cons]
  simp only [controls, hwithin]
  omega

namespace Tree

variable {config : Config} {source : String}

theorem proper_arrangement {w : Leeway} (hw : w.items = (arrangement config source).items) :
    w.Proper := by
  refine ⟨hw ▸ ordered_initialState config source, hw ▸ Arrangement.sound fun t ht ↦ ?_⟩
  exact (Token.stream_ofSource source.toList).spells t (mem_of_mem_parsedTokens ht)

theorem kindsIn_arrangement (config : Config) (source : String) (span : Span) :
    span.kindsIn (arrangement config source).items =
      (Token.within source.toList span).map (·.kind) := by
  rw [Token.within, ← map_token_arrangement config, List.filter_map, List.map_map]
  rfl

variable {v : Levels} (config)
  (hprogram : Program ((Token.significant source.toList).map (·.kind)))

include hprogram

/-- If no control word is exposed in an error of depth, all problems of a program are errors of
depth, and each of them holds an expression. -/
theorem expression_of_exposed (hv : v.Loosest)
    (h : ∀ e ∈ (fileDraft v config.maxDepth (arrangement config source)).state.errors,
      e.problem = .tooDeep → exposed 0 ((Token.within source.toList e.span).map (·.kind)) = 0) :
    ∀ e ∈ (fileDraft v config.maxDepth (arrangement config source)).state.errors,
      e.problem = .tooDeep ∧ Expression ((Token.within source.toList e.span).map (·.kind)) := by
  let w := Leeway.expressions (arrangement config source).items
  have hw : w.Proper := proper_arrangement rfl
  have hrefusal := program_iff.mp hprogram
  rw [← kinds_initialState config] at hrefusal
  cases hv.outcome_fileDraft (v.grounded_expressions hw) config.maxDepth
    (fine_initialState (w := w) rfl (Closed.of_program hprogram)) with
  | fits taken items moved clean refusal next =>
      intro e he
      rw [← kindsIn_arrangement config]
      exact clean e he
  | broken before behind items refusal passed pinned =>
      rw [hrefusal] at refusal
      cases refusal
  | deep reported bound =>
      obtain ⟨e, he, hproblem, hsevere⟩ := reported
      refine (hsevere hrefusal ?_).elim
      rw [kindsIn_arrangement]
      exact h e he hproblem

/-- If all problems of a program are errors of depth, no control word is exposed in them. -/
theorem exposed_of_tooDeep
    (h : ∀ e ∈ (fileDraft v config.maxDepth (arrangement config source)).state.errors,
      e.problem = .tooDeep) :
    ∀ e ∈ (fileDraft v config.maxDepth (arrangement config source)).state.errors,
      exposed 0 ((Token.within source.toList e.span).map (·.kind)) = 0 := by
  let l := Ledger.controls (arrangement config source).items
  have hbalanced : Balanced ((arrangement config source).items.map (·.token.kind)) := by
    rw [← Function.comp_def, ← List.map_map, map_token_arrangement]
    exact hprogram.balanced
  have hle := l.charges_le (Ledger.earns_tooDeep (proper_arrangement rfl) hbalanced) rfl
    (Closed.of_program hprogram) v h
  rw [show l.weight = controlChange from rfl, hprogram.balanced.sum_controlChange] at hle
  have hnonneg : ∀ n ∈ (fileDraft v config.maxDepth
      (arrangement config source)).state.errors.map l.charge, 0 ≤ n :=
    List.forall_mem_map.mpr fun e _ ↦ Int.natCast_nonneg _
  intro e he
  have hcharge := (List.single_le_sum hnonneg _ (List.mem_map_of_mem he)).trans hle
  rw [← kindsIn_arrangement config]
  exact Int.natCast_eq_zero.mp (hcharge.antisymm (hnonneg _ (List.mem_map_of_mem he)))

end Tree

theorem Problem.message_expected (wanted : Wanted) (found : TokenKind) :
    (expected wanted found).message =
      "expected " ++ (wanted.description ++ (", found " ++ found.description)) := by
  rw [← String.append_assoc, ← String.append_assoc]
  rfl

theorem Problem.message_unexpected (found : TokenKind) :
    ∃ rest, (unexpected found).message = "unexpected " ++ rest := by
  cases found with
  | unknown c =>
      refine ⟨"character: " ++ Text.quoteChar c, ?_⟩
      rw [← String.append_assoc]
      rfl
  | _ => exact ⟨_, rfl⟩

/-- No other message is the one of an expression that is nested too deeply. -/
theorem Problem.message_eq_tooDeep_iff {p : Problem} :
    p.message = "expression nested too deeply" ↔ p = .tooDeep := by
  refine ⟨fun h ↦ ?_, by rintro rfl; rfl⟩
  -- The other messages start with other letters.
  have happend (a b : String) (ha : 4 ≤ a.toList.length) :
      (a ++ b).toList.take 4 = a.toList.take 4 := by
    rw [String.toList_append, List.take_append_of_le_length ha]
  have hstart := congrArg (fun s : String ↦ s.toList.take 4) h
  cases p with
  | tooDeep => rfl
  | expected wanted found =>
      rw [message_expected, happend _ _ (by decide)] at hstart
      exact absurd hstart (by decide)
  | unexpected found =>
      obtain ⟨rest, hmessage⟩ := message_unexpected found
      rw [hmessage, happend _ _ (by decide)] at hstart
      exact absurd hstart (by decide)
  | unterminatedString | unterminatedComment => exact absurd hstart (by decide)

theorem SyntaxError.message_eq_tooDeep_iff {e : SyntaxError} :
    e.message = "expression nested too deeply" ↔ e.problem = .tooDeep :=
  Problem.message_eq_tooDeep_iff

/-- If a source is fine with some limit of nesting, then with any other limit its problems are only
those of expressions nested too deeply if and only if these have no control word outside brackets in
what is swallowed of them. And then they are swallowed as a whole. -/
theorem Parser.cut_of_parse {p q : Parser} (hlanguage : p.setLanguage .cool = .ok q)
    (config config' : Config) (source : String) {tree' : Tree}
    (htree' : (q.setConfig config').parse? source = some tree') (hclean : tree'.errors = []) :
    ∃ tree, (q.setConfig config).parse? source = some tree ∧
      ((∀ e ∈ tree.errors, e.message = "expression nested too deeply") ↔
        ∀ e ∈ tree.errors, e.message = "expression nested too deeply" →
          exposed 0 ((Token.within source.toList e.span).map (·.kind)) = 0) ∧
      ((∀ e ∈ tree.errors, e.message = "expression nested too deeply") →
        ∀ e ∈ tree.errors, Expression ((Token.within source.toList e.span).map (·.kind))) := by
  rw [parse?_of_setLanguage hlanguage config' source] at htree'
  obtain rfl := Option.some.inj htree'
  -- Unterminated comments are reported whatever the limit is, so there are none.
  obtain ⟨hdraft, hcomments⟩ := (Tree.errors_eq_nil_iff_fileDraft .cool config' source).mp hclean
  have hprogram := Tree.program_of_clean Language.loosest_cool hdraft
  refine ⟨Tree.parse .cool config source, parse?_of_setLanguage hlanguage config source, ?_⟩
  simp only [SyntaxError.message_eq_tooDeep_iff, Tree.mem_errors_iff .cool config source hcomments]
  have hexpression := Tree.expression_of_exposed config hprogram Language.loosest_cool
  refine ⟨⟨fun h e he _ ↦ Tree.exposed_of_tooDeep config hprogram h e he,
    fun h e he ↦ (hexpression h e he).1⟩, fun h e he ↦ ?_⟩
  exact (hexpression (fun e he _ ↦ Tree.exposed_of_tooDeep config hprogram h e he) e he).2

/-- A sum that is one level too deep is swallowed with the brackets in it. -/
theorem Parser.cut_of_parse_sum :
    let s := "class A \x7b x : Int <- (1 + f(2, not b)); \x7d;"
    Parser.setLanguage {} .cool = .ok { language := some .cool } ∧
      ∃ tree tree', (Parser.setConfig { language := some .cool } ⟨5, false⟩).parse? s = some tree' ∧
        tree'.errors = [] ∧
        (Parser.setConfig { language := some .cool } ⟨1, false⟩).parse? s = some tree ∧
        tree.errors.length = 1 ∧
        (∀ e ∈ tree.errors, e.message = "expression nested too deeply") ∧
        ∀ e ∈ tree.errors, Expression ((Token.within s.toList e.span).map (·.kind)) := by
  intro s
  have hclean : (Tree.parse .cool ⟨5, false⟩ s).errors = [] :=
    (Tree.errors_eq_nil_iff_fileDraft .cool ⟨5, false⟩ s).mpr
      ⟨by rw [Language.levels_cool]; decide +kernel, by decide +kernel⟩
  let e : SyntaxError := ⟨.tooDeep, ⟨22, 0, 22⟩, ⟨37, 0, 37⟩⟩
  have herrors : (Tree.parse .cool ⟨1, false⟩ s).errors = [e] := by
    have hfound :
        (Tree.fileDraft Language.cool.levels 1 (Tree.arrangement ⟨1, false⟩ s)).state.errors ++
          Tree.commentErrors (Token.ofSource s.toList) = [e] := by
      rw [Language.levels_cool]
      decide +kernel
    exact List.perm_singleton.mp (hfound ▸ Tree.perm_errors .cool ⟨1, false⟩ s)
  have hexposed : exposed 0 ((Token.within s.toList e.span).map (·.kind)) = 0 := by
    decide +kernel
  obtain ⟨tree, htree, hiff, hexpression⟩ :=
    cut_of_parse (setLanguage_cool {}) ⟨1, false⟩ ⟨5, false⟩ s rfl hclean
  obtain rfl : Tree.parse .cool ⟨1, false⟩ s = tree := Option.some.inj htree
  have hdeep := hiff.mpr fun x hx _ ↦ by
    rw [herrors, List.mem_singleton] at hx
    exact hx ▸ hexposed
  exact ⟨setLanguage_cool {}, _, _, rfl, hclean, rfl, congrArg List.length herrors, hdeep,
    hexpression hdeep⟩

/-- A condition is swallowed up to its own `then`. -/
theorem Parser.cut_of_parse_condition :
    let s := "class A \x7b x : Int <- (if a then b fi); \x7d;"
    Parser.setLanguage {} .cool = .ok { language := some .cool } ∧
      ∃ tree tree', (Parser.setConfig { language := some .cool } ⟨3, false⟩).parse? s = some tree' ∧
        tree'.errors = [] ∧
        (Parser.setConfig { language := some .cool } ⟨1, false⟩).parse? s = some tree ∧
        ∃ e ∈ tree.errors, e.message = "expected ')', found 'then'" := by
  intro s
  have hclean : (Tree.parse .cool ⟨3, false⟩ s).errors = [] :=
    (Tree.errors_eq_nil_iff_fileDraft .cool ⟨3, false⟩ s).mpr
      ⟨by rw [Language.levels_cool]; decide +kernel, by decide +kernel⟩
  let e : SyntaxError :=
    ⟨.expected (.terminal .rightParen) (.terminal .thenWord), .emptyAt ⟨26, 0, 26⟩⟩
  have hfound : e ∈
      (Tree.fileDraft Language.cool.levels 1 (Tree.arrangement ⟨1, false⟩ s)).state.errors := by
    rw [Language.levels_cool]
    decide +kernel
  have hmem : e ∈ (Tree.parse .cool ⟨1, false⟩ s).errors :=
    (Tree.perm_errors .cool ⟨1, false⟩ s).mem_iff.mpr (List.mem_append_left _ hfound)
  exact ⟨setLanguage_cool {}, _, _, rfl, hclean, rfl, e, hmem, by decide +kernel⟩

end CoolTree
