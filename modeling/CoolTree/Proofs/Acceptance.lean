import CoolTree.Proofs.Closed
import CoolTree.Proofs.Descent
import CoolTree.Proofs.Packaged
import CoolTree.Proofs.Reading
import CoolTree.Proofs.Report

/-!
# What is accepted, and where it is refused

With the packaged language, and with as many levels of nesting as there are tokens, a source has
nothing wrong if and only if its comments are terminated and its tokens are a program. Otherwise
the first problem stands behind the longest sequence of tokens that some program starts with.
-/

namespace CoolTree

open Recognizer Sentence

namespace Token

/-- The significant tokens that end at an offset or in front of it. -/
def upTo (source : List Char) (offset : Nat) : List Token :=
  (significant source).filter fun t ↦ t.stop.offset ≤ offset

/-- The significant tokens that end behind an offset. -/
def beyond (source : List Char) (offset : Nat) : List Token :=
  (significant source).filter fun t ↦ offset < t.stop.offset

theorem upTo_beyond {source : List Char} {offset : Nat} {xs ys : List Token}
    (h : significant source = xs ++ ys) (hx : ∀ t ∈ xs, t.stop.offset ≤ offset)
    (hy : ∀ t ∈ ys, offset < t.stop.offset) :
    upTo source offset = xs ∧ beyond source offset = ys := by
  rw [upTo, beyond, h, List.filter_append, List.filter_append]
  constructor
  · rw [List.filter_eq_self.mpr (by simpa using hx),
      List.filter_eq_nil_iff.mpr (by simpa using hy), List.append_nil]
  · rw [List.filter_eq_nil_iff.mpr (by simpa using hx),
      List.filter_eq_self.mpr (by simpa using hy), List.nil_append]

end Token

namespace Tree

variable (config : Config) (source : String)

theorem kinds_initialState :
    (initialState (arrangement config source).items).input.kinds =
      (Token.significant source.toList).map (·.kind) := by
  rw [← map_token_arrangement config source, List.map_map]
  rfl

theorem ordered_initialState : (initialState (arrangement config source).items).Ordered := by
  have hstream := Token.stream_ofSource source.toList
  have hitems := map_token_arrangement config source
  refine ⟨fun item _ ↦ Nat.zero_le _, ?_, fun item hitem ↦ ?_⟩
  · have hpair : (Token.significant source.toList).Pairwise fun a b ↦
        a.stop.offset ≤ b.start.offset :=
      hstream.pairwise_stop_le_start.sublist List.filter_sublist
    rw [← hitems] at hpair
    exact List.pairwise_map.mp hpair
  · have hmem : item.token ∈ Token.significant source.toList := hitems ▸ List.mem_map_of_mem hitem
    obtain ⟨hmem, hsignificant⟩ := List.mem_filter.mp hmem
    exact hstream.start_lt_stop _ hmem (TokenKind.IsSignificant.ne_ending hsignificant)

variable {config source}

theorem fine_initialState {w : Leeway} (hw : w.items = (arrangement config source).items)
    (h : Closed ((Token.significant source.toList).map (·.kind))) :
    (initialState (arrangement config source).items).Fine w := by
  refine ⟨ordered_initialState config source, fun item hitem ↦ ⟨?_, fun parts hkind ↦ ?_⟩,
    hw ▸ List.suffix_rfl, fun e he ↦ nomatch he⟩
  · exact TokenKind.IsSignificant.ne_ending (Arrangement.isSignificant_token item hitem)
  · rw [← kinds_initialState config] at h
    exact TokenKind.isClosed_iff.mp (h _ (List.mem_map_of_mem hitem)) parts hkind

variable {v : Levels}

/-- What becomes of a file if every problem counts. -/
theorem outcome_arrangement (hv : v.Loosest)
    (h : Closed ((Token.significant source.toList).map (·.kind))) :
    Outcome (.none (arrangement config source).items) config.maxDepth 1 0 (fun _ ↦ True) [.classes]
      [] (initialState (arrangement config source).items)
      (fileDraft v config.maxDepth (arrangement config source)).state :=
  hv.outcome_fileDraft (v.grounded_none _) config.maxDepth (fine_initialState rfl h)

theorem items_end :
    (fileDraft v config.maxDepth (arrangement config source)).state.input.items = [] :=
  items_fileDraft _ _ _ fun item hitem ↦
    TokenKind.IsSignificant.ne_ending (Arrangement.isSignificant_token item hitem)

theorem closed_of_clean
    (h : (fileDraft v config.maxDepth (arrangement config source)).state.errors = []) :
    Closed ((Token.significant source.toList).map (·.kind)) := by
  obtain ⟨taken, htaken, hclosed⟩ := (built_fileDraft v config.maxDepth
    (arrangement config source)).closed_of_clean
  rw [items_end, List.append_nil] at htaken
  rw [← kinds_initialState config, Input.kinds, htaken]
  exact List.forall_mem_map.mpr (hclosed h)

theorem program_of_clean (hv : v.Loosest)
    (h : (fileDraft v config.maxDepth (arrangement config source)).state.errors = []) :
    Program ((Token.significant source.toList).map (·.kind)) := by
  rw [program_iff, ← kinds_initialState config]
  cases outcome_arrangement hv (closed_of_clean h) with
  | fits taken items moved clean refusal next =>
      rw [refusal, Input.kinds, items_end]
      rfl
  | broken before behind items refusal passed pinned =>
      obtain ⟨e, he, -⟩ := pinned
      rw [h] at he
      cases he
  | deep reported bound =>
      obtain ⟨e, he, -⟩ := reported
      rw [h] at he
      cases he

theorem clean_of_program (hv : v.Loosest)
    (hdepth : (Token.significant source.toList).length ≤ config.maxDepth)
    (h : Program ((Token.significant source.toList).map (·.kind))) :
    (fileDraft v config.maxDepth (arrangement config source)).state.errors = [] := by
  have hrefusal := program_iff.mp h
  rw [← kinds_initialState config] at hrefusal
  cases outcome_arrangement hv (Closed.of_program h) with
  | fits taken items moved clean refusal next => exact State.clean_none.mp clean
  | broken before behind items refusal passed pinned =>
      rw [hrefusal] at refusal
      cases refusal
  | deep reported bound =>
      have hlength := congrArg List.length (map_token_arrangement config source)
      rw [List.length_map] at hlength
      simp only [initialState, Input.ofItems] at bound
      omega

theorem errors_eq_nil_iff {l : Language} (hv : l.levels.Loosest)
    (hdepth : (Token.significant source.toList).length ≤ config.maxDepth) :
    (parse l config source).errors = [] ↔
      (∀ t ∈ Token.ofSource source.toList, t.kind ≠ .blockComment false) ∧
        Program ((Token.significant source.toList).map (·.kind)) := by
  rw [errors_eq_nil_iff_fileDraft, and_comm]
  exact and_congr_right fun _ ↦ ⟨program_of_clean hv, clean_of_program hv hdepth⟩

/-- The first problem stands behind the items that are taken before the first one is refused. -/
theorem first_error {l : Language} (hv : l.levels.Loosest)
    (hcomment : ∀ t ∈ Token.ofSource source.toList, t.kind ≠ .blockComment false)
    (hclosed : Closed ((Token.significant source.toList).map (·.kind))) {e : SyntaxError}
    {more : List SyntaxError} (herrors : (parse l config source).errors = e :: more)
    (hdeep : ∀ x ∈ (parse l config source).errors, x.problem ≠ .tooDeep) :
    ∃ before behind, (arrangement config source).items = before ++ behind ∧
      refusal [.classes] ((Token.significant source.toList).map (·.kind)) = some before.length ∧
      (∀ item ∈ before, item.token.stop.offset ≤ e.span.start.offset) ∧
      ∀ item ∈ behind, e.span.start.offset < item.token.stop.offset := by
  have hmem : ∀ x, x ∈ (parse l config source).errors ↔
      x ∈ (fileDraft l.levels config.maxDepth (arrangement config source)).state.errors :=
    fun _ ↦ mem_errors_iff l config source hcomment
  have he : e ∈ (parse l config source).errors := herrors ▸ List.mem_cons_self
  have hfirst : ∀ x ∈ (parse l config source).errors,
      e.span.start.offset ≤ x.span.start.offset := by
    have hpair := pairwise_errors l config source
    rw [herrors] at hpair ⊢
    intro x hx
    rcases List.mem_cons.mp hx with rfl | hx
    · exact le_rfl
    · have hprecedes := (List.pairwise_cons.mp hpair).1 x hx
      simp only [Span.precedes, Bool.or_eq_true, Bool.and_eq_true, decide_eq_true_eq,
        beq_iff_eq] at hprecedes
      omega
  -- A parse that fits has no problem, and one that is nested too deeply has said so.
  cases outcome_arrangement hv hclosed with
  | fits taken items moved clean refusal next =>
      rw [hmem, State.clean_none.mp clean] at he
      cases he
  | broken before behind items refusal passed pinned =>
      rw [kinds_initialState] at refusal
      obtain ⟨x, hx, -, hpinned⟩ := pinned
      refine ⟨before, behind, items, refusal, fun item hitem ↦ ?_, fun item hitem ↦ ?_⟩
      · exact (passed item hitem).2 e ((hmem e).mp he) fun hspares ↦ hspares
      · exact Nat.lt_of_le_of_lt (hfirst x ((hmem x).mpr hx)) (hpinned item hitem)
  | deep reported bound =>
      obtain ⟨x, hx, hproblem, -⟩ := reported
      exact (hdeep x ((hmem x).mpr hx) hproblem).elim

end Tree

theorem Language.loosest_cool : Language.cool.levels.Loosest := by
  rw [levels_cool]
  exact ⟨by decide, by decide, fun o ↦ by cases o <;> decide⟩

/-- With the packaged language and with as many levels of nesting as there are tokens, exactly the
programs without an unterminated comment are parsed without a problem. -/
theorem Parser.accepts_iff {p q : Parser} (hlanguage : p.setLanguage .cool = .ok q)
    (config : Config) (source : String)
    (hdepth : (Token.significant source.toList).length ≤ config.maxDepth) :
    ∃ tree, (q.setConfig config).parse? source = some tree ∧
      (tree.errors = [] ↔
        (∀ t ∈ Token.ofSource source.toList, t.kind ≠ .blockComment false) ∧
          Program ((Token.significant source.toList).map (·.kind))) := by
  refine ⟨Tree.parse .cool config source, ?_, Tree.errors_eq_nil_iff Language.loosest_cool hdepth⟩
  simp [parse?, setConfig, language_of_setLanguage hlanguage]

/-- Expressions inside one another, with exactly as many levels as there are tokens. That the source
is a program is read off its tree. -/
theorem Parser.accepts_iff_nested :
    let source := "class A \x7b f(x : B) : C \x7b " ++
      "(1 + g(2)).h(if not b then x <- 3 else \x7b d; \x7d fi) \x7d; \x7d;"
    Parser.setLanguage {} .cool = .ok { language := some .cool } ∧
      (Token.significant source.toList).length = 41 ∧
      ∃ tree, (Parser.setConfig { language := some .cool } ⟨41, false⟩).parse? source = some tree ∧
        tree.errors = [] ∧ Program ((Token.significant source.toList).map (·.kind)) := by
  intro source
  have hlanguage := setLanguage_cool {}
  have hlength : (Token.significant source.toList).length = 41 := by decide +kernel
  obtain ⟨tree, htree, hiff⟩ := accepts_iff hlanguage ⟨41, false⟩ source hlength.le
  have hclean : (Tree.parse .cool ⟨41, false⟩ source).errors = [] := by
    rw [Tree.errors_eq_nil_iff_fileDraft, Language.levels_cool]
    constructor <;> decide +kernel
  obtain rfl := Option.some.inj htree
  exact ⟨hlanguage, hlength, _, htree, hclean, (hiff.mp hclean).2⟩

/-- The first problem of a source without unterminated strings and comments, if nothing in it is
nested too deeply, stands right behind the longest sequence of tokens that some program starts
with: with the next token, or at the end, it is no longer that. -/
theorem Parser.first_error_of_parse {p q : Parser} (hlanguage : p.setLanguage .cool = .ok q)
    (config : Config) (source : String)
    (hcomment : ∀ t ∈ Token.ofSource source.toList, t.kind ≠ .blockComment false)
    (hstring : ∀ t ∈ Token.ofSource source.toList, ∀ parts, t.kind ≠ .string parts false)
    {tree : Tree} (htree : (q.setConfig config).parse? source = some tree) {e : SyntaxError}
    {more : List SyntaxError} (herrors : tree.errors = e :: more)
    (hdeep : ∀ x ∈ tree.errors, x.message ≠ "expression nested too deeply") :
    let before := Token.upTo source.toList e.span.start.offset
    let behind := Token.beyond source.toList e.span.start.offset
    Token.significant source.toList = before ++ behind ∧
      Viable (before.map (·.kind)) ∧
      (match behind with
        | [] => ¬Program (before.map (·.kind))
        | t :: _ => ¬Viable (before.map (·.kind) ++ [t.kind])) ∧
      (config = {} → ∃ context, parseStrict .cool source = .error
        ⟨.syntaxError e.message e.span.start.point.line e.span.start.point.displayColumn context,
          none⟩) := by
  intro before behind
  obtain rfl : Tree.parse .cool config source = tree := by
    simpa [parse?, setConfig, language_of_setLanguage hlanguage] using htree
  have hclosed : Closed ((Token.significant source.toList).map (·.kind)) :=
    List.forall_mem_map.mpr fun t ht ↦
      TokenKind.isClosed_iff.mpr (hstring t (List.mem_filter.mp ht).1)
  have hdepth : ∀ x ∈ (Tree.parse .cool config source).errors, x.problem ≠ .tooDeep :=
    fun x hx hproblem ↦ hdeep x hx (by rw [SyntaxError.message, hproblem]; rfl)
  obtain ⟨taken, rest, hitems, hrefusal, htaken, hrest⟩ :=
    Tree.first_error Language.loosest_cool hcomment hclosed herrors hdepth
  have hsplit : Token.significant source.toList = taken.map (·.token) ++ rest.map (·.token) := by
    rw [← Tree.map_token_arrangement config, hitems, List.map_append]
  obtain ⟨hbefore, hbehind⟩ : before = taken.map (·.token) ∧ behind = rest.map (·.token) :=
    Token.upTo_beyond hsplit (List.forall_mem_map.mpr htaken) (List.forall_mem_map.mpr hrest)
  obtain ⟨v, w, hw, hlength, hviable, hnext⟩ := viable_of_refusal hrefusal
  rw [hsplit, List.map_append] at hw
  obtain ⟨rfl, rfl⟩ := List.append_inj hw (by simp [hlength])
  rw [hbefore, hbehind]
  refine ⟨hsplit, hviable, ?_, fun hconfig ↦ ?_⟩
  · cases rest with
    | nil => exact hnext
    | cons item rest => exact hnext
  · subst hconfig
    rw [parseStrict, Language.lack?_cool]
    dsimp only
    rw [herrors]
    exact ⟨_, rfl⟩

theorem Parser.first_error_of_parse_missing_semicolon :
    ∃ e, (Tree.parse .cool {} "class A \x7b x : Int \x7d;").errors = [e] ∧
      e.span.start.offset = 17 ∧
      Viable ((Token.upTo "class A \x7b x : Int \x7d;".toList 17).map (·.kind)) ∧
      ¬Viable ((Token.upTo "class A \x7b x : Int \x7d;".toList 17).map (·.kind) ++
        [.terminal .rightBrace]) := by
  let source := "class A \x7b x : Int \x7d;"
  let e : SyntaxError :=
    ⟨.expected (.terminal .semicolon) (.terminal .rightBrace), .emptyAt ⟨17, 0, 17⟩⟩
  have hcomment : ∀ t ∈ Token.ofSource source.toList, t.kind ≠ .blockComment false := by
    decide +kernel
  have hclosed : ∀ t ∈ Token.ofSource source.toList, t.kind.isClosed = true := by
    decide +kernel
  have hfound :
      (Tree.fileDraft Language.cool.levels 256 (Tree.arrangement {} source)).state.errors ++
        Tree.commentErrors (Token.ofSource source.toList) = [e] := by
    decide +kernel
  have herrors : (Tree.parse .cool {} source).errors = [e] :=
    List.perm_singleton.mp (hfound ▸ Tree.perm_errors .cool {} source)
  have hdeep : ∀ x ∈ (Tree.parse .cool {} source).errors,
      x.message ≠ "expression nested too deeply" := by
    rw [herrors]
    decide +kernel
  have hbeyond : (Token.beyond source.toList e.span.start.offset).map (·.kind) =
      [.terminal .rightBrace, .terminal .semicolon] := by
    decide +kernel
  obtain ⟨-, hviable, hnext, -⟩ := first_error_of_parse (setLanguage_cool {}) {} source hcomment
    (fun t ht ↦ TokenKind.isClosed_iff.mp (hclosed t ht)) rfl herrors hdeep
  split at hnext
  · rename_i hnone
    rw [hnone] at hbeyond
    cases hbeyond
  · rename_i t rest hsome
    rw [hsome] at hbeyond
    obtain ⟨hkind, -⟩ := List.cons.inj hbeyond
    exact ⟨e, herrors, rfl, hviable, hkind ▸ hnext⟩

end CoolTree
