import CoolTree.Proofs.Ledger
import CoolTree.Proofs.Session
import Mathlib.Algebra.BigOperators.Group.List.Basic
import Mathlib.Algebra.Ring.Int.Defs

/-!
# What is parsed without a problem is complete

Constructs match brackets one by one, while a snippet is complete when its brackets, all counted at
once, leave none open. The count is an account that is kept along the parse. What has been read when
a continuation is asked for is not complete.
-/

namespace CoolTree

open Draft Snippet

/-- The ledger of brackets: what closes one weighs, and every problem counts. -/
def Ledger.brackets (items : List Item) : Ledger where
  toLeeway := .none items
  weight k := -bracketChange k
  weight_eq_zero k hk := by cases k <;> first | rfl | exact (hk _ rfl).elim
  closes_file := by decide
  closes_constructs := by decide
  closes_dispatch := by decide
  closes_binary o := by cases o <;> decide
  charge _ := 0

theorem Token.sum_bracketChange_filter (ts : List Token) :
    ((ts.filter (·.kind.isSignificant)).map fun t ↦ bracketChange t.kind).sum =
      (ts.map fun t ↦ bracketChange t.kind).sum := by
  induction ts with
  | nil => rfl
  | cons t ts ih =>
      have hrest : t.kind.isSignificant = false → bracketChange t.kind = 0 := by
        cases t.kind <;> simp [TokenKind.isSignificant, TokenKind.isComment, bracketChange]
      cases h : t.kind.isSignificant with
      | true => simp [h, ih]
      | false => simp [h, ih, hrest h]

/-- A text is complete if its strings and comments are terminated and its brackets close what they
open. -/
theorem Snippet.isComplete_of_closed {text : List Char}
    (hclosed : ∀ t ∈ Token.significant text, t.kind.isClosed = true)
    (hcomments : ∀ t ∈ Token.ofSource text, t.kind ≠ .blockComment false)
    (hsum : ((Token.ofSource text).map fun t ↦ bracketChange t.kind).sum ≤ 0) :
    isComplete text = true := by
  have hopen : ∀ t ∈ Token.ofSource text, isOpen (Source.byteLength text) t = false := by
    intro t ht
    unfold isOpen
    split
    · exact (hcomments t ht ‹_›).elim
    · rename_i parts hkind
      have hmem : t ∈ Token.significant text := List.mem_filter.mpr ⟨ht, by rw [hkind]; rfl⟩
      exact (TokenKind.isClosed_iff.mp (hclosed t hmem) parts hkind).elim
    · rfl
  have hdepth : (Token.ofSource text).foldl (fun depth t ↦ depth + bracketChange t.kind) 0 ≤ 0 :=
    calc (Token.ofSource text).foldl (fun depth t ↦ depth + bracketChange t.kind) 0
      _ = ((Token.ofSource text).map fun t ↦ bracketChange t.kind).sum := by
        rw [List.sum_eq_foldl, List.foldl_map]
      _ ≤ 0 := hsum
  rw [isComplete, Bool.and_eq_true, Bool.not_eq_true', List.any_eq_false, decide_eq_true_eq]
  exact ⟨fun t ht ↦ by rw [hopen t ht]; decide, hdepth⟩

namespace Tree

variable {l : Language} {config : Config} {source : String}

/-- What is parsed without a problem leaves nothing open. -/
theorem isComplete_of_clean (h : (parse l config source).errors = []) :
    isComplete source.toList = true := by
  obtain ⟨hclean, hcomments⟩ := (errors_eq_nil_iff_fileDraft l config source).mp h
  have hclosed := closed_of_clean hclean
  have hle := (Ledger.brackets (arrangement config source).items).charges_le
    (fun s ↦ .of_problem (advances_tooDeep s) rfl id) rfl hclosed l.levels
    (State.clean_none.mpr hclean)
  rw [hclean] at hle
  have hsum :
      (((Token.significant source.toList).map (·.kind)).map fun k ↦ -bracketChange k).sum =
        -((Token.ofSource source.toList).map fun t ↦ bracketChange t.kind).sum := by
    rw [← Token.sum_bracketChange_filter, ← Token.significant, List.sum_neg, List.map_map,
      List.map_map]
    rfl
  exact isComplete_of_closed (List.forall_mem_map.mp hclosed) hcomments
    (Int.neg_nonneg.mp (hsum ▸ hle))

end Tree

namespace Repl

/-- What is pending each time that an event is asked for. -/
def pendings (l : Language) (pending : Pending) : List Event → List Pending
  | [] => []
  | event :: rest =>
    pending :: match (step l pending event).2 with
      | none => []
      | some next => pendings l next rest

def Action.isAsk : Action → Bool
  | .readLine _ | .readContinuation _ => true
  | _ => false

variable {l : Language} {s : Settings} {pending : Pending} {event : Event}

theorem isAsk_ask : (ask s pending).isAsk = true := by
  cases pending <;> rfl

theorem not_isAsk_of_answer {snippet : String} {action : Action}
    (h : action ∈ answer l snippet) : action.isAsk = false := by
  unfold answer at h
  split at h
  · cases h
  · simp only [List.mem_cons, List.mem_map] at h
    obtain rfl | rfl | ⟨e, -, rfl⟩ := h <;> rfl

theorem not_isAsk_of_step {action : Action} (h : action ∈ (step l pending event).1) :
    action.isAsk = false := by
  cases event with
  | line text =>
      rw [step_line] at h
      split at h
      · exact not_isAsk_of_answer h
      · cases h
  | interrupted | ended =>
      cases pending with
      | none => cases h
      | some lines =>
          obtain rfl := List.mem_singleton.mp h
          rfl
  | failed reason =>
      obtain rfl := List.mem_singleton.mp h
      rfl

/-- A loop asks for an event once for each text that is pending. -/
theorem filter_isAsk_loop (pending : Pending) (events : List Event) :
    (loop l s pending events).filter Action.isAsk = (pendings l pending events).map (ask s) := by
  induction events generalizing pending with
  | nil => rfl
  | cons event rest ih =>
      have hstep : (step l pending event).1.filter Action.isAsk = [] :=
        List.filter_eq_nil_iff.mpr fun action haction ↦ by
          simp [not_isAsk_of_step haction]
      rw [loop_cons, pendings, List.cons_append, List.filter_cons_of_pos isAsk_ask,
        List.filter_append, hstep, List.nil_append, List.map_cons]
      cases (step l pending event).2 with
      | none => rfl
      | some next => exact congrArg _ (ih next)

/-- What an event leaves pending is not complete. -/
theorem not_isComplete_of_step {text : String}
    (h : (step l pending event).2 = some (some text)) : isComplete text.toList = false := by
  cases event with
  | line line =>
      rw [step_line] at h
      split at h
      · cases h
      · rename_i hincomplete
        cases h
        exact Bool.eq_false_iff.mpr hincomplete
  | interrupted | ended => cases pending <;> cases h
  | failed reason => cases h

theorem not_isComplete_of_pendings {text : String} {events : List Event}
    (hpending : ∀ text, pending = some text → isComplete text.toList = false)
    (h : some text ∈ pendings l pending events) : isComplete text.toList = false := by
  induction events generalizing pending with
  | nil => cases h
  | cons event rest ih =>
      rcases List.mem_cons.mp h with rfl | h
      · exact hpending text rfl
      · split at h
        · cases h
        · rename_i next hnext
          exact ih (fun text htext ↦ not_isComplete_of_step (hnext.trans (congrArg some htext))) h

end Repl

/-- A source without problems is a complete snippet. So what has been read when a continuation is
asked for has a problem. -/
theorem Parser.complete_of_parse {p q : Parser} {l : Language}
    (hlanguage : p.setLanguage l = .ok q) (config : Config) (source : String) :
    ∃ tree, (q.setConfig config).parse? source = some tree ∧
      (tree.errors = [] → isComplete source.toList = true) ∧
      ∀ (s : Repl.Settings) (script : List Repl.Event),
        let pendings := Repl.pendings l none (script ++ [.ended, .ended])
        (Repl.session l s script).filter Repl.Action.isAsk = pendings.map (Repl.ask s) ∧
          (some source ∈ pendings → tree.errors ≠ []) := by
  refine ⟨Tree.parse l config source, parse?_of_setLanguage hlanguage config source,
    Tree.isComplete_of_clean, fun s script ↦ ⟨?_, fun hmem hclean ↦ ?_⟩⟩
  · have hbanner : (if s.banner then [Repl.Action.print Repl.banner] else []).filter
        Repl.Action.isAsk = [] := by
      split <;> rfl
    rw [Repl.session, List.filter_append, List.filter_cons_of_neg (by rintro ⟨⟩), hbanner,
      Repl.filter_isAsk_loop, List.nil_append]
  · have hincomplete := Repl.not_isComplete_of_pendings (fun _ h ↦ by cases h) hmem
    cases hincomplete.symm.trans (Tree.isComplete_of_clean hclean)

/-- A bracket in a comment leaves nothing open, and the brace of a class does. -/
theorem Parser.complete_of_parse_class :
    let parser : Parser := ⟨some .cool, ⟨1, false⟩⟩
    let closed := "class A \x7b -- (\n\x7d;"
    Parser.setLanguage {} .cool = .ok { language := some .cool } ∧
      (∃ tree, parser.parse? closed = some tree ∧ tree.errors = [] ∧
        isComplete closed.toList = true) ∧
      ∃ tree, parser.parse? "class A \x7b" = some tree ∧
        some "class A \x7b" ∈ Repl.pendings .cool none [.line "class A \x7b", .ended, .ended] ∧
        tree.errors ≠ [] := by
  intro parser closed
  have hclean : (Tree.parse .cool ⟨1, false⟩ closed).errors = [] := by
    have hnone : (Tree.fileDraft Language.cool.levels 1
        (Tree.arrangement ⟨1, false⟩ closed)).state.errors ++
          Tree.commentErrors (Token.ofSource closed.toList) = [] := by
      rw [Language.levels_cool]
      decide +kernel
    exact (hnone ▸ Tree.perm_errors .cool ⟨1, false⟩ closed).eq_nil
  have hpending :
      some "class A \x7b" ∈ Repl.pendings .cool none [.line "class A \x7b", .ended, .ended] := by
    decide +kernel
  obtain ⟨tree, htree, hcomplete, -⟩ := complete_of_parse (setLanguage_cool {}) ⟨1, false⟩ closed
  obtain ⟨broken, hbroken, -, hsession⟩ :=
    complete_of_parse (setLanguage_cool {}) ⟨1, false⟩ "class A \x7b"
  obtain rfl := Option.some.inj htree
  exact ⟨setLanguage_cool {}, ⟨_, htree, hclean, hcomplete hclean⟩, broken, hbroken, hpending,
    (hsession {} [.line "class A \x7b"]).2 hpending⟩

end CoolTree
