import CoolTree.Console.Repl
import CoolTree.Proofs.Packaged
import Mathlib.Data.List.Basic
import Mathlib.Data.List.Induction

/-!
# Sessions of the read-eval-print loop

What an editor reports falls into rounds. A round goes from one prompt to the next: it is a snippet,
that is, lines up to the first one with which they are complete, or it is dropped, at the prompt or
inside a snippet, by an event that is not a line. Each round is answered by itself, and the session
ends with the end of input at a prompt.
-/

namespace CoolTree.Repl

open Snippet

/-- Lines joined by line feeds. -/
def joined (lines : List String) : String :=
  "\n".intercalate lines

/-- What is pending behind lines that make no snippet yet. -/
def held : List String → Pending
  | [] => none
  | lines => some (joined lines)

/-- What is pending, and one more line. -/
def extended : Pending → String → String
  | none, text => text
  | some lines, text => lines ++ "\n" ++ text

theorem joined_append_singleton {lines : List String} (h : lines ≠ []) (text : String) :
    joined (lines ++ [text]) = joined lines ++ "\n" ++ text := by
  induction lines with
  | nil => exact (h rfl).elim
  | cons line lines ih =>
      cases lines with
      | nil => rw [joined, joined, List.singleton_append, String.intercalate_cons_cons,
          String.intercalate_singleton, String.intercalate_singleton]
      | cons next lines =>
          have hrest := ih (List.cons_ne_nil next lines)
          simp only [joined, List.cons_append, String.intercalate_cons_cons] at hrest ⊢
          rw [hrest]
          simp only [String.append_assoc]

theorem extended_held (lines : List String) (text : String) :
    extended (held lines) text = joined (lines ++ [text]) := by
  cases lines with
  | nil => rfl
  | cons line lines => exact (joined_append_singleton (List.cons_ne_nil line lines) text).symm

theorem held_append_singleton (lines : List String) (text : String) :
    held (lines ++ [text]) = some (joined (lines ++ [text])) := by
  cases lines <;> rfl

section Steps

variable (l : Language) (s : Settings) (pending : Pending)

theorem step_line (text : String) :
    step l pending (.line text) =
      if isComplete (extended pending text).toList then
        (answer l (extended pending text), some none)
      else ([], some (some (extended pending text))) := by
  cases pending <;> rfl

theorem loop_cons (event : Event) (rest : List Event) :
    loop l s pending (event :: rest) =
      ask s pending :: (step l pending event).1 ++
        match (step l pending event).2 with
        | none => [.print "\nGoodbye!\n"]
        | some next => loop l s next rest := rfl

end Steps

/-- Lines of which no beginning is complete. -/
def Incomplete (lines : List String) : Prop :=
  ∀ n < lines.length, isComplete (joined (lines.take (n + 1))).toList = false

instance (lines : List String) : Decidable (Incomplete lines) :=
  inferInstanceAs (Decidable (∀ n < lines.length, _))

theorem incomplete_nil : Incomplete [] := by
  rintro n ⟨⟩

theorem incomplete_append_singleton {lines : List String} {text : String} :
    Incomplete (lines ++ [text]) ↔
      Incomplete lines ∧ isComplete (joined (lines ++ [text])).toList = false := by
  have hlength : (lines ++ [text]).length = lines.length + 1 := List.length_append
  have hwhole : (lines ++ [text]).take (lines.length + 1) = lines ++ [text] :=
    List.take_of_length_le (Nat.le_of_eq hlength)
  have hpart : ∀ n < lines.length, (lines ++ [text]).take (n + 1) = lines.take (n + 1) :=
    fun n hn ↦ List.take_append_of_le_length hn
  constructor
  · intro h
    refine ⟨fun n hn ↦ hpart n hn ▸ h n (by omega), ?_⟩
    exact hwhole ▸ h lines.length (by omega)
  · rintro ⟨h, htext⟩ n hn
    rcases Nat.lt_succ_iff_lt_or_eq.mp (hlength ▸ hn) with hn | rfl
    · exact (hpart n hn).symm ▸ h n hn
    · exact hwhole.symm ▸ htext

def Event.isLine : Event → Bool
  | line _ => true
  | interrupted | ended | failed _ => false

/-- What happens from one prompt to the next. -/
inductive Round where
  /-- A snippet is read, the last line of which completes it. -/
  | snippet (before : List String) (last : String)
  /-- An event that is not a line drops the lines read so far. -/
  | dropped (lines : List String) (event : Event)
  deriving DecidableEq, Inhabited

namespace Round

def events : Round → List Event
  | snippet before last => (before ++ [last]).map .line
  | dropped lines event => lines.map .line ++ [event]

/-- A snippet ends with the first line that completes it. The end of input in front of a snippet
drops nothing: it ends the session. -/
def Proper : Round → Prop
  | snippet before last =>
    Incomplete before ∧ isComplete (joined (before ++ [last])).toList = true
  | dropped lines event =>
    Incomplete lines ∧ event.isLine = false ∧ (lines = [] → event ≠ .ended)

instance : DecidablePred Proper
  | snippet before last =>
    inferInstanceAs (Decidable (Incomplete before ∧ isComplete (joined (before ++ [last])).toList))
  | dropped lines event =>
    inferInstanceAs (Decidable (Incomplete lines ∧ event.isLine = false ∧ _))

/-- The snippet that a round reads, unless it is blank. -/
def snippet? : Round → Option String
  | snippet before last =>
    let text := joined (before ++ [last])
    if isBlank text.toList then none else some text
  | dropped _ _ => none

end Round

/-- What is asked for while so many lines are read. -/
def asked (s : Settings) (lines : Nat) : List Action :=
  (List.range lines).map fun n ↦
    if n = 0 then .readLine s.prompt else .readContinuation s.continuationPrompt

def treeText (t : Tree) : String :=
  "\x1b[1m" ++ t.root.sexp ++ "\x1b[0m\n"

def redText (text : String) : String :=
  "\x1b[31m" ++ text ++ "\x1b[0m\n"

/-- What a parser makes of a snippet. -/
def replies (q : Parser) (text : String) : List Action :=
  if isBlank text.toList then []
  else
    .remember text ::
      match q.parse? text with
      | none => [.printError (redText "Error: internal error: no language set")]
      | some t => .print (treeText t) :: t.errors.map fun e ↦ .printError (redText e.display)

/-- What is said of an event that is not a line. -/
def complaints (lines : List String) : Event → List Action
  | .line _ => []
  | .interrupted => if lines = [] then [] else [.print "\nInput cancelled.\n"]
  | .ended =>
    if lines = [] then []
    else [.printError (redText "Error: internal error: unexpected EOF in multi-line input")]
  | .failed reason => [.printError (redText ("Error: io error: " ++ reason))]

/-- What a round leads to. -/
def Round.actions (q : Parser) (s : Settings) : Round → List Action
  | snippet before last => asked s (before.length + 1) ++ replies q (joined (before ++ [last]))
  | dropped lines event => asked s (lines.length + 1) ++ complaints lines event

theorem asked_succ (s : Settings) (lines : List String) :
    asked s (lines.length + 1) = asked s lines.length ++ [ask s (held lines)] := by
  rw [asked, List.range_succ, List.map_append, List.map_singleton]
  cases lines <;> rfl

/-- Events fall into rounds, behind which the input ends. -/
def Splits (rounds : List Round) (events : List Event) : Prop :=
  (∀ r ∈ rounds, r.Proper) ∧ ∃ rest, events = rounds.flatMap Round.events ++ .ended :: rest

namespace Splits

theorem nil (rest : List Event) : Splits [] (.ended :: rest) :=
  ⟨by simp, rest, rfl⟩

theorem cons {r : Round} {rounds : List Round} {events : List Event} (hr : r.Proper)
    (h : Splits rounds events) : Splits (r :: rounds) (r.events ++ events) := by
  obtain ⟨hrounds, rest, rfl⟩ := h
  refine ⟨List.forall_mem_cons.mpr ⟨hr, hrounds⟩, rest, ?_⟩
  rw [List.flatMap_cons, List.append_assoc]

theorem append {rounds : List Round} {events : List Event} (h : Splits rounds events)
    (more : List Event) : Splits rounds (events ++ more) := by
  obtain ⟨hrounds, rest, rfl⟩ := h
  exact ⟨hrounds, rest ++ more, by rw [List.append_assoc, List.cons_append]⟩

end Splits

section Loop

variable {l : Language} {q : Parser} {s : Settings} (hlanguage : Parser.setLanguage {} l = .ok q)

include hlanguage

theorem parse?_snippet (text : String) : q.parse? text = some (Tree.parse l {} text) := by
  rw [Parser.setLanguage_of_lack? _ (Parser.lack?_of_setLanguage hlanguage)] at hlanguage
  cases hlanguage
  rfl

theorem answer_eq (text : String) : answer l text = replies q text := by
  rw [answer, replies, parse?_snippet hlanguage]
  rfl

omit hlanguage

theorem loop_lines {lines : List String} (h : Incomplete lines) (rest : List Event) :
    loop l s none (lines.map .line ++ rest) =
      asked s lines.length ++ loop l s (held lines) rest := by
  induction lines using List.reverseRecOn generalizing rest with
  | nil => rfl
  | append_singleton lines text ih =>
      obtain ⟨hlines, htext⟩ := incomplete_append_singleton.mp h
      have hstep : step l (held lines) (.line text) = ([], some (held (lines ++ [text]))) := by
        rw [step_line, extended_held, htext, held_append_singleton]
        rfl
      rw [List.map_append, List.append_assoc, ih hlines, List.map_singleton, List.singleton_append,
        loop_cons, hstep, List.length_append, List.length_singleton, asked_succ, List.append_assoc]

include hlanguage

/-- Each round is answered by itself, and a new one starts behind it. -/
theorem loop_round {r : Round} (h : r.Proper) (rest : List Event) :
    loop l s none (r.events ++ rest) = r.actions q s ++ loop l s none rest := by
  cases r with
  | snippet before last =>
      obtain ⟨hbefore, hlast⟩ := h
      have hstep : step l (held before) (.line last) =
          (replies q (joined (before ++ [last])), some none) := by
        rw [step_line, extended_held, if_pos hlast, answer_eq hlanguage]
      rw [Round.events, List.map_append, List.append_assoc, loop_lines hbefore,
        List.map_singleton, List.singleton_append, loop_cons, hstep, Round.actions, asked_succ,
        List.append_assoc, List.append_assoc]
      rfl
  | dropped lines event =>
      obtain ⟨hlines, hline, hended⟩ := h
      have hstep : step l (held lines) event = (complaints lines event, some none) := by
        cases event with
        | line text => cases hline
        | interrupted | failed reason => cases lines <;> rfl
        | ended =>
            cases lines with
            | nil => exact (hended rfl rfl).elim
            | cons line lines => rfl
      rw [Round.events, List.append_assoc, loop_lines hlines, List.singleton_append, loop_cons,
        hstep, Round.actions, asked_succ, List.append_assoc, List.append_assoc]
      rfl

/-- A session that falls into rounds answers them and ends at the prompt behind them. -/
theorem loop_of_splits {rounds : List Round} {events : List Event} (h : Splits rounds events) :
    loop l s none events =
      rounds.flatMap (Round.actions q s) ++ [.readLine s.prompt, .print "\nGoodbye!\n"] := by
  obtain ⟨hrounds, rest, rfl⟩ := h
  induction rounds with
  | nil => rfl
  | cons r rounds ih =>
      obtain ⟨hr, hrounds⟩ := List.forall_mem_cons.mp hrounds
      rw [List.flatMap_cons, List.append_assoc, loop_round hlanguage hr, ih hrounds,
        List.flatMap_cons, List.append_assoc]

end Loop

/-- A script behind which the input ends falls into rounds, also if lines have been read before. -/
theorem exists_splits {lines : List String} (h : Incomplete lines) (script : List Event) :
    ∃ rounds, Splits rounds (lines.map .line ++ (script ++ [.ended, .ended])) := by
  induction script generalizing lines with
  | nil =>
      cases lines with
      | nil => exact ⟨[], .nil [.ended]⟩
      | cons line lines =>
          have hdropped : (Round.dropped (line :: lines) .ended).Proper :=
            ⟨h, rfl, by rintro ⟨⟩⟩
          refine ⟨[.dropped (line :: lines) .ended], ?_⟩
          simpa [Round.events] using Splits.cons hdropped (.nil [])
  | cons event script ih =>
      obtain ⟨rounds, hrounds⟩ := ih incomplete_nil
      have hdrop : event.isLine = false → (lines = [] → event ≠ .ended) →
          Splits (.dropped lines event :: rounds)
            (lines.map .line ++ (event :: script ++ [.ended, .ended])) := by
        intro hline hended
        have hdropped : (Round.dropped lines event).Proper := ⟨h, hline, hended⟩
        simpa [Round.events] using Splits.cons hdropped hrounds
      cases event with
      | line text =>
          cases hcomplete : isComplete (joined (lines ++ [text])).toList with
          | true =>
              have hsnippet : (Round.snippet lines text).Proper := ⟨h, hcomplete⟩
              refine ⟨.snippet lines text :: rounds, ?_⟩
              simpa [Round.events] using Splits.cons hsnippet hrounds
          | false =>
              obtain ⟨rounds, hrounds⟩ := ih (incomplete_append_singleton.mpr ⟨h, hcomplete⟩)
              exact ⟨rounds, by simpa using hrounds⟩
      | interrupted | failed reason => exact ⟨_, hdrop rfl (by rintro - ⟨⟩)⟩
      | ended =>
          cases lines with
          | nil => exact ⟨[], .nil _⟩
          | cons line lines => exact ⟨_, hdrop rfl (by rintro ⟨⟩)⟩

def Action.remembered? : Action → Option String
  | .remember text => some text
  | _ => none

/-- Whether an action prints a tree. -/
def Action.showsTree : Action → Bool
  | .print text => "\x1b[1m".toList.isPrefixOf text.toList
  | _ => false

theorem Action.showsTree_treeText (t : Tree) : (Action.print (treeText t)).showsTree = true := by
  rw [showsTree, List.isPrefixOf_iff_prefix, treeText, String.toList_append, String.toList_append,
    List.append_assoc]
  exact List.prefix_append _ _

/-- Actions that neither remember a snippet nor print a tree. -/
def Action.Silent (action : Action) : Prop :=
  action.remembered? = none ∧ action.showsTree = false

theorem record_of_silent {actions : List Action} (h : ∀ action ∈ actions, action.Silent) :
    actions.filterMap Action.remembered? = [] ∧ actions.filter Action.showsTree = [] := by
  rw [List.filterMap_eq_nil_iff, List.filter_eq_nil_iff]
  exact ⟨fun action haction ↦ (h action haction).1, fun action haction ↦ by
    simp [(h action haction).2]⟩

theorem silent_asked {s : Settings} {n : Nat} : ∀ action ∈ asked s n, action.Silent := by
  intro action haction
  obtain ⟨i, -, rfl⟩ := List.mem_map.mp haction
  split <;> exact ⟨rfl, rfl⟩

theorem silent_banner : ∀ action ∈ [Action.print banner], action.Silent :=
  List.forall_mem_singleton.mpr ⟨rfl, by decide +kernel⟩

theorem silent_complaints {lines : List String} {event : Event} :
    ∀ action ∈ complaints lines event, action.Silent := by
  intro action haction
  cases lines <;> cases event <;> first
    | cases haction; done
    | exact List.mem_singleton.mp haction ▸ ⟨rfl, rfl⟩

section Record

variable {l : Language} {q : Parser} (hlanguage : Parser.setLanguage {} l = .ok q)

include hlanguage

theorem record_replies (text : String) :
    let kept := if isBlank text.toList then [] else [text]
    (replies q text).filterMap Action.remembered? = kept ∧
      (replies q text).filter Action.showsTree =
        kept.map fun text ↦ .print (treeText (Tree.parse l {} text)) := by
  rw [replies, parse?_snippet hlanguage]
  split
  · exact ⟨rfl, rfl⟩
  · have hproblems : ∀ action ∈ (Tree.parse l {} text).errors.map fun e ↦
        Action.printError (redText e.display), action.Silent := by
      intro action haction
      obtain ⟨e, -, rfl⟩ := List.mem_map.mp haction
      exact ⟨rfl, rfl⟩
    obtain ⟨hremembered, hshown⟩ := record_of_silent hproblems
    constructor
    · simp only [List.filterMap_cons, Action.remembered?, hremembered]
    · rw [List.filter_cons_of_neg (by rintro ⟨⟩),
        List.filter_cons_of_pos (Action.showsTree_treeText _), hshown]
      rfl

/-- A round is remembered, and has its tree printed, if it is a snippet that is not blank. -/
theorem record_actions (s : Settings) (r : Round) :
    (r.actions q s).filterMap Action.remembered? = r.snippet?.toList ∧
      (r.actions q s).filter Action.showsTree =
        r.snippet?.toList.map fun text ↦ .print (treeText (Tree.parse l {} text)) := by
  cases r with
  | snippet before last =>
      obtain ⟨hremembered, hshown⟩ :=
        record_of_silent (silent_asked (s := s) (n := before.length + 1))
      obtain ⟨hreplied, htree⟩ := record_replies hlanguage (joined (before ++ [last]))
      have hkept : (Round.snippet before last).snippet?.toList =
          if isBlank (joined (before ++ [last])).toList then []
          else [joined (before ++ [last])] := by
        rw [Round.snippet?]
        split <;> rfl
      rw [Round.actions, List.filterMap_append, List.filter_append, hremembered, hshown, hreplied,
        htree, hkept]
      exact ⟨rfl, rfl⟩
  | dropped lines event =>
      refine record_of_silent fun action haction ↦ ?_
      exact (List.mem_append.mp haction).elim (silent_asked action) (silent_complaints action)

theorem record_rounds (s : Settings) (rounds : List Round) :
    (rounds.flatMap (Round.actions q s)).filterMap Action.remembered? =
        rounds.filterMap Round.snippet? ∧
      (rounds.flatMap (Round.actions q s)).filter Action.showsTree =
        (rounds.filterMap Round.snippet?).map fun text ↦
          .print (treeText (Tree.parse l {} text)) := by
  rw [List.filterMap_flatMap, List.filter_flatMap, List.filterMap_eq_flatMap_toList,
    List.map_flatMap]
  simp only [record_actions hlanguage, and_self]

end Record

end CoolTree.Repl

namespace CoolTree

open Repl

/-- A session answers its rounds one by one and ends with the end of input at a prompt, whatever
more there is. What it remembers are its snippets, blank ones left out, and the trees that it prints
are theirs. -/
theorem Parser.session_of_setLanguage {l : Language} {q : Parser}
    (hlanguage : Parser.setLanguage {} l = .ok q) (s : Settings) (script : List Event) :
    (∃ rounds, Splits rounds (script ++ [.ended, .ended])) ∧
      ∀ rounds, Splits rounds (script ++ [.ended, .ended]) →
        let beginning := Action.setWords (Completion.words l) ::
          if s.banner then [.print banner] else []
        let actions := beginning ++ rounds.flatMap (Round.actions q s) ++
          [.readLine s.prompt, .print "\nGoodbye!\n"]
        let snippets := rounds.filterMap Round.snippet?
        session l s script = actions ∧
          (∀ more, beginning ++ loop l s none (script ++ .ended :: .ended :: more) = actions) ∧
          actions.filterMap Action.remembered? = snippets ∧
          ∃ trees : List Tree, snippets.map q.parse? = trees.map some ∧
            actions.filter Action.showsTree = trees.map fun t ↦ .print (treeText t) := by
  refine ⟨exists_splits incomplete_nil script, fun rounds hrounds ↦ ?_⟩
  intro beginning actions snippets
  have hloop : ∀ more, beginning ++ loop l s none (script ++ .ended :: .ended :: more) =
      actions := by
    intro more
    have hsplits : Splits rounds (script ++ .ended :: .ended :: more) := by
      simpa using hrounds.append more
    rw [loop_of_splits hlanguage hsplits, ← List.append_assoc]
  have hbeginning : ∀ action ∈ beginning, action.Silent := by
    refine List.forall_mem_cons.mpr ⟨⟨rfl, rfl⟩, ?_⟩
    split
    · exact silent_banner
    · rintro action ⟨⟩
  have hgoodbye : ∀ action ∈ [Action.readLine s.prompt, .print "\nGoodbye!\n"],
      action.Silent :=
    List.forall_mem_cons.mpr ⟨⟨rfl, rfl⟩, List.forall_mem_singleton.mpr ⟨rfl, rfl⟩⟩
  obtain ⟨hremembered, hshown⟩ := record_rounds hlanguage s rounds
  refine ⟨hloop [], hloop, ?_, snippets.map (Tree.parse l {}), ?_, ?_⟩
  · rw [List.filterMap_append, List.filterMap_append, (record_of_silent hbeginning).1,
      (record_of_silent hgoodbye).1, hremembered, List.nil_append, List.append_nil]
  · rw [List.map_map]
    exact List.map_congr_left fun text _ ↦ parse?_snippet hlanguage text
  · rw [List.filter_append, List.filter_append, (record_of_silent hbeginning).2,
      (record_of_silent hgoodbye).2, hshown, List.nil_append, List.append_nil, List.map_map]
    rfl

/-- A snippet over two lines, a blank one, events at a prompt and lines that are dropped. -/
theorem Parser.session_of_setLanguage_script :
    let script : List Event := [.line "class A \x7b", .line "\x7d;", .line " ", .failed "no line",
      .line "(", .interrupted, .interrupted, .line "self", .line "class B \x7b"]
    let rounds : List Round := [.snippet ["class A \x7b"] "\x7d;", .snippet [] " ",
      .dropped [] (.failed "no line"), .dropped ["("] .interrupted, .dropped [] .interrupted,
      .snippet [] "self", .dropped ["class B \x7b"] .ended]
    Parser.setLanguage {} .cool = .ok { language := some .cool } ∧
      Splits rounds (script ++ [.ended, .ended]) ∧
      (session .cool {} script).filterMap Action.remembered? = ["class A \x7b\n\x7d;", "self"] := by
  intro script rounds
  have hsplits : Splits rounds (script ++ [.ended, .ended]) :=
    ⟨by decide +kernel, [], rfl⟩
  obtain ⟨hsession, -, hremembered, -⟩ :=
    (session_of_setLanguage (setLanguage_cool {}) {} script).2 rounds hsplits
  refine ⟨setLanguage_cool {}, hsplits, ?_⟩
  rw [hsession, hremembered]
  decide +kernel

end CoolTree
