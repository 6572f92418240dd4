import CoolTree.Proofs.Draft
import CoolTree.Proofs.Built

/-!
# A file takes all tokens

Outside classes a file skips to the next one, and a class takes its first word, so every round of
the loop takes a token. The loop ends where no token is left.
-/

namespace CoolTree

namespace Draft

variable (d : Draft)

theorem size_leaf_lt {item : Item} {rest : List Item} (h : d.state.input.items = item :: rest)
    (field : Option Field) (kind : Kind) (faulty : Bool) :
    (d.leaf field kind faulty).state.input.size < d.state.input.size := by
  rw [state_leaf d h]
  exact Input.size_tail_lt h

theorem size_take_lt (h : d.current ≠ .ending) (field : Option Field) :
    (d.take field).state.input.size < d.state.input.size := by
  obtain ⟨item, rest, hitems, -⟩ := items_of_current rfl h
  exact size_leaf_lt d hitems field d.current.leafKind false

theorem size_tokenNode_lt {item : Item} {rest : List Item}
    (h : d.state.input.items = item :: rest) :
    d.tokenNode.state.input.size < d.state.input.size := by
  obtain ⟨-, -, -, -, -, hinput, -⟩ := tokenNode_eq d h
  rw [hinput]
  exact Input.size_tail_lt h

theorem size_skip_lt {item : Item} {rest : List Item} (h : d.state.input.items = item :: rest)
    {stop : TokenClass} (hstop : stop.has d.current = false) :
    (d.skip stop).state.input.size < d.state.input.size := by
  rcases skip_eq d stop with ⟨hzero, -⟩ | ⟨n, w, -, hw, heq⟩
  · rw [current, Input.current, h] at hstop
    simp [distance, h, hstop] at hzero
  · obtain ⟨made, hstate⟩ := hw.state_eq
    rw [heq, state_attach]
    calc
      w.state.input.size = ((blank d.state).tokenNodes (n + 1)).state.input.size := by rw [hstate]
      _ ≤ (blank d.state).tokenNode.state.input.size := (advances_tokenNodes _ n).size_le
      _ < d.state.input.size := size_tokenNode_lt (blank d.state) h

/-- If every round takes a token, the loop ends where the test fails. -/
theorem not_holds_repeatWhile {test : Test} {round : Draft → Draft}
    (h : ∀ d : Draft, test.holds d.state.input = true →
      (round d).state.input.size < d.state.input.size) :
    test.holds (repeatWhile test round d).state.input = false := by
  fun_induction repeatWhile test round d with
  | case1 d _ _ _ ih => exact ih
  | case2 d htest next hnot => exact (hnot (h d htest)).elim
  | case3 d htest => simpa using htest

end Draft

open Draft

variable {levels : Levels} {expression : Int → State → Draft}

theorem Phrase.size_classItem_lt (h : ∀ least s, State.Advances s (expression least s).state)
    (d : Draft) (hclass : d.current ≠ .ending) :
    (classItem.run levels expression d).state.input.size < d.state.input.size := by
  rw [classItem, run]
  exact Nat.lt_of_le_of_lt (advances_run h _ (d.take none)).size_le (size_take_lt d hclass none)

/-- What a file is made of: a class, or tokens up to the next one. -/
def Phrase.fileItem : Phrase :=
  .choose (.within (.only .classWord)) (.node none .classItem classItem .done)
    (.skip (.only .classWord) .done) .done

theorem Phrase.size_fileItem_lt (h : ∀ least s, State.Advances s (expression least s).state)
    (d : Draft) (htest : Test.holds (.outside .ending) d.state.input = true) :
    (fileItem.run levels expression d).state.input.size < d.state.input.size := by
  have hne : d.current ≠ .ending := by
    simpa [Test.holds, TokenClass.has, current] using htest
  by_cases hclass : Test.holds (.within (.only .classWord)) d.state.input = true
  · simp only [fileItem, run, hclass, if_true, state_attach, state_enclose]
    exact size_classItem_lt h (blank d.state) hne
  · simp only [fileItem, run, hclass]
    obtain ⟨item, rest, hitems, -⟩ := items_of_current rfl hne
    exact size_skip_lt d hitems (by simpa [Test.holds, current] using hclass)

/-- All classes from the next token on, and what stands between them. -/
def Draft.fileItems (levels : Levels) (expression : Int → State → Draft) (d : Draft) : Draft :=
  d.repeatWhile (.outside .ending) (Phrase.fileItem.run levels expression)

theorem Draft.advances_fileItems (h : ∀ least s, State.Advances s (expression least s).state)
    (d : Draft) : d.state.Advances (d.fileItems levels expression).state :=
  advances_repeatWhile d _ (Phrase.advances_run h _)

/-- Nothing is left behind a file. -/
theorem Draft.items_fileItems (h : ∀ least s, State.Advances s (expression least s).state)
    {d : Draft} (hd : ∀ item ∈ d.state.input.items, item.token.kind ≠ .ending) :
    (d.fileItems levels expression).state.input.items = [] := by
  have hend : Test.holds (.outside .ending) (d.fileItems levels expression).state.input = false :=
    not_holds_repeatWhile d (Phrase.size_fileItem_lt h)
  have hadvances : d.state.Advances (d.fileItems levels expression).state :=
    advances_fileItems h d
  cases hrest : (d.fileItems levels expression).state.input.items with
  | nil => rfl
  | cons item rest =>
      have hmem : item ∈ d.state.input.items := hadvances.mem_items (hrest ▸ List.mem_cons_self)
      have hcurrent : (d.fileItems levels expression).state.input.current = item.token.kind := by
        rw [Input.current, hrest]
      have hkind : item.token.kind = .ending := by
        rw [← hcurrent]
        simpa [Test.holds, TokenClass.has, fileItems] using hend
      exact (hd item hmem hkind).elim

theorem Phrase.guarded_file : file.guarded .nothing .nothing = true := by
  decide

theorem Draft.built_file (levels : Levels) (depth : Nat) (s : State) :
    Built s (Phrase.file.run levels (Draft.expression levels depth) (blank s)) :=
  Phrase.built_run (built_expression depth) Phrase.file (.blank s) Phrase.guarded_file rfl rfl

namespace Tree

theorem mem_of_mem_parsedTokens {config : Config} {tokens : List Token} {t : Token}
    (h : t ∈ parsedTokens config tokens) : t ∈ tokens := by
  unfold parsedTokens at h
  split at h
  · exact h
  · exact (List.mem_filter.mp h).1

variable (levels : Levels) (depth : Nat) (a : Arrangement)

/-- The draft of a file, from the items of an arrangement. -/
def fileDraft : Draft :=
  Phrase.file.run levels (Draft.expression levels depth) (.blank (initialState a.items))

theorem built_fileDraft : Built (initialState a.items) (fileDraft levels depth a) :=
  built_file levels depth _

theorem toList_nodes_draft :
    (draft levels depth a).nodes.toList =
      (fileDraft levels depth a).nodes.toList ++
        Node.ofComments a.trailing :=
  toList_nodes_addComments _ _

theorem errors_draft :
    (draft levels depth a).state.errors = (fileDraft levels depth a).state.errors := by
  rw [show draft levels depth a = (fileDraft levels depth a).addComments a.trailing from rfl,
    state_addComments]

theorem made_draft :
    (draft levels depth a).state.made =
      (fileDraft levels depth a).state.made + a.trailing.length :=
  congrArg State.made (state_addComments _ _)

theorem items_fileDraft (h : ∀ item ∈ a.items, item.token.kind ≠ .ending) :
    (fileDraft levels depth a).state.input.items = [] :=
  items_fileItems (advances_expression depth) h

end Tree

end CoolTree
