import CoolTree.Proofs.Makeup
import Mathlib.Data.List.Forall2

/-!
# Recovery, one token at a time

Recovery knows two moves. Tokens that fit nowhere are skipped: all of them, up to the first one at
which to stop, become one error, and nothing becomes of them if there are none. A terminal that
should come next gets its leaf in any case: what is in front of it is skipped, unless it closes or
separates something, and if the terminal is not there then, the leaf is missing.

What a move does is said for drafts in any state, with the nodes that are added, the tokens that are
consumed and the errors that are reported.
-/

namespace CoolTree

namespace Node

/-- The node stands for a token, whose pieces may be below it. -/
structure StandsFor (n : Node) (t : Token) : Prop where
  kind : n.kind = t.kind.leafKind
  start : n.span.start = t.start

/-- The node has a node below it for each of some tokens, or is the node of the only one. -/
def Holds (n : Node) (tokens : List Token) : Prop :=
  List.Forall₂ StandsFor n.parts tokens ∨ ∃ t, tokens = [t] ∧ n.StandsFor t ∧ n.children = []

variable {n : Node} {tokens : List Token}

theorem StandsFor.assign {t : Token} (h : n.StandsFor t) (field : Option Field) :
    (n.assign field).StandsFor t where
  kind := (n.kind_assign field).trans h.kind
  start := (congrArg Span.start (n.span_assign field)).trans h.start

theorem Holds.assign (h : n.Holds tokens) (field : Option Field) :
    (n.assign field).Holds tokens := by
  unfold Holds parts
  rw [children_assign]
  exact h.imp_right fun ⟨t, htokens, hstands, hchildren⟩ ↦
    ⟨t, htokens, hstands.assign field, hchildren⟩

end Node

/-- What is reported of a token that is read as the node it makes on its own. -/
def Item.errors (item : Item) : List SyntaxError :=
  match item.token.kind with
  | .string _ false => [⟨.unterminatedString, .emptyAt item.token.stop⟩]
  | _ => []

namespace State

/-- Between two states, some items are consumed and some errors are reported, the last one first. -/
structure Passes (s : State) (run : List Item) (new : List SyntaxError) (t : State) : Prop where
  items : s.input.items = run ++ t.input.items
  reached : t.reached = s.reached.behind run
  errors : t.errors = new ++ s.errors

namespace Passes

variable {s t u : State} {run run' : List Item} {new new' : List SyntaxError}

theorem refl (s : State) : s.Passes [] [] s :=
  ⟨rfl, rfl, rfl⟩

theorem trans (h : s.Passes run new t) (h' : t.Passes run' new' u) :
    s.Passes (run ++ run') (new' ++ new) u where
  items := by rw [h.items, h'.items, List.append_assoc]
  reached := by rw [h'.reached, h.reached, Position.behind_append]
  errors := by rw [h'.errors, h.errors, List.append_assoc]

end Passes

end State

namespace Draft

/-- A draft goes on with one error for all tokens in front of the next one at which to stop. -/
structure Wraps (d : Draft) (stop : TokenKind → Bool) (first : Item) (more : List Item) (n : Node)
    (e : Draft) : Prop where
  inside : ∀ item ∈ first :: more, stop item.token.kind = false
  halts : e.state.input.items = [] ∨ stop e.current = true
  stray : n.Stray
  holds : n.Holds ((first :: more).map (·.token))
  present : n.isMissing = false
  start : n.span.start = first.token.start
  nodes : e.nodes.toList = d.nodes.toList ++ Node.ofComments first.comments ++ [n]
  passes : d.state.Passes (first :: more)
    (⟨.unexpected d.current, n.span⟩ :: (first :: more).reverse.flatMap Item.errors) e.state

/-- A draft goes on with the leaf of a terminal that is there. -/
structure Takes (d : Draft) (t : Terminal) (item : Item) (n : Node) (e : Draft) : Prop where
  token : item.token.kind = .terminal t
  leaf : n.Leaf none
  kind : n.kind = .terminal t
  present : n.isMissing = false
  span : n.span = item.token.span
  nodes : e.nodes.toList = d.nodes.toList ++ Node.ofComments item.comments ++ [n]
  passes : d.state.Passes [item] [] e.state

/-- A draft goes on with the leaf of a terminal that is missing. -/
structure Lacks (d : Draft) (t : Terminal) (n : Node) (e : Draft) : Prop where
  leaf : n.Leaf none
  kind : n.kind = .terminal t
  missing : n.isMissing = true
  span : n.span = .emptyAt d.state.reached
  nodes : e.nodes.toList = d.nodes.toList ++ [n]
  passes : d.state.Passes [] [⟨.expected (.terminal t) d.current, n.span⟩] e.state

variable {d : Draft}

theorem passes_tokenNode {item : Item} {rest : List Item}
    (hitems : d.state.input.items = item :: rest) :
    d.state.Passes [item] item.errors d.tokenNode.state := by
  rcases tokenNode_cases d hitems with ⟨parts, closed, hkind, heq⟩ | ⟨faulty, hkind, heq, -⟩
  · obtain ⟨-, hinput, hreached, herrors⟩ := stringLiteral_eq d item parts closed
    rw [heq]
    refine ⟨by simp [hinput, hitems], hreached, herrors.trans ?_⟩
    cases closed <;> simp [Item.errors, hkind]
  · have hnone : item.errors = [] := by
      unfold Item.errors
      split
      · exact (hkind _ _ ‹_›).elim
      · rfl
    rw [heq, state_leaf d hitems, hnone]
    exact ⟨by simp [hitems], rfl, rfl⟩

theorem passes_tokenNodes {run rest : List Item} (hitems : d.state.input.items = run ++ rest) :
    d.state.Passes run (run.reverse.flatMap Item.errors) (d.tokenNodes run.length).state := by
  induction run generalizing d with
  | nil => exact .refl _
  | cons item run ih =>
      have hfirst : d.state.Passes [item] item.errors d.tokenNode.state :=
        passes_tokenNode hitems
      have hrest : d.tokenNode.state.input.items = run ++ rest :=
        (List.cons.inj (hfirst.items.symm.trans hitems)).2
      have hboth := hfirst.trans (ih hrest)
      simpa [tokenNodes, List.flatMap_append] using hboth

theorem exists_standsFor {item : Item} {rest : List Item}
    (hitems : d.state.input.items = item :: rest) :
    ∃ n : Node, d.tokenNode.nodes.toList =
        d.nodes.toList ++ Node.ofComments item.comments ++ [n] ∧
      n.isExtra = false ∧ n.StandsFor item.token ∧
      (item.token.kind.leafKind = .error → n.children = []) := by
  rcases tokenNode_cases d hitems with ⟨parts, closed, hkind, heq⟩ | ⟨faulty, -, heq, -⟩
  · obtain ⟨hnodes, -⟩ := stringLiteral_eq d item parts closed
    rw [heq, hkind]
    exact ⟨_, hnodes, rfl, ⟨by rw [hkind]; rfl, start_literalNode item parts closed⟩,
      nofun⟩
  · rw [heq, toList_nodes_leaf d hitems]
    exact ⟨_, rfl, rfl, ⟨rfl, rfl⟩, fun _ ↦ rfl⟩

/-- The nodes of some tokens, apart from comments. -/
theorem standsFor_tokenNodes {run rest : List Item} {before : List Token}
    (hitems : d.state.input.items = run ++ rest)
    (h : List.Forall₂ Node.StandsFor (d.nodes.toList.filter (!·.isExtra)) before) :
    List.Forall₂ Node.StandsFor ((d.tokenNodes run.length).nodes.toList.filter (!·.isExtra))
      (before ++ run.map (·.token)) := by
  induction run generalizing d before with
  | nil => rwa [List.map_nil, List.append_nil]
  | cons item run ih =>
      obtain ⟨n, hnodes, hextra, hstands, -⟩ := exists_standsFor hitems
      have hrest : d.tokenNode.state.input.items = run ++ rest :=
        (List.cons.inj ((passes_tokenNode hitems).items.symm.trans hitems)).2
      have hparts : d.tokenNode.nodes.toList.filter (!·.isExtra) =
          d.nodes.toList.filter (!·.isExtra) ++ [n] := by
        rw [hnodes, List.filter_append, List.filter_append, Node.filter_ofComments,
          List.append_nil, List.filter_cons_of_pos (by simp [hextra]), List.filter_nil]
      have hbefore : List.Forall₂ Node.StandsFor
          (d.tokenNode.nodes.toList.filter (!·.isExtra)) (before ++ [item.token]) :=
        hparts ▸ List.rel_append h (.cons hstands .nil)
      simpa [tokenNodes] using ih hrest hbefore

namespace Swallowed

variable {s : State} {first : Item} {more rest : List Item} {w : Draft}

/-- What is swallowed is one stray error behind the comments in front of the first token. -/
theorem exists_stray (h : Swallowed s (more.length + 1) w)
    (hitems : s.input.items = first :: more ++ rest) :
    ∃ n : Node, w.nodes.toList = Node.ofComments first.comments ++ [n] ∧
      n.Stray ∧ n.Holds ((first :: more).map (·.token)) ∧ n.isMissing = false ∧
      n.span.start = first.token.start := by
  obtain ⟨n, hnodes, hextra, hmissing, hstart, hbelow⟩ := h.nodes_eq hitems
  obtain ⟨m, hbears, hstray⟩ := Bears.swallowed h
  have hparts := hbears.parts
  rw [hnodes, List.filter_append, Node.filter_ofComments, List.nil_append,
    List.filter_cons_of_pos (by simp [hextra]), List.filter_nil] at hparts
  obtain rfl := List.singleton_inj.mp hparts
  have hstands := standsFor_tokenNodes (d := blank s) hitems .nil
  rw [List.nil_append, ← Node.filter_dropWhile_isExtra, List.length_cons] at hstands
  refine ⟨n, hnodes, hstray, ?_, hmissing, hstart⟩
  rcases hbelow with hbelow | hlone
  · rw [← hbelow] at hstands
    exact .inl hstands
  · rw [hlone, List.filter_cons_of_pos (by simp [hextra]), List.filter_nil,
      List.map_cons] at hstands
    obtain ⟨hfirst, hmore⟩ := List.forall₂_cons.mp hstands
    obtain rfl : more = [] := List.map_eq_nil_iff.mp (List.forall₂_nil_left_iff.mp hmore)
    -- Only a token whose own node is an error stays as it is, and such a token is no string.
    obtain ⟨m, hm, hextra', -, hchildren⟩ := exists_standsFor (d := blank s) hitems
    have hdrop : ((blank s).tokenNodes 1).nodes.toList.dropWhile Node.isExtra = [m] := by
      rw [tokenNodes, tokenNodes, hm, toList_nodes_blank, List.nil_append,
        List.dropWhile_append_of_pos fun c hc ↦ Node.isExtra_of_mem_ofComments hc,
        List.dropWhile_cons_of_neg (by simp [hextra'])]
    obtain rfl := List.singleton_inj.mp (hlone.symm.trans hdrop)
    exact .inr ⟨first.token, rfl, hfirst, hchildren (hfirst.kind.symm.trans hstray.kind)⟩

theorem passes (h : Swallowed s (more.length + 1) w)
    (hitems : s.input.items = first :: more ++ rest) :
    s.Passes (first :: more) ((first :: more).reverse.flatMap Item.errors) w.state := by
  obtain ⟨made, hstate⟩ := h.state_eq
  have htokens := passes_tokenNodes (d := blank s) hitems
  rw [hstate]
  exact ⟨htokens.items, htokens.reached, htokens.errors⟩

variable {d : Draft} {stop : TokenKind → Bool}

theorem wraps (h : Swallowed d.state (more.length + 1) w)
    (hitems : d.state.input.items = first :: more ++ rest)
    (hinside : ∀ item ∈ first :: more, stop item.token.kind = false)
    (hhalts : ∀ item ∈ rest.head?, stop item.token.kind = true) :
    ∃ n, d.Wraps stop first more n (d.attach none (w.reportLast (.unexpected d.current))) := by
  obtain ⟨n, hnodes, hstray, hholds, hmissing, hstart⟩ := h.exists_stray hitems
  have hpassed := h.passes hitems
  have hreported := state_reportLast w (.unexpected d.current) hnodes
  have hleft : (w.reportLast (.unexpected d.current)).state.input.items = rest := by
    rw [hreported]
    exact List.append_cancel_left (hpassed.items.symm.trans hitems)
  refine ⟨n.assign none, hinside, ?_, hstray.assign, hholds.assign none, ?_, ?_, ?_, ?_⟩
  · cases rest with
    | nil => exact .inl hleft
    | cons next after =>
        right
        exact (congrArg stop (current_of_items hleft)).trans (hhalts next rfl)
  · exact (n.isMissing_assign none).trans hmissing
  · exact (congrArg Span.start (n.span_assign none)).trans hstart
  · rw [toList_nodes_attach, toList_nodes_reportLast, hnodes, List.map_append,
      Node.map_assign_ofComments, ← List.append_assoc]
    rfl
  · rw [state_attach, hreported, Node.span_assign]
    exact ⟨hpassed.items, hpassed.reached, congrArg _ hpassed.errors⟩

end Swallowed

variable {stop : TokenKind → Bool}

theorem skipUntil_eq_self (h : d.state.input.items = [] ∨ stop d.current = true) :
    d.skipUntil stop = d := by
  obtain ⟨-, heq⟩ | ⟨n, w, hn, -, -⟩ := skipUntil_eq d stop
  · exact heq
  · exfalso
    cases hitems : d.state.input.items with
    | nil => simp [hitems] at hn
    | cons item rest =>
        have hstop : stop item.token.kind = true := by
          simpa [hitems, current_of_items hitems] using h
        simp [hitems, hstop] at hn

/-- Where there is something to skip, all of it becomes one error. -/
theorem wraps_skipUntil (hne : d.state.input.items ≠ []) (hstop : stop d.current = false) :
    ∃ first more n, d.Wraps stop first more n (d.skipUntil stop) := by
  let passed := fun item : Item ↦ !stop item.token.kind
  obtain ⟨first, rest, hitems⟩ := List.exists_cons_of_ne_nil hne
  have hfirst : passed first = true := by simpa [passed, current_of_items hitems] using hstop
  have htaken : d.state.input.items.takeWhile passed = first :: rest.takeWhile passed := by
    rw [hitems, List.takeWhile_cons_of_pos hfirst]
  have hlength := congrArg List.length htaken
  obtain ⟨hzero, -⟩ | ⟨k, w, hk, hw, heq⟩ := skipUntil_eq d stop
  · cases hlength.symm.trans hzero
  · obtain rfl : (rest.takeWhile passed).length = k := Nat.succ.inj (hlength.symm.trans hk)
    have hsplit : d.state.input.items =
        first :: rest.takeWhile passed ++ d.state.input.items.dropWhile passed := by
      rw [← htaken, List.takeWhile_append_dropWhile]
    have hinside : ∀ item ∈ first :: rest.takeWhile passed, stop item.token.kind = false := by
      rw [← htaken]
      exact fun item hitem ↦ by simpa [passed] using List.mem_takeWhile_imp hitem
    have hhalts : ∀ item ∈ (d.state.input.items.dropWhile passed).head?,
        stop item.token.kind = true := fun item hitem ↦ by
      have hnext := List.head?_dropWhile_not passed d.state.input.items
      rw [Option.mem_def.mp hitem] at hnext
      simpa [passed] using hnext
    obtain ⟨n, hwraps⟩ := hw.wraps hsplit hinside hhalts
    exact ⟨first, _, n, heq ▸ hwraps⟩

theorem Wraps.ne {first : Item} {more : List Item} {n : Node} {e : Draft}
    (h : d.Wraps stop first more n e) : e ≠ d := by
  rintro rfl
  have hlength := congrArg List.length h.passes.items
  simp only [List.length_append, List.length_cons] at hlength
  omega

/-- How skipping goes in any case. -/
theorem skipUntil_cases (d : Draft) (stop : TokenKind → Bool) :
    ((d.state.input.items = [] ∨ stop d.current = true) ∧ d.skipUntil stop = d) ∨
      ¬(d.state.input.items = [] ∨ stop d.current = true) ∧
        ∃ first more n, d.Wraps stop first more n (d.skipUntil stop) := by
  by_cases h : d.state.input.items = [] ∨ stop d.current = true
  · exact .inl ⟨h, skipUntil_eq_self h⟩
  · obtain ⟨hne, hstop⟩ := not_or.mp h
    exact .inr ⟨h, wraps_skipUntil hne (eq_false_of_ne_true hstop)⟩

theorem halts_skipUntil (d : Draft) (stop : TokenKind → Bool) :
    (d.skipUntil stop).state.input.items = [] ∨ stop (d.skipUntil stop).current = true := by
  obtain ⟨h, heq⟩ | ⟨-, first, more, n, hwraps⟩ := skipUntil_cases d stop
  · rwa [heq]
  · exact hwraps.halts

theorem takes_leaf {t : Terminal} (h : d.current = .terminal t) :
    ∃ item n, d.Takes t item n (d.leaf none (.terminal t) false) := by
  obtain ⟨item, rest, hitems, hkind⟩ := items_of_current h (by simp)
  refine ⟨item, _, hkind, ⟨rfl, rfl, rfl, rfl⟩, rfl, rfl, rfl,
    toList_nodes_leaf d hitems none (.terminal t) false, ?_⟩
  rw [state_leaf d hitems]
  exact ⟨by simp [hitems], rfl, rfl⟩

theorem lacks_missing (d : Draft) (t : Terminal) :
    ∃ n, d.Lacks t n (d.missing none (.terminal t) (.expected (.terminal t) d.current)) :=
  ⟨_, ⟨rfl, rfl, rfl, rfl⟩, rfl, rfl, rfl, toList_nodes_missing d none _ _, ⟨rfl, rfl, rfl⟩⟩

/-- Where the skipping in front of a terminal stops, the end of the input among it. -/
theorem halts_iff (d : Draft) (t : Terminal) :
    (d.state.input.items = [] ∨
        TokenClass.has (.either (.only t) .synchronizing) d.current = true) ↔
      d.current = .terminal t ∨ d.current.isSynchronizing = true := by
  have hends : d.state.input.items = [] → d.current.isSynchronizing = true := fun hnil ↦ by
    rw [current_of_nil hnil]
    rfl
  simpa [TokenClass.has] using fun hnil ↦ .inr (hends hnil)

end Draft

namespace Workspace.Shows

variable {w : Workspace} {rest : List Nat} {b : Builder} {d : Draft}

/-- Skipping leaves a workspace and a builder alone just where it leaves the draft alone. -/
theorem skipUntil_eq_self_iff (h : w.Shows rest b d) (stop : TokenKind → Bool) :
    b.skipUntil stop w = (b, w) ↔ w.input.items = [] ∨ stop w.input.current = true := by
  rw [h.input]
  constructor
  · intro heq
    obtain ⟨hhalts, -⟩ | ⟨-, first, more, n, hwraps⟩ := Draft.skipUntil_cases d stop
    · exact hhalts
    · have hinput := (h.skipUntil stop).2.input
      have hlength := congrArg List.length hwraps.passes.items
      rw [heq, h.input] at hinput
      rw [← hinput] at hlength
      simp only [List.length_append, List.length_cons] at hlength
      omega
  · intro hhalts
    have hnone : (w.input.items.takeWhile fun item ↦ !stop item.token.kind).length = 0 := by
      rw [h.input]
      cases hitems : d.state.input.items with
      | nil => rfl
      | cons item items =>
          have hstop : stop item.token.kind = true := by
            simpa [hitems, Input.current] using hhalts
          simp [hstop]
    exact Builder.skipUntil_eq_self hnone

end Workspace.Shows

/-- Skipping leaves a draft alone at the end of the input and at a token where it stops, and makes
one error of all tokens in front of the next such token elsewhere. Expecting a terminal skips what
neither is the terminal nor closes or separates something, and then goes on with one leaf. Wherever
a workspace and a builder show the draft, they come to show what becomes of it, and they are left as
they are if there is nothing to skip. -/
theorem Draft.mending_of_expect (d : Draft) :
    (∀ stop : TokenKind → Bool,
      (d.skipUntil stop = d ↔ d.state.input.items = [] ∨ stop d.current = true) ∧
        (d.skipUntil stop ≠ d → ∃ first more n, d.Wraps stop first more n (d.skipUntil stop))) ∧
      (∀ t : Terminal, ∃ e : Draft,
        (if d.current = .terminal t ∨ d.current.isSynchronizing = true then e = d
          else ∃ first more n,
            d.Wraps (TokenClass.has (.either (.only t) .synchronizing)) first more n e) ∧
        (if e.current = .terminal t then ∃ item n, e.Takes t item n (d.expect t)
          else e.current.isSynchronizing = true ∧ ∃ n, e.Lacks t n (d.expect t))) ∧
      ∀ (w : Workspace) (rest : List Nat) (b : Builder), w.Shows rest b d →
        (∀ stop : TokenKind → Bool,
          (b.skipUntil stop w = (b, w) ↔ w.input.items = [] ∨ stop w.input.current = true) ∧
            w.Reaches rest (b.skipUntil stop w) (d.skipUntil stop)) ∧
          ∀ t : Terminal, w.Reaches rest (b.expect t w) (d.expect t) := by
  refine ⟨fun stop ↦ ?_, fun t ↦ ?_, fun w rest b h ↦
    ⟨fun stop ↦ ⟨h.skipUntil_eq_self_iff stop, h.skipUntil stop⟩, h.expect⟩⟩
  · obtain ⟨h, heq⟩ | ⟨h, first, more, n, hwraps⟩ := skipUntil_cases d stop
    · exact ⟨iff_of_true heq h, fun hne ↦ (hne heq).elim⟩
    · exact ⟨iff_of_false hwraps.ne h, fun _ ↦ ⟨first, more, n, hwraps⟩⟩
  · let e := d.skip (.either (.only t) .synchronizing)
    refine ⟨e, ?_, ?_⟩
    · obtain ⟨h, heq⟩ | ⟨h, hwraps⟩ := skipUntil_cases d _
      · rwa [if_pos ((halts_iff d t).mp h)]
      · rwa [if_neg fun hcurrent ↦ h ((halts_iff d t).mpr hcurrent)]
    · have hhalts := (halts_iff e t).mp (halts_skipUntil d _)
      by_cases hthere : e.current = .terminal t
      · have hexpect : d.expect t = e.leaf none (.terminal t) false := if_pos hthere
        rw [if_pos hthere, hexpect]
        exact takes_leaf hthere
      · have hexpect : d.expect t =
            e.missing none (.terminal t) (.expected (.terminal t) e.current) := if_neg hthere
        rw [if_neg hthere, hexpect]
        exact ⟨hhalts.resolve_left hthere, lacks_missing e t⟩

/-- An operator in front of a class. -/
theorem Draft.mending_of_expect_operator :
    let a := Tree.arrangement {} "+ class"
    let start := Workspace.start a.items a.trailing
    let d := blank (Tree.initialState a.items)
    start.Shows [] {} d ∧
      start.Reaches [] (Builder.expect {} .classWord start) (d.expect .classWord) ∧
      (d.expect .classWord).nodes.toList.map Node.kind = [.error, .terminal .classWord] := by
  intro a start d
  have hshows := Workspace.shows_start a
  refine ⟨hshows, ((mending_of_expect d).2.2 start [] {} hshows).2 .classWord, ?_⟩
  decide +kernel

end CoolTree
