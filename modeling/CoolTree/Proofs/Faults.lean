import CoolTree.Proofs.Arrangement
import CoolTree.Proofs.Packaged
import CoolTree.Proofs.Preorder
import CoolTree.Proofs.Whole

/-!
# What is wrong with a tree

A node is at fault itself when it fits nowhere, is not there, or is a comment without its end. A
flag says that there is such a node at or below a node, and every fault is reported once, except
for errors inside errors, which belong to the error around them.
-/

namespace CoolTree

namespace Node

variable (opens : Span → Bool)

/-- Whether a node is an unterminated comment, by the spans at which these stand. -/
def isOpen (n : Node) : Bool :=
  n.kind == .blockComment && opens n.span

/-- Whether a node is at fault itself. -/
def isFault (n : Node) : Bool :=
  n.isError || n.isMissing || n.isOpen opens

/-- Whether a problem is reported for a node that stands in an error or does not. -/
def isReported (inError : Bool) (n : Node) : Bool :=
  (n.isError && !inError) || n.isMissing || n.isOpen opens

mutual

/-- The spans of the nodes from here down for which problems are reported. -/
def reported (inError : Bool) : Node → List Span
  | mk label children =>
    (if (mk label children).isReported opens inError then [label.span] else []) ++
      reportedAll (label.kind == .error) children

def reportedAll (inError : Bool) : List Node → List Span
  | [] => []
  | n :: rest => n.reported inError ++ reportedAll inError rest

end

/-- Whether the flags of several nodes and of those below them say what is at fault there. -/
def Flagged (ns : List Node) : Prop :=
  ∀ n ∈ preorders ns, n.isFaulty = n.preorder.any (isFault opens)

/-- Whether none of several nodes and of those below them is an unterminated comment. -/
def Unopened (ns : List Node) : Prop :=
  ∀ n ∈ preorders ns, n.isOpen opens = false

variable {opens} {inError : Bool}

theorem reported_eq (n : Node) :
    n.reported opens inError =
      (if n.isReported opens inError then [n.span] else []) ++
        reportedAll opens n.isError n.children := by
  cases n
  rfl

@[simp] theorem reportedAll_nil : reportedAll opens inError [] = [] := rfl

@[simp] theorem reportedAll_cons (n : Node) (ns : List Node) :
    reportedAll opens inError (n :: ns) =
      n.reported opens inError ++ reportedAll opens inError ns := rfl

@[simp] theorem reportedAll_append (xs ys : List Node) :
    reportedAll opens inError (xs ++ ys) =
      reportedAll opens inError xs ++ reportedAll opens inError ys := by
  induction xs with
  | nil => rfl
  | cons x xs ih => simp [ih]

@[simp] theorem isOpen_assign (field : Option Field) (n : Node) :
    (n.assign field).isOpen opens = n.isOpen opens := by
  simp [isOpen]

@[simp] theorem isFault_assign (field : Option Field) (n : Node) :
    (n.assign field).isFault opens = n.isFault opens := by
  simp [isFault]

@[simp] theorem reported_assign (field : Option Field) (n : Node) :
    (n.assign field).reported opens inError = n.reported opens inError := by
  simp [reported_eq, isReported]

@[simp] theorem reportedAll_map_assign (field : Option Field) (ns : List Node) :
    reportedAll opens inError (ns.map (Node.assign field)) = reportedAll opens inError ns := by
  induction ns with
  | nil => rfl
  | cons n ns ih => simp [ih]

theorem reportedAll_of_not_isError {ns : List Node} (h : ∀ n ∈ ns, n.isError = false)
    (a b : Bool) : reportedAll opens a ns = reportedAll opens b ns := by
  induction ns with
  | nil => rfl
  | cons n ns ih =>
      obtain ⟨hn, hns⟩ := List.forall_mem_cons.mp h
      simp [reported_eq, isReported, hn, ih hns]

theorem any_preorder (n : Node) (p : Node → Bool) :
    n.preorder.any p = (p n || (preorders n.children).any p) := by
  rw [preorder_eq, List.any_cons]

theorem any_preorders (ns : List Node) (p : Node → Bool) :
    (preorders ns).any p = ns.any fun n ↦ n.preorder.any p := by
  induction ns with
  | nil => rfl
  | cons n ns ih => simp [ih]

namespace Flagged

theorem nil : Flagged opens [] := by
  simp [Flagged]

theorem append_iff {xs ys : List Node} :
    Flagged opens (xs ++ ys) ↔ Flagged opens xs ∧ Flagged opens ys := by
  simp [Flagged, or_imp, forall_and]

theorem cons_iff {n : Node} {ns : List Node} :
    Flagged opens (n :: ns) ↔
      n.isFaulty = n.preorder.any (isFault opens) ∧ Flagged opens n.children ∧
        Flagged opens ns := by
  simp [Flagged, preorder_eq, or_imp, forall_and]

theorem any_isFaulty {ns : List Node} (h : Flagged opens ns) :
    ns.any isFaulty = (preorders ns).any (isFault opens) := by
  rw [any_preorders, Bool.eq_iff_iff, List.any_eq_true, List.any_eq_true]
  refine exists_congr fun n ↦ and_congr_right fun hn ↦ ?_
  rw [h n (mem_preorders.mpr ⟨n, hn, n.self_mem_preorder⟩)]

theorem singleton {n : Node} (hchildren : Flagged opens n.children)
    (hn : n.isFaulty = (n.isFault opens || n.children.any isFaulty)) : Flagged opens [n] := by
  refine cons_iff.mpr ⟨?_, hchildren, nil⟩
  rw [hn, hchildren.any_isFaulty, any_preorder]

theorem leaf {n : Node} (hchildren : n.children = []) (hn : n.isFaulty = n.isFault opens) :
    Flagged opens [n] :=
  singleton (hchildren ▸ nil) (by simp [hn, hchildren])

theorem assign {ns : List Node} (h : Flagged opens ns) (field : Option Field) :
    Flagged opens (ns.map (Node.assign field)) := by
  induction ns with
  | nil => exact nil
  | cons n ns ih =>
      obtain ⟨hn, hchildren, hns⟩ := cons_iff.mp h
      refine cons_iff.mpr ⟨?_, by simpa using hchildren, ih hns⟩
      rw [any_preorder] at hn ⊢
      simpa using hn

end Flagged

namespace Unopened

theorem nil : Unopened opens [] := by
  simp [Unopened]

theorem append_iff {xs ys : List Node} :
    Unopened opens (xs ++ ys) ↔ Unopened opens xs ∧ Unopened opens ys := by
  simp [Unopened, or_imp, forall_and]

theorem cons_iff {n : Node} {ns : List Node} :
    Unopened opens (n :: ns) ↔
      n.isOpen opens = false ∧ Unopened opens n.children ∧ Unopened opens ns := by
  simp [Unopened, preorder_eq, or_imp, forall_and]

theorem leaf {n : Node} (hchildren : n.children = []) (hn : n.isOpen opens = false) :
    Unopened opens [n] :=
  cons_iff.mpr ⟨hn, hchildren ▸ nil, nil⟩

theorem assign {ns : List Node} (h : Unopened opens ns) (field : Option Field) :
    Unopened opens (ns.map (Node.assign field)) := by
  induction ns with
  | nil => exact nil
  | cons n ns ih =>
      obtain ⟨hn, hchildren, hns⟩ := cons_iff.mp h
      exact cons_iff.mpr ⟨by simpa using hn, by simpa using hchildren, ih hns⟩

end Unopened

theorem not_isOpen_of_isOrdinary {n : Node} (h : n.kind.isOrdinary = true) :
    n.isOpen opens = false := by
  cases hk : n.kind <;> simp_all [isOpen, Kind.isOrdinary]

theorem not_isOpen_of_isError {n : Node} (h : n.isError = true) : n.isOpen opens = false := by
  have hkind : n.kind = .error := by simpa [isError] using h
  simp [isOpen, hkind]

theorem reported_of_ordinary (opens : Span → Bool) (inError : Bool) {n : Node}
    (hkind : n.kind.isOrdinary = true) (hmissing : n.isMissing = false) :
    n.isFault opens = false ∧
      n.reported opens inError = reportedAll opens false n.children := by
  have herror : n.isError = false := by
    cases hk : n.kind <;> simp_all [isError, Kind.isOrdinary]
  have hopen : n.isOpen opens = false := not_isOpen_of_isOrdinary hkind
  constructor
  · simp [isFault, herror, hopen, hmissing]
  · simp [reported_eq, isReported, herror, hopen, hmissing]

theorem reported_of_isError (opens : Span → Bool) {n : Node} (herror : n.isError = true)
    (hmissing : n.isMissing = false) :
    n.isFault opens = true ∧
      n.reported opens true = reportedAll opens true n.children ∧
      n.reported opens false = n.span :: reportedAll opens true n.children := by
  have hopen : n.isOpen opens = false := not_isOpen_of_isError herror
  refine ⟨by simp [isFault, herror], ?_, ?_⟩ <;>
    simp [reported_eq, isReported, herror, hopen, hmissing]

theorem faults_absentAt (opens : Span → Bool) (inError : Bool) (field : Option Field) (kind : Kind)
    (p : Position) :
    Flagged opens [absentAt field kind p] ∧
      reportedAll opens inError [absentAt field kind p] = [.emptyAt p] := by
  refine ⟨.leaf rfl ?_, ?_⟩
  · simp [isFault, isFaulty, isMissing, absentAt]
  · simp [reported_eq, isReported, isMissing, span, absentAt]

theorem not_isError_ofComment {c : Token} (h : c.kind.isComment = true) :
    (ofComment c).isError = false := by
  cases hk : c.kind <;> simp_all [isError, ofComment, kind, TokenKind.leafKind,
    TokenKind.isComment]

/-- Comments are marked by their spans. -/
theorem faults_ofComments {cs : List Token} (hcomment : ∀ c ∈ cs, c.kind.isComment = true)
    (hopens : ∀ c ∈ cs, (c.kind = .blockComment false ↔
      c.kind.leafKind = .blockComment ∧ opens c.span = true)) :
    Flagged opens (ofComments cs) ∧
      reportedAll opens inError (ofComments cs) =
        (cs.filter (·.kind == .blockComment false)).map Token.span := by
  induction cs with
  | nil => exact ⟨.nil, rfl⟩
  | cons c cs ih =>
      obtain ⟨hc, hcs⟩ := List.forall_mem_cons.mp hcomment
      obtain ⟨hopen, hopens⟩ := List.forall_mem_cons.mp hopens
      obtain ⟨hflagged, hreported⟩ := ih hcs hopens
      have herror := not_isError_ofComment hc
      have hfault : (ofComment c).isOpen opens = (c.kind == .blockComment false) := by
        rw [Bool.eq_iff_iff, beq_iff_eq, hopen]
        simp [isOpen, ofComment, kind, span]
      constructor
      · rw [ofComments, ← List.singleton_append]
        refine Flagged.append_iff.mpr ⟨.leaf rfl ?_, hflagged⟩
        simp only [isFault, herror, hfault]
        rfl
      · rw [ofComments, reportedAll_cons, hreported, reported_eq, isReported, herror, hfault,
          List.filter_cons]
        by_cases hkind : c.kind = .blockComment false
        · simp only [hkind, beq_self_eq_true, if_true]
          rfl
        · have hclosed : (c.kind == .blockComment false) = false := by simpa using hkind
          simp only [hclosed, if_false, Bool.false_eq_true]
          rfl

theorem loose_of_mem_ofComments {cs : List Token}
    (hcomment : ∀ c ∈ cs, c.kind.isComment = true) {n : Node} (h : n ∈ ofComments cs) :
    n.isMissing = false ∧ (n.isExtra = true → n.isError = false) := by
  induction cs with
  | nil => simp [ofComments] at h
  | cons c cs ih =>
      obtain ⟨hc, hcs⟩ := List.forall_mem_cons.mp hcomment
      rcases List.mem_cons.mp h with rfl | h
      · exact ⟨rfl, fun _ ↦ not_isError_ofComment hc⟩
      · exact ih hcs h

theorem unopened_ofComments {cs : List Token} (h : ∀ c ∈ cs, opens c.span = false) :
    Unopened opens (ofComments cs) := by
  induction cs with
  | nil => exact .nil
  | cons c cs ih =>
      obtain ⟨hc, hcs⟩ := List.forall_mem_cons.mp h
      refine Unopened.cons_iff.mpr ⟨?_, .nil, ih hcs⟩
      simp [isOpen, ofComment, span, hc]

theorem unopened_ofPieces {pieces : List (Kind × List Char)}
    (h : ∀ piece ∈ pieces, piece.1.isOrdinary = true) (p : Position) :
    Unopened opens (ofPieces p pieces) := by
  induction pieces generalizing p with
  | nil => exact .nil
  | cons piece pieces ih =>
      obtain ⟨hkind, hpieces⟩ := List.forall_mem_cons.mp h
      exact Unopened.cons_iff.mpr ⟨not_isOpen_of_isOrdinary hkind, .nil, ih hpieces _⟩

theorem faults_ofPieces (opens : Span → Bool) (inError : Bool) {pieces : List (Kind × List Char)}
    (h : ∀ piece ∈ pieces, piece.1.isOrdinary = true) (p : Position) :
    Flagged opens (ofPieces p pieces) ∧ reportedAll opens inError (ofPieces p pieces) = [] := by
  induction pieces generalizing p with
  | nil => exact ⟨.nil, rfl⟩
  | cons piece pieces ih =>
      obtain ⟨kind, text⟩ := piece
      obtain ⟨hkind, hpieces⟩ := List.forall_mem_cons.mp h
      obtain ⟨hflagged, hreported⟩ := ih hpieces (p.after text)
      rw [ofPieces, reportedAll_cons, hreported, List.append_nil, ← List.singleton_append]
      have hleaf := reported_of_ordinary opens inError (n := .mk ⟨kind, ⟨p, p.after text⟩,
        none, false, false, false⟩ []) hkind rfl
      exact ⟨Flagged.append_iff.mpr ⟨.leaf rfl hleaf.1.symm, hflagged⟩, hleaf.2⟩

theorem isOrdinary_of_mem_literalPieces (parts : List BodyPart) (closed : Bool) :
    ∀ piece ∈ BodyPart.pieces parts closed, piece.1.isOrdinary = true := by
  have hquote : Kind.quote.isOrdinary = true := rfl
  have hparts : ∀ part : BodyPart, part.piece.1.isOrdinary = true := by
    rintro (_ | _) <;> rfl
  cases closed <;> simp [BodyPart.pieces, or_imp, forall_and, hparts, hquote]

theorem unopened_literal (item : Item) (parts : List BodyPart) (closed : Bool) :
    Unopened opens [Draft.literalNode item parts closed] := by
  refine Unopened.cons_iff.mpr ⟨not_isOpen_of_isOrdinary rfl, ?_, .nil⟩
  refine Unopened.append_iff.mpr ⟨?_, ?_⟩
  · exact unopened_ofPieces (isOrdinary_of_mem_literalPieces parts closed) _
  · cases closed
    · exact Unopened.cons_iff.mpr ⟨not_isOpen_of_isOrdinary rfl, .nil, .nil⟩
    · exact .nil

theorem faults_literal (opens : Span → Bool) (inError : Bool) (item : Item)
    (parts : List BodyPart) (closed : Bool) :
    Flagged opens [Draft.literalNode item parts closed] ∧
      (Draft.literalNode item parts closed).reported opens inError =
        if closed then [] else [.emptyAt item.token.stop] := by
  have hpieces := faults_ofPieces opens false (isOrdinary_of_mem_literalPieces parts closed)
    item.token.start
  have habsent := faults_absentAt opens false none .quote item.token.stop
  have hchildren : Flagged opens (Draft.literalChildren item parts closed) ∧
      reportedAll opens false (Draft.literalChildren item parts closed) =
        if closed then [] else [.emptyAt item.token.stop] := by
    rw [Draft.literalChildren, Flagged.append_iff, reportedAll_append, hpieces.2]
    refine ⟨⟨hpieces.1, ?_⟩, ?_⟩
    · cases closed
      · exact habsent.1
      · exact .nil
    · cases closed
      · exact habsent.2
      · rfl
  obtain ⟨hfault, hreported⟩ := reported_of_ordinary opens inError
    (n := Draft.literalNode item parts closed) rfl rfl
  refine ⟨.singleton hchildren.1 ?_, hreported.trans hchildren.2⟩
  rw [hfault, Bool.false_or]
  rfl

end Node

/-- What the tokens of an item have to do with the spans of unterminated comments. -/
structure Item.Quiet (opens : Span → Bool) (item : Item) : Prop where
  isComment : ∀ c ∈ item.comments, c.kind.isComment = true
  closed : ∀ c ∈ item.comments, c.kind ≠ .blockComment false
  not_opens : ∀ c ∈ item.comments, opens c.span = false
  isSignificant : item.token.kind.isSignificant = true

theorem Item.Quiet.faults_ofComments {opens : Span → Bool} {item : Item} (h : item.Quiet opens)
    (inError : Bool) :
    Node.Flagged opens (Node.ofComments item.comments) ∧
      Node.reportedAll opens inError (Node.ofComments item.comments) = [] := by
  have hopens : ∀ c ∈ item.comments, (c.kind = .blockComment false ↔
      c.kind.leafKind = .blockComment ∧ opens c.span = true) := fun c hc ↦ by
    simp [h.closed c hc, h.not_opens c hc]
  obtain ⟨hflagged, hreported⟩ := Node.faults_ofComments h.isComment hopens
  refine ⟨hflagged, hreported.trans ?_⟩
  rw [List.map_eq_nil_iff, List.filter_eq_nil_iff]
  simpa using h.closed

namespace Draft

/-- The problems of a draft are those of the state it started from and those of its nodes, and no
node is an unterminated comment. -/
structure Accounts (opens : Span → Bool) (inError : Bool) (s : State) (d : Draft) : Prop where
  unopened : Node.Unopened opens d.nodes.toList
  flagged : Node.Flagged opens d.nodes.toList
  reported : (d.state.errors.map (·.span)).Perm
    (Node.reportedAll opens inError d.nodes.toList ++ s.errors.map (·.span))

namespace Accounts

variable {opens : Span → Bool} {inError : Bool} {s : State} {d : Draft}

theorem blank (s : State) : Accounts opens inError s (blank s) :=
  ⟨.nil, .nil, .refl _⟩

theorem add (h : Accounts opens inError s d) (new : List SyntaxError) {d' : Draft}
    {more : List Node} (hnodes : d'.nodes.toList = d.nodes.toList ++ more)
    (hunopened : Node.Unopened opens more) (hflagged : Node.Flagged opens more)
    (herrors : d'.state.errors = new ++ d.state.errors)
    (hnew : (new.map (·.span)).Perm (Node.reportedAll opens inError more)) :
    Accounts opens inError s d' where
  unopened := hnodes ▸ Node.Unopened.append_iff.mpr ⟨h.unopened, hunopened⟩
  flagged := hnodes ▸ Node.Flagged.append_iff.mpr ⟨h.flagged, hflagged⟩
  reported := by
    rw [herrors, hnodes, List.map_append, Node.reportedAll_append]
    apply (hnew.append h.reported).trans
    rw [← List.append_assoc]
    exact List.perm_append_comm.append_right _

theorem pass (h : Accounts opens inError s d) (new : List SyntaxError) {item : Item}
    (hitem : item.Quiet opens) {d' : Draft} {node : Node}
    (hnodes : d'.nodes.toList = d.nodes.toList ++ Node.ofComments item.comments ++ [node])
    (hunopened : Node.Unopened opens [node]) (hflagged : Node.Flagged opens [node])
    (herrors : d'.state.errors = new ++ d.state.errors)
    (hnew : new.map (·.span) = node.reported opens inError) : Accounts opens inError s d' := by
  obtain ⟨hcomments, hreported⟩ := hitem.faults_ofComments inError
  refine h.add new (hnodes.trans (List.append_assoc _ _ _)) ?_ ?_ herrors ?_
  · exact Node.Unopened.append_iff.mpr ⟨Node.unopened_ofComments hitem.not_opens, hunopened⟩
  · exact Node.Flagged.append_iff.mpr ⟨hcomments, hflagged⟩
  · rw [Node.reportedAll_append, hreported, hnew]
    simp

theorem literal (h : Accounts opens inError s d) {item : Item} (hitem : item.Quiet opens)
    (parts : List BodyPart) (closed : Bool) :
    Accounts opens inError s (d.stringLiteral item parts closed) := by
  obtain ⟨hnodes, -, -, herrors⟩ := stringLiteral_eq d item parts closed
  have hliteral := Node.faults_literal opens inError item parts closed
  apply h.pass _ hitem hnodes (Node.unopened_literal _ _ _) hliteral.1 herrors
  rw [hliteral.2]
  cases closed <;> rfl

theorem leaf (h : Accounts opens inError s d) {item : Item} (hitem : item.Quiet opens)
    {rest : List Item} (hitems : d.state.input.items = item :: rest) (field : Option Field)
    {kind : Kind} (hkind : kind.isOrdinary = true) :
    Accounts opens inError s (d.leaf field kind false) := by
  obtain ⟨hfault, hreported⟩ := Node.reported_of_ordinary opens inError
    (n := .mk ⟨kind, item.token.span, field, false, false, false⟩ []) hkind rfl
  refine h.pass [] hitem (toList_nodes_leaf d hitems field kind false)
    (.leaf rfl (Node.not_isOpen_of_isOrdinary hkind)) (.leaf rfl hfault.symm) ?_ hreported.symm
  rw [state_leaf d hitems]
  rfl

/-- An unknown character is an error of its own, which is not reported inside an error. -/
theorem unknown (h : Accounts opens true s d) {item : Item} (hitem : item.Quiet opens)
    {rest : List Item} (hitems : d.state.input.items = item :: rest) :
    Accounts opens true s (d.leaf none .error true) := by
  obtain ⟨hfault, hreported, -⟩ := Node.reported_of_isError opens
    (n := .mk ⟨.error, item.token.span, none, false, false, true⟩ []) rfl rfl
  refine h.pass [] hitem (toList_nodes_leaf d hitems none .error true)
    (.leaf rfl (Node.not_isOpen_of_isError rfl)) (.leaf rfl hfault.symm) ?_ hreported.symm
  rw [state_leaf d hitems]
  rfl

theorem tokenNode (h : Accounts opens true s d)
    (hd : ∀ item ∈ d.state.input.items, item.Quiet opens) : Accounts opens true s d.tokenNode := by
  cases hitems : d.state.input.items with
  | nil => rwa [tokenNode_of_nil d hitems]
  | cons item rest =>
      have hitem : item.Quiet opens := hd item (by simp [hitems])
      rcases tokenNode_cases d hitems with
        ⟨parts, closed, -, heq⟩ | ⟨faulty, hkind, heq, hunknown⟩
      · rw [heq]
        exact h.literal hitem parts closed
      · rw [heq]
        by_cases hfaulty : faulty = true
        · obtain ⟨c, hc⟩ := hunknown.mp hfaulty
          rw [hfaulty, hc]
          exact h.unknown hitem hitems
        · rw [Bool.not_eq_true] at hfaulty
          subst hfaulty
          apply h.leaf hitem hitems none
          have hsignificant := hitem.isSignificant
          cases hk : item.token.kind <;>
            simp_all [TokenKind.leafKind, Kind.isOrdinary, TokenKind.isSignificant,
              TokenKind.isComment]

theorem tokenNodes (h : Accounts opens true s d)
    (hd : ∀ item ∈ d.state.input.items, item.Quiet opens) (n : Nat) :
    Accounts opens true s (d.tokenNodes n) := by
  induction n generalizing d with
  | zero => exact h
  | succ n ih =>
      exact ih (h.tokenNode hd) fun item hitem ↦ hd item ((advances_tokenNode d).mem_items hitem)

theorem missing (h : Accounts opens inError s d) (field : Option Field) {kind : Kind}
    (hkind : kind.isOrdinary = true) (problem : Problem) :
    Accounts opens inError s (d.missing field kind problem) := by
  obtain ⟨hflagged, hreported⟩ := Node.faults_absentAt opens inError field kind d.state.reached
  exact h.add [⟨problem, .emptyAt d.state.reached⟩]
    (toList_nodes_missing d field kind problem)
    (.leaf rfl (Node.not_isOpen_of_isOrdinary hkind)) hflagged rfl (hreported ▸ .refl _)

theorem attach (h : Accounts opens inError s d) {inner : Draft}
    (hinner : Accounts opens inError d.state inner) (field : Option Field) :
    Accounts opens inError s (d.attach field inner) where
  unopened := by
    rw [toList_nodes_attach]
    exact Node.Unopened.append_iff.mpr ⟨h.unopened, hinner.unopened.assign field⟩
  flagged := by
    rw [toList_nodes_attach]
    exact Node.Flagged.append_iff.mpr ⟨h.flagged, hinner.flagged.assign field⟩
  reported := by
    rw [toList_nodes_attach, Node.reportedAll_append, Node.reportedAll_map_assign, state_attach]
    apply (hinner.reported.trans (h.reported.append_left _)).trans
    rw [← List.append_assoc]
    exact List.perm_append_comm.append_right _

theorem enclose (h : Accounts opens false s d) {kind : Kind} (hkind : kind.isOrdinary = true) :
    Accounts opens false s (d.enclose kind false) := by
  have hsplit := List.takeWhile_append_dropWhile (p := Node.isExtra) (l := d.nodes.toList)
  obtain ⟨hunopened, hflagged, hreported⟩ := h
  rw [← hsplit, Node.Unopened.append_iff] at hunopened
  rw [← hsplit, Node.Flagged.append_iff] at hflagged
  rw [← hsplit, Node.reportedAll_append] at hreported
  obtain ⟨hfault, hnode⟩ := Node.reported_of_ordinary opens false
    (n := d.enclosure kind false) hkind rfl
  refine ⟨?_, ?_, ?_⟩
  · rw [toList_nodes_enclose, Node.Unopened.append_iff, Node.Unopened.cons_iff]
    exact ⟨hunopened.1, Node.not_isOpen_of_isOrdinary hkind, hunopened.2, .nil⟩
  · rw [toList_nodes_enclose, Node.Flagged.append_iff]
    refine ⟨hflagged.1, .singleton hflagged.2 ?_⟩
    rw [hfault]
    rfl
  · rw [toList_nodes_enclose, Node.reportedAll_append, Node.reportedAll_cons, hnode]
    simpa [enclosure] using hreported

end Accounts

theorem loose_tokenNodes {opens : Span → Bool} {d : Draft}
    (hd : ∀ item ∈ d.state.input.items, item.Quiet opens)
    (h : ∀ n ∈ d.nodes.toList, n.isMissing = false ∧ (n.isExtra = true → n.isError = false))
    (k : Nat) : ∀ n ∈ (d.tokenNodes k).nodes.toList,
      n.isMissing = false ∧ (n.isExtra = true → n.isError = false) := by
  induction k generalizing d with
  | zero => exact h
  | succ k ih =>
      cases hitems : d.state.input.items with
      | nil =>
          rw [tokenNodes, tokenNode_of_nil d hitems]
          exact ih hd h
      | cons item rest =>
          obtain ⟨node, hnodes, hextra, hmissing, -, hinput, -⟩ := tokenNode_eq d hitems
          rw [tokenNodes]
          refine ih ?_ ?_
          · intro item hitem
            rw [hinput, Input.items_tail] at hitem
            exact hd item (List.mem_of_mem_tail hitem)
          · rw [hnodes]
            intro n hn
            rcases List.mem_append.mp hn with hn | hn
            · rcases List.mem_append.mp hn with hn | hn
              · exact h n hn
              · have hitem : item.Quiet opens := hd item (by simp [hitems])
                exact Node.loose_of_mem_ofComments hitem.isComment hn
            · rw [List.mem_singleton.mp hn]
              exact ⟨hmissing, by simp [hextra]⟩

/-- What is swallowed is one error behind comments, and what is wrong inside stays reported. -/
theorem Swallowed.accounts {opens : Span → Bool} {s : State} {n : Nat} {w : Draft}
    (h : Swallowed s n w) (hs : ∀ item ∈ s.input.items, item.Quiet opens) (problem : Problem) :
    Accounts opens false s (w.reportLast problem) := by
  let d := (blank s).tokenNodes n
  let before := d.nodes.toList.takeWhile Node.isExtra
  have hloose := loose_tokenNodes (d := blank s) hs (by simp) n
  have hblank : Accounts opens true s (blank s) := .blank s
  obtain ⟨hunopened, hflagged, hreported⟩ := hblank.tokenNodes hs n
  have hsplit : before ++ d.nodes.toList.dropWhile Node.isExtra = d.nodes.toList :=
    List.takeWhile_append_dropWhile
  rw [← hsplit, Node.Unopened.append_iff] at hunopened
  rw [← hsplit, Node.Flagged.append_iff] at hflagged
  rw [← hsplit, Node.reportedAll_append] at hreported
  obtain ⟨last, hnodes, herror, hmissing, hclosed, hlast, hinside⟩ : ∃ last : Node,
      w.nodes.toList = before ++ [last] ∧ last.isError = true ∧ last.isMissing = false ∧
        Node.Unopened opens [last] ∧ Node.Flagged opens [last] ∧
        Node.reportedAll opens true (d.nodes.toList.dropWhile Node.isExtra) =
          Node.reportedAll opens true last.children := by
    cases h with
    | wrapped =>
        refine ⟨d.enclosure .error true, toList_nodes_enclose _ _ _, rfl, rfl, ?_, ?_, rfl⟩
        · exact Node.Unopened.cons_iff.mpr ⟨Node.not_isOpen_of_isError rfl, hunopened.2, .nil⟩
        · exact .singleton hflagged.2 rfl
    | lone node only error =>
        have hmem : node ∈ d.nodes.toList := by
          rw [← hsplit, only]
          simp
        have hmissing := (hloose node hmem).1
        refine ⟨node, by rw [← only, hsplit], error, hmissing, only ▸ hunopened.2,
          only ▸ hflagged.2, ?_⟩
        rw [only, Node.reportedAll_cons, (Node.reported_of_isError opens error hmissing).2.1]
        simp
  -- The comments in front stay outside, where they are reported as they would be inside.
  have hbefore : Node.reportedAll opens false before = Node.reportedAll opens true before := by
    refine Node.reportedAll_of_not_isError (fun n hn ↦ ?_) false true
    have hmem : n ∈ d.nodes.toList := hsplit ▸ List.mem_append_left _ hn
    exact (hloose n hmem).2 (List.all_eq_true.mp List.all_takeWhile n hn)
  obtain ⟨made, hstate⟩ := h.state_eq
  refine ⟨?_, ?_, ?_⟩
  · rw [toList_nodes_reportLast, hnodes]
    exact Node.Unopened.append_iff.mpr ⟨hunopened.1, hclosed⟩
  · rw [toList_nodes_reportLast, hnodes]
    exact Node.Flagged.append_iff.mpr ⟨hflagged.1, hlast⟩
  · rw [toList_nodes_reportLast, state_reportLast w problem hnodes, hnodes, hstate]
    rw [hinside] at hreported
    rw [Node.reportedAll_append, Node.reportedAll_cons, Node.reportedAll_nil, List.append_nil,
      (Node.reported_of_isError opens herror hmissing).2.2, hbefore, List.map_cons,
      List.append_assoc]
    rw [List.append_assoc] at hreported
    exact (hreported.cons last.span).trans List.perm_middle.symm

end Draft

open Draft

/-- The problems found while a draft is built are those of its nodes. -/
theorem Built.accounts {opens : Span → Bool} {s : State} {d : Draft} (h : Built s d)
    (hs : ∀ item ∈ s.input.items, item.Quiet opens) : Accounts opens false s d := by
  induction h with
  | blank s => exact .blank s
  | leaf hd hitems field hfits ih =>
      have hitem := hd.advances.mem_items (hitems ▸ List.mem_cons_self)
      exact (ih hs).leaf (hs _ hitem) hitems field hfits.isOrdinary
  | literal hd hitems hkind ih =>
      have hitem := hd.advances.mem_items (hitems ▸ List.mem_cons_self)
      exact (ih hs).literal (hs _ hitem) _ _
  | missing _ field hkind problem ih => exact (ih hs).missing field hkind problem
  | enclose _ hkind ih => exact (ih hs).enclose hkind
  | attach hd field _ ih ihpart =>
      exact (ih hs).attach (ihpart fun item hitem ↦ hs item (hd.advances.mem_items hitem)) field
  | swallow hw _ problem => exact hw.accounts hs problem

end CoolTree
