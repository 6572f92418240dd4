import CoolTree.Proofs.Edge
import CoolTree.Proofs.Follow

/-!
# Drafts of a single node

What an expression starts with is drafted as one node, behind the comments in front of it.
-/

namespace CoolTree

open Draft

namespace Draft

/-- Drafts of a single node, behind comments. -/
def Single (d : Draft) (n : Node) : Prop :=
  d.nodes.toList.dropWhile Node.isExtra = [n]

namespace Single

variable {d : Draft} {n : Node}

theorem of_append (cs : List Node) (hcs : ∀ c ∈ cs, c.isExtra = true) (hn : n.isExtra = false)
    (h : d.nodes.toList = cs ++ [n]) : d.Single n := by
  rw [Single, h, List.dropWhile_append_of_pos hcs, List.dropWhile_cons_of_neg (by simp [hn])]

theorem not_isExtra (h : d.Single n) : n.isExtra = false :=
  Node.not_isExtra_of_dropWhile h

theorem toList_nodes (h : d.Single n) :
    d.nodes.toList = d.nodes.toList.takeWhile Node.isExtra ++ [n] := by
  have hdrop : d.nodes.toList.dropWhile Node.isExtra = [n] := h
  rw [← hdrop, List.takeWhile_append_dropWhile]

theorem ne_nil (h : d.Single n) : d.nodes.toList ≠ [] := by
  rw [h.toList_nodes]
  simp

theorem getLast? (h : d.Single n) : d.nodes.toList.getLast? = some n := by
  rw [h.toList_nodes, List.getLast?_concat]

/-- Apart from comments, there is only the node. -/
theorem filter_eq (h : d.Single n) : d.nodes.toList.filter (!·.isExtra) = [n] := by
  have hdrop : d.nodes.toList.dropWhile Node.isExtra = [n] := h
  rw [← Node.filter_dropWhile_isExtra, hdrop, List.filter_cons_of_pos (by simp [h.not_isExtra]),
    List.filter_nil]

theorem enclose (d : Draft) (kind : Kind) (faulty : Bool) :
    (d.enclose kind faulty).Single (d.enclosure kind faulty) :=
  of_append _ (fun _ hc ↦ List.mem_takeWhile_imp hc) rfl (toList_nodes_enclose d kind faulty)

theorem attach (h : d.Single n) (s : State) (field : Option Field) :
    ((Draft.blank s).attach field d).Single (n.assign field) := by
  refine of_append ((d.nodes.toList.takeWhile Node.isExtra).map (Node.assign field))
    ?_ ((n.isExtra_assign field).trans h.not_isExtra) ?_
  · rw [List.forall_mem_map]
    exact fun c hc ↦ (c.isExtra_assign field).trans (List.mem_takeWhile_imp hc)
  · rw [toList_nodes_attach, toList_nodes_blank, List.nil_append]
    conv_lhs => rw [h.toList_nodes]
    rw [List.map_append, List.map_singleton]

/-- The last child of a node around a draft that ends in another one. -/
theorem getLast?_children (h : d.Single n) (before : Draft) (field : Option Field) (kind : Kind)
    (faulty : Bool) :
    ((before.attach field d).enclosure kind faulty).children.getLast? = some (n.assign field) := by
  refine Node.getLast?_dropWhile ?_ ((n.isExtra_assign field).trans h.not_isExtra)
  rw [toList_nodes_attach, List.getLast?_append, List.getLast?_map, h.getLast?]
  rfl

theorem swallowed {s : State} {k : Nat} {w : Draft} (h : Swallowed s k w) :
    ∃ n, w.Single n ∧ n.isError = true := by
  cases h with
  | wrapped => exact ⟨_, enclose _ _ _, rfl⟩
  | lone node only error => exact ⟨node, only, error⟩

end Single

end Draft

namespace Draft.Single

variable {s : State}

/-- A leaf for the next token. -/
theorem leaf (hne : s.input.current ≠ .ending) (field : Option Field) (kind : Kind)
    (faulty : Bool) : ∃ n, ((blank s).leaf field kind faulty).Single n ∧ n.kind = kind := by
  obtain ⟨item, rest, hitems, -⟩ := items_of_current (d := blank s) rfl hne
  refine ⟨_, of_append _ (fun c hc ↦ Node.isExtra_of_mem_ofComments hc) ?_
    (toList_nodes_leaf (blank s) hitems field kind faulty), rfl⟩
  rfl

theorem missing (s : State) (field : Option Field) (kind : Kind) (problem : Problem) :
    ∃ n, ((blank s).missing field kind problem).Single n ∧ n.kind = kind :=
  ⟨Node.absentAt field kind s.reached,
    of_append [] (by simp) rfl (toList_nodes_missing (blank s) field kind problem), rfl⟩

theorem word (s : State) (field : Option Field) (slot : Slot) :
    ∃ n, ((blank s).word field slot).Single n ∧ n.kind.endsOpen = false := by
  unfold Draft.word
  split
  · rename_i kind hkind
    have hne : s.input.current ≠ .ending := by
      intro hending
      rw [show (Draft.blank s).current = .ending from hending] at hkind
      cases slot <;> cases hkind
    obtain ⟨n, hn, rfl⟩ := leaf hne field kind false
    exact ⟨n, hn, Kind.endsOpen_of_accepts? hkind⟩
  · obtain ⟨n, hn, hkind⟩ := missing s field slot.defaultKind (.expected slot.wanted _)
    exact ⟨n, hn, hkind ▸ Kind.endsOpen_defaultKind slot⟩

theorem literal {parts : List BodyPart} {closed : Bool}
    (h : s.input.current = .string parts closed) :
    ∃ n, (blank s).literal.Single n ∧ n.kind = .stringLiteral := by
  obtain ⟨item, rest, hitems, hkind⟩ := items_of_current (d := blank s) h (by rintro ⟨⟩)
  have hliteral : (blank s).literal = (blank s).stringLiteral item parts closed := by
    rw [Draft.literal, hitems]
    dsimp only
    rw [hkind]
  obtain ⟨hnodes, -⟩ := stringLiteral_eq (blank s) item parts closed
  rw [hliteral]
  exact ⟨_, of_append _ (fun c hc ↦ Node.isExtra_of_mem_ofComments hc) rfl hnodes, rfl⟩

theorem skip {stop : TokenClass} (hne : s.input.current ≠ .ending)
    (h : stop.has s.input.current = false) :
    ∃ n, ((blank s).skip stop).Single n ∧ n.isError = true := by
  rcases skip_eq (blank s) stop with ⟨hzero, -⟩ | ⟨k, w, -, hw, heq⟩
  · have hcurrent : (Draft.blank s).current ≠ .ending := hne
    exact (distance_ne_zero hcurrent h hzero).elim
  · obtain ⟨n, hn, herror⟩ := swallowed hw
    rw [heq]
    have hreport : (w.reportLast (.unexpected (blank s).current)).Single n := hn
    exact ⟨_, hreport.attach s none, by rwa [Node.isError_assign]⟩

end Draft.Single

namespace Phrase

variable {v : Levels} {x : Int → State → Draft}

/-- Whether a phrase that starts at a token drafts one node, other than an operator between two
operands. -/
def makesOne : TokenKind → Phrase → Bool
  | _, node _ kind _ done => kind != .binaryExpression
  | k, take _ done => k != .ending
  | .string _ _, literal done => true
  | _, word _ _ done | _, absent done => true
  | k, skip stop done => k != .ending && !stop.has k
  | _, _ => false

theorem makesOne_opening (current upcoming : TokenKind) :
    (opening current upcoming).makesOne current = true := by
  have hname : ∀ k : TokenKind, (if upcoming = .terminal .assign then
      Phrase.node none .assignmentExpression assignment .done
      else if upcoming = .terminal .leftParen then Phrase.node none .dispatchExpression call .done
      else .word none .identifier .done).makesOne k = true := by
    intro k
    split
    · rfl
    · split <;> rfl
  cases current with
  | identifier | typeIdentifier => exact hname _
  | terminal t => cases t <;> rfl
  | _ => rfl

theorem single_run {p : Phrase} {s : State} (h : p.makesOne s.input.current = true) :
    ∃ n, (p.run v x (blank s)).Single n ∧ n.kind ≠ .binaryExpression := by
  unfold makesOne at h
  split at h
  · rename_i field kind body
    have hkind : kind ≠ .binaryExpression := by simpa using h
    refine ⟨_, (Single.enclose (body.run v x (blank s)) kind false).attach s field, ?_⟩
    rwa [Node.kind_assign]
  · rename_i field
    obtain ⟨n, hn, hkind⟩ := Single.leaf (by simpa using h) field s.input.current.leafKind false
    exact ⟨n, hn, hkind ▸ Kind.ne_binaryExpression (Kind.endsOpen_leafKind _)⟩
  · rename_i parts closed hcurrent
    obtain ⟨n, hn, hkind⟩ := Single.literal hcurrent
    exact ⟨n, hn, hkind ▸ by decide⟩
  · rename_i field slot
    obtain ⟨n, hn, hkind⟩ := Single.word s field slot
    exact ⟨n, hn, Kind.ne_binaryExpression hkind⟩
  · obtain ⟨n, hn, hkind⟩ := Single.missing s none .identifier _
    exact ⟨n, hn, hkind ▸ by decide⟩
  · rename_i stop
    simp only [Bool.and_eq_true, bne_iff_ne, Bool.not_eq_true'] at h
    obtain ⟨n, hn, herror⟩ := Single.skip h.1 h.2
    refine ⟨n, hn, ?_⟩
    rintro hkind
    simp [Node.isError, hkind] at herror
  · cases h

end Phrase

end CoolTree
