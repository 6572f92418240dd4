import CoolTree.Proofs.Drafting
import CoolTree.Tree.Sexp

/-!
# The shape of a node

Where a node stands and when it was made is not seen in its shape. Its S-expression shows the shape
alone, and so do the questions that drafting asks about nodes.
-/

namespace CoolTree

namespace Label

def shape (l : Label) : Label :=
  { l with span := .emptyAt .origin }

end Label

namespace Node

mutual

/-- A node without its number and its place, and all below it likewise. -/
def shape : Node → Node
  | mk label children => mk label.shape (shapes children)

def shapes : List Node → List Node
  | [] => []
  | n :: rest => n.shape :: shapes rest

end

theorem shapes_eq_map (ns : List Node) : shapes ns = ns.map shape := by
  induction ns with
  | nil => rfl
  | cons n ns ih => rw [shapes, List.map_cons, ih]

theorem shape_mk (label : Label) (children : List Node) :
    shape (mk label children) = mk label.shape (children.map shape) := by
  rw [shape, shapes_eq_map]

variable (n : Node)

@[simp] theorem children_shape : n.shape.children = n.children.map shape := by
  cases n
  rw [shape_mk]
  rfl

@[simp] theorem label_shape : n.shape.label = n.label.shape := by
  cases n
  rfl

@[simp] theorem kind_shape : n.shape.kind = n.kind := by
  simp [kind, Label.shape]

@[simp] theorem field_shape : n.shape.field? = n.field? := by
  simp [field?, Label.shape]

@[simp] theorem isExtra_shape : n.shape.isExtra = n.isExtra := by
  simp [isExtra, Label.shape]

@[simp] theorem isMissing_shape : n.shape.isMissing = n.isMissing := by
  simp [isMissing, Label.shape]

@[simp] theorem isFaulty_shape : n.shape.isFaulty = n.isFaulty := by
  simp [isFaulty, Label.shape]

@[simp] theorem isError_shape : n.shape.isError = n.isError := by
  simp [isError]

theorem shape_assign (field : Option Field) : (n.assign field).shape = n.shape.assign field := by
  unfold assign
  rw [isExtra_shape]
  split
  · rfl
  · rw [shape_mk, label_shape, children_shape]
    rfl

theorem map_shape_assign (field : Option Field) (ns : List Node) :
    (ns.map (assign field)).map shape = (ns.map shape).map (assign field) := by
  rw [List.map_map, List.map_map]
  exact List.map_congr_left fun n _ ↦ shape_assign n field

theorem any_isFaulty_map_shape (ns : List Node) :
    (ns.map shape).any isFaulty = ns.any isFaulty := by
  rw [List.any_map]
  exact congrArg ns.any (funext isFaulty_shape)

theorem takeWhile_isExtra_map_shape (ns : List Node) :
    (ns.map shape).takeWhile isExtra = (ns.takeWhile isExtra).map shape := by
  rw [List.takeWhile_map]
  exact congrArg (List.map shape) (congrArg (List.takeWhile · ns) (funext isExtra_shape))

theorem dropWhile_isExtra_map_shape (ns : List Node) :
    (ns.map shape).dropWhile isExtra = (ns.dropWhile isExtra).map shape := by
  rw [List.dropWhile_map]
  exact congrArg (List.map shape) (congrArg (List.dropWhile · ns) (funext isExtra_shape))

/-- Comments of the same kinds have the same shapes. -/
theorem shapes_ofComments {cs cs' : List Token} (h : cs.map (·.kind) = cs'.map (·.kind)) :
    (ofComments cs).map shape = (ofComments cs').map shape := by
  induction cs generalizing cs' with
  | nil => rw [List.map_eq_nil_iff.mp h.symm]
  | cons c cs ih =>
      obtain ⟨c', cs', rfl, hc, hcs⟩ := List.map_eq_cons_iff.mp h.symm
      have hrest := ih hcs.symm
      rw [ofComments, ofComments, List.map_cons, List.map_cons, hrest]
      simp [ofComment, shape_mk, Label.shape, hc]

theorem isExtra_of_mem_shapes_ofComments {cs : List Token} {n : Node}
    (h : n ∈ (ofComments cs).map shape) : n.isExtra = true := by
  obtain ⟨comment, hcomment, rfl⟩ := List.mem_map.mp h
  rw [isExtra_shape]
  exact isExtra_of_mem_ofComments hcomment

theorem shapes_ofComments_append (cs ds : List Token) :
    (ofComments (cs ++ ds)).map shape =
      (ofComments cs).map shape ++ (ofComments ds).map shape := by
  induction cs with
  | nil => rfl
  | cons c cs ih =>
      rw [List.cons_append, ofComments, ofComments, List.map_cons, List.map_cons, ih]
      rfl

theorem shapes_ofPieces (pieces : List (Kind × List Char)) (p p' : Position) :
    (ofPieces p pieces).map shape = (ofPieces p' pieces).map shape := by
  induction pieces generalizing p p' with
  | nil => rfl
  | cons piece pieces ih =>
      rw [ofPieces, ofPieces, List.map_cons, List.map_cons,
        ih (p.after piece.2) (p'.after piece.2)]
      simp [shape_mk, Label.shape]

end Node

namespace Draft

theorem shapes_literalChildren (item item' : Item) (parts : List BodyPart) (closed : Bool) :
    (literalChildren item parts closed).map Node.shape =
      (literalChildren item' parts closed).map Node.shape := by
  rw [literalChildren, literalChildren, List.map_append, List.map_append,
    Node.shapes_ofPieces _ item.token.start item'.token.start]
  cases closed <;> simp [Node.absentAt, Node.shape_mk, Label.shape]

theorem shape_literalNode (item item' : Item) (parts : List BodyPart) (closed : Bool) :
    (literalNode item parts closed).shape = (literalNode item' parts closed).shape := by
  have hchildren := shapes_literalChildren item item' parts closed
  have hfaulty : (literalChildren item parts closed).any Node.isFaulty =
      (literalChildren item' parts closed).any Node.isFaulty := by
    rw [← Node.any_isFaulty_map_shape, hchildren, Node.any_isFaulty_map_shape]
  rw [literalNode, literalNode, Node.shape_mk, Node.shape_mk, hchildren, hfaulty]
  rfl

end Draft

namespace Sexp

def Task.shape : Task → Task
  | node field n => node field n.shape
  | close => close

theorem map_shape_ofChild (ns : List Node) :
    (ns.map Task.ofChild).map Task.shape = (ns.map Node.shape).map Task.ofChild := by
  simp [Function.comp_def, Task.ofChild, Task.shape]

theorem head_shape (n : Node) : head n.shape = head n := by
  rw [head, Node.isMissing_shape, Node.isNamed, Node.kind_shape]
  rfl

/-- What is written shows shapes only. -/
theorem write_map_shape (written : String) (tasks : List Task) :
    write written (tasks.map Task.shape) = write written tasks := by
  fun_induction write written tasks with
  | case1 => simp [write]
  | case2 written rest ih => simpa [Task.shape, write] using ih
  | case3 written field n rest below h ih =>
      have hshown : isShown n.shape = true := by simpa [isShown, Node.isNamed] using h
      have hopening : opening written field n.shape = opening written field n := by
        rw [opening, head_shape]
        rfl
      rw [List.map_append, map_shape_ofChild] at ih
      rw [List.map_cons, Task.shape, write, if_pos hshown, hopening, Node.children_shape]
      exact ih
  | case4 written field n rest below h ih =>
      have hshown : ¬isShown n.shape = true := by simpa [isShown, Node.isNamed] using h
      rw [List.map_append, map_shape_ofChild] at ih
      rw [List.map_cons, Task.shape, write, if_neg hshown, Node.children_shape]
      exact ih

end Sexp

theorem Node.sexp_shape (n : Node) : n.shape.sexp = n.sexp :=
  Sexp.write_map_shape "" [.node none n]

end CoolTree
