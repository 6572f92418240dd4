import CoolTree.Proofs.Cursors
import CoolTree.Tree.Sexp
import Mathlib.Data.List.Basic

/-!
# What an S-expression shows

A node is shown if it is named or missing. An S-expression is written from a list of tasks, and puts
a space wherever something is written already. It is the text of a form: the tree of the nodes that
are shown, each with its kind, its role, and whether it is missing. Below a shown node stand those
that no other shown node stands between.
-/

namespace CoolTree

/-- A tree of shown nodes. -/
inductive Form where
  | mk (field : Option Field) (kind : Kind) (missing : Bool)
      (shown : (kind.isNamed || missing) = true) (below : List Form)

namespace Form

def field : Form → Option Field
  | mk field _ _ _ _ => field

/-- What stands behind the parenthesis of a node. -/
def head (kind : Kind) (missing : Bool) : String :=
  if missing then
    "MISSING " ++ (if kind.isNamed then kind.name else Text.quoteString kind.name)
  else kind.name

mutual

/-- A form as it is written, without the role of its own node. -/
def text : Form → String
  | mk _ kind missing _ below => "(" ++ head kind missing ++ textBelow below ++ ")"

def textBelow : List Form → String
  | [] => ""
  | f :: rest => " " ++ Sexp.fieldMark f.field ++ f.text ++ textBelow rest

end

/-- A form with the role of its own node. -/
def piece (f : Form) : String :=
  Sexp.fieldMark f.field ++ f.text

theorem text_mk {field : Option Field} {kind : Kind} {missing : Bool}
    {shown : (kind.isNamed || missing) = true} {below : List Form} :
    (mk field kind missing shown below).text =
      "(" ++ head kind missing ++ textBelow below ++ ")" := rfl

theorem textBelow_cons (f : Form) (rest : List Form) :
    textBelow (f :: rest) = " " ++ f.piece ++ textBelow rest := by
  rw [textBelow, piece, ← String.append_assoc]

theorem piece_ne_empty (f : Form) : f.piece ≠ "" := by
  intro h
  have hlist := congrArg String.toList h
  cases f
  simp [piece, text_mk] at hlist

/-- What holds of a form whenever it holds of the forms below it holds of every form. -/
theorem induction {P : Form → Prop}
    (step : ∀ field kind missing shown below, (∀ f ∈ below, P f) →
      P (mk field kind missing shown below)) (f : Form) : P f :=
  f.rec (motive_1 := P) (motive_2 := fun below ↦ ∀ f ∈ below, P f)
    step (by simp) (fun f rest head tail ↦ by simpa using ⟨head, tail⟩)

/-- Forms written one after the other, with spaces between them. -/
def texts (fs : List Form) : String :=
  " ".intercalate (fs.map piece)

theorem texts_cons (f : Form) (fs : List Form) : texts (f :: fs) = f.piece ++ textBelow fs := by
  induction fs generalizing f with
  | nil => rw [texts, List.map_singleton, String.intercalate_singleton, textBelow,
      String.append_empty]
  | cons g fs ih =>
      rw [texts, List.map_cons, List.map_cons, String.intercalate_cons_cons, ← List.map_cons,
        ← texts, ih, textBelow_cons]
      simp only [String.append_assoc]

end Form

namespace Node

mutual

/-- The forms of the uppermost shown nodes from a node down, where the node plays a given role. -/
def forms (field : Option Field) : Node → List Form
  | mk label children =>
    if shown : (label.kind.isNamed || label.missing) = true then
      [.mk field label.kind label.missing shown (formsBelow children)]
    else formsBelow children

def formsBelow : List Node → List Form
  | [] => []
  | n :: rest => n.forms n.field? ++ formsBelow rest

end

theorem formsBelow_eq_flatMap (ns : List Node) :
    formsBelow ns = ns.flatMap fun n ↦ n.forms n.field? := by
  induction ns with
  | nil => rfl
  | cons n ns ih => rw [formsBelow, List.flatMap_cons, ih]

theorem forms_of_not_shown {n : Node} (h : Sexp.isShown n = false) (field : Option Field) :
    n.forms field = formsBelow n.children := by
  cases n with
  | mk label children => exact dif_neg (Bool.eq_false_iff.mp h)

theorem forms_of_shown {n : Node} (h : (n.kind.isNamed || n.isMissing) = true)
    (field : Option Field) :
    n.forms field = [.mk field n.kind n.isMissing h (formsBelow n.children)] := by
  cases n with
  | mk label children => exact dif_pos h

end Node

namespace Sexp

/-- What is written when forms are written behind something. -/
def added (written : String) (fs : List Form) : String :=
  fs.foldl (fun written f ↦ (if written.isEmpty then written else written ++ " ") ++ f.piece)
    written

theorem added_cons (written : String) (f : Form) (fs : List Form) :
    added written (f :: fs) =
      added ((if written.isEmpty then written else written ++ " ") ++ f.piece) fs := rfl

theorem added_append (written : String) (fs gs : List Form) :
    added written (fs ++ gs) = added (added written fs) gs := by
  rw [added, List.foldl_append]
  rfl

theorem added_of_ne_empty {written : String} (h : written ≠ "") (fs : List Form) :
    added written fs = written ++ Form.textBelow fs := by
  induction fs generalizing written with
  | nil => rw [Form.textBelow, String.append_empty]; rfl
  | cons f fs ih =>
      have hempty : written.isEmpty = false := Bool.eq_false_iff.mpr (by simpa using h)
      have hnext : written ++ " " ++ f.piece ≠ "" := by
        rw [String.append_assoc]
        exact fun hnil ↦ h (String.append_eq_empty_iff.mp hnil).1
      rw [added_cons, hempty, Form.textBelow_cons]
      refine (ih hnext).trans ?_
      simp only [String.append_assoc]

theorem textBelow_eq_join (fs : List Form) :
    Form.textBelow fs = String.join (fs.map fun f ↦ " " ++ f.piece) := by
  induction fs with
  | nil => rfl
  | cons f fs ih => rw [Form.textBelow_cons, ih, List.map_cons, String.join_cons]

theorem added_empty (fs : List Form) : added "" fs = Form.texts fs := by
  cases fs with
  | nil => rfl
  | cons f fs =>
      rw [added_cons, Form.texts_cons]
      exact added_of_ne_empty f.piece_ne_empty fs

theorem opening_ne_empty (written : String) (field : Option Field) (n : Node) :
    opening written field n ≠ "" := by
  intro h
  have hlist := congrArg String.toList h
  simp [opening] at hlist

/-- Writing a node adds its forms and goes on with the tasks behind it. -/
theorem write_node (n : Node) (written : String) (field : Option Field) (rest : List Task) :
    write written (.node field n :: rest) = write (added written (n.forms field)) rest := by
  induction n using Node.induction generalizing written field rest with
  | step label children ih =>
      -- the children one after the other, whatever is left to write behind them
      have hbelow : ∀ written rest, write written (children.map Task.ofChild ++ rest) =
          write (added written (Node.formsBelow children)) rest := by
        induction children with
        | nil => exact fun _ _ ↦ rfl
        | cons c children ihchildren =>
            intro written rest
            obtain ⟨hc, hchildren⟩ := List.forall_mem_cons.mp ih
            rw [List.map_cons, List.cons_append, Task.ofChild, hc, ihchildren hchildren,
              Node.formsBelow, added_append]
      rw [write]
      cases hshown : isShown (.mk label children) with
      | true =>
          let n := Node.mk label children
          have hn : (n.kind.isNamed || n.isMissing) = true := hshown
          have hwritten : added written (n.forms field) =
              opening written field n ++ Form.textBelow (Node.formsBelow children) ++ ")" := by
            rw [Node.forms_of_shown hn, added_cons, Form.piece, Form.text_mk, opening]
            simp only [String.append_assoc]
            rfl
          rw [if_pos rfl, Node.children_mk, hbelow, added_of_ne_empty (opening_ne_empty _ _ n),
            write, hwritten]
      | false =>
          rw [if_neg (by simp), Node.children_mk, hbelow, Node.forms_of_not_shown hshown,
            Node.children_mk]

end Sexp

namespace Node

theorem sexp_eq (n : Node) : n.sexp = Form.texts (n.forms none) := by
  rw [sexp, Sexp.write_node, Sexp.write, Sexp.added_empty]

/-- A shown node is written as its head and what is below it, in parentheses. -/
theorem sexp_of_shown {n : Node} (h : Sexp.isShown n = true) :
    n.sexp = "(" ++ Sexp.head n ++ Form.textBelow (formsBelow n.children) ++ ")" := by
  have hn : (n.kind.isNamed || n.isMissing) = true := h
  rw [sexp_eq, forms_of_shown hn, Form.texts, List.map_singleton, String.intercalate_singleton,
    Form.piece, Form.text_mk]
  exact String.empty_append

theorem sexp_of_not_shown {n : Node} (h : Sexp.isShown n = false) :
    n.sexp = Form.texts (formsBelow n.children) := by
  rw [sexp_eq, forms_of_not_shown h]

/-- A shown node has one form, which is written as the node is, behind its role. -/
theorem map_piece_forms {n : Node} (h : Sexp.isShown n = true) (field : Option Field) :
    (n.forms field).map Form.piece = [Sexp.fieldMark field ++ n.sexp] := by
  have hn : (n.kind.isNamed || n.isMissing) = true := h
  rw [forms_of_shown hn, List.map_singleton, Form.piece, Form.text_mk, sexp_of_shown h]
  rfl

end Node

namespace Cursor

/-- Whether another cursor stands at a shown node that is not below a shown node below this one. -/
def isUppermost (c d : Cursor) : Bool :=
  Sexp.isShown d.node && c.descendants.tail.all fun e ↦
    !(Sexp.isShown e.node && e.descendants.tail.any (·.id == d.id))

/-- The shown nodes below a cursor that are not below another one of them, in order. -/
def uppermost (c : Cursor) : List Cursor :=
  c.descendants.tail.filter c.isUppermost

namespace Stands

variable {c d k : Cursor}

theorem isUppermost_iff (h : c.Stands) (hd : d ∈ c.descendants) : c.isUppermost d = true ↔
    Sexp.isShown d.node = true ∧
      ∀ e ∈ c.descendants.tail, Sexp.isShown e.node = true → d ∉ e.descendants.tail := by
  have htree := (h.mem_descendants_iff.mp hd).1
  have hany : ∀ e ∈ c.descendants.tail,
      e.descendants.tail.any (·.id == d.id) = true ↔ d ∈ e.descendants.tail := by
    intro e he
    have he := List.mem_of_mem_tail he
    rw [List.any_eq_true]
    refine ⟨fun ⟨f, hf, hid⟩ ↦ ?_, fun hmem ↦ ⟨d, hmem, beq_self_eq_true d.id⟩⟩
    have hsame := (h.mem_descendants_iff.mp
      (h.mem_descendants_trans he (List.mem_of_mem_tail hf))).1.trans htree.symm
    obtain ⟨t, i⟩ := f
    obtain rfl : t = d.tree := hsame
    obtain rfl : i = d.id := by simpa using hid
    exact hf
  rw [isUppermost, Bool.and_eq_true, List.all_eq_true]
  refine and_congr_right fun _ ↦ forall₂_congr fun e he ↦ ?_
  rw [← hany e he]
  cases Sexp.isShown e.node <;> simp

theorem mem_tail_of_mem_children (h : c.Stands) (hk : k ∈ c.children) (hd : d ∈ k.descendants) :
    d ∈ c.descendants.tail := by
  rw [h.tail_descendants]
  exact List.mem_flatMap.mpr ⟨k, hk, hd⟩

/-- What is below someone below a cursor is below the same child as this one. -/
theorem mem_descendants_of_mem_tail (h : c.Stands) {e : Cursor} (hk : k ∈ c.children)
    (hd : d ∈ k.descendants) (he : e ∈ c.descendants.tail) (hde : d ∈ e.descendants) :
    e ∈ k.descendants := by
  rw [h.tail_descendants] at he
  obtain ⟨k', hk', he⟩ := List.mem_flatMap.mp he
  have hd' := (h.of_mem_children hk').mem_descendants_trans he hde
  rwa [h.eq_of_mem_descendants hk hk' hd hd']

theorem isUppermost_of_mem_children (h : c.Stands) (hk : k ∈ c.children) :
    c.isUppermost k = Sexp.isShown k.node := by
  have hself := (h.of_mem_children hk).self_mem_descendants
  have htail := h.mem_tail_of_mem_children hk hself
  rw [Bool.eq_iff_iff, h.isUppermost_iff (List.mem_of_mem_tail htail), and_iff_left_iff_imp]
  intro _ e he _ hke
  have hmem := h.mem_descendants_of_mem_tail hk hself he (List.mem_of_mem_tail hke)
  have hle := Arena.le_of_mem_order ((h.of_mem_children hk).mem_descendants_iff.mp hmem).2
  have hlt := (h.of_mem_descendants (List.mem_of_mem_tail he)).lt_of_mem_tail hke
  exact Nat.not_lt.mpr hle hlt

/-- Below a child that is shown nobody is uppermost, and below another one it is seen from there. -/
theorem isUppermost_of_mem_tail (h : c.Stands) (hk : k ∈ c.children)
    (hd : d ∈ k.descendants.tail) :
    c.isUppermost d = (!Sexp.isShown k.node && k.isUppermost d) := by
  have hstands := h.of_mem_children hk
  have hmem := List.mem_of_mem_tail hd
  have hbelow : ∀ e ∈ k.descendants, e ∈ c.descendants.tail :=
    fun e he ↦ h.mem_tail_of_mem_children hk he
  rw [Bool.eq_iff_iff, Bool.and_eq_true, Bool.not_eq_true', hstands.isUppermost_iff hmem,
    h.isUppermost_iff (List.mem_of_mem_tail (hbelow d hmem))]
  constructor
  · rintro ⟨hshown, hall⟩
    refine ⟨?_, hshown, fun e he ↦ hall e (hbelow e (List.mem_of_mem_tail he))⟩
    exact Bool.eq_false_iff.mpr fun hk ↦ hall k (hbelow k hstands.self_mem_descendants) hk hd
  · rintro ⟨hhidden, hshown, hall⟩
    refine ⟨hshown, fun e he heshown hde ↦ ?_⟩
    have hek := h.mem_descendants_of_mem_tail hk hmem he (List.mem_of_mem_tail hde)
    rw [hstands.descendants_eq, List.mem_cons, ← hstands.tail_descendants] at hek
    rcases hek with rfl | hek
    · rw [hhidden] at heshown
      cases heshown
    · exact hall e hek heshown hde

/-- The uppermost shown nodes below a cursor are, child by child, the child or those below it. -/
theorem uppermost_eq (h : c.Stands) : c.uppermost =
    c.children.flatMap fun k ↦ if Sexp.isShown k.node then [k] else k.uppermost := by
  rw [uppermost, h.tail_descendants, List.filter_flatMap]
  refine List.flatMap_congr fun k hk ↦ ?_
  have hstands := h.of_mem_children hk
  have hbelow : k.descendants.tail.filter c.isUppermost =
      k.descendants.tail.filter fun d ↦ !Sexp.isShown k.node && k.isUppermost d :=
    List.filter_congr fun d hd ↦ h.isUppermost_of_mem_tail hk hd
  rw [hstands.descendants_eq, ← hstands.tail_descendants, List.filter_cons, hbelow,
    h.isUppermost_of_mem_children hk]
  cases Sexp.isShown k.node <;> simp [uppermost]

theorem formsBelow_children (h : c.Stands) :
    Node.formsBelow c.node.children =
      c.uppermost.flatMap fun d ↦ d.node.forms d.node.field? := by
  refine induction (P := fun c ↦ Node.formsBelow c.node.children =
    c.uppermost.flatMap fun d ↦ d.node.forms d.node.field?) h fun c h ih ↦ ?_
  rw [h.uppermost_eq, List.flatMap_assoc, Node.formsBelow_eq_flatMap, ← h.map_node_children,
    List.flatMap_map]
  refine List.flatMap_congr fun k hk ↦ ?_
  cases hshown : Sexp.isShown k.node with
  | true => simp
  | false => simpa [Node.forms_of_not_shown hshown] using ih k hk

theorem map_piece_uppermost (h : c.Stands) :
    (Node.formsBelow c.node.children).map Form.piece =
      c.uppermost.map fun d ↦ Sexp.fieldMark d.node.field? ++ d.node.sexp := by
  have hshown : ∀ d ∈ c.uppermost, (d.node.forms d.node.field?).map Form.piece =
      [Sexp.fieldMark d.node.field? ++ d.node.sexp] := by
    intro d hd
    have hd := (List.mem_filter.mp hd).2
    rw [isUppermost, Bool.and_eq_true] at hd
    exact Node.map_piece_forms hd.1 d.node.field?
  rw [h.formsBelow_children, List.map_flatMap, List.flatMap_congr hshown, ← List.map_eq_flatMap]

/-- A shown node is rendered as its head and, in order, the uppermost shown nodes below it. -/
theorem sexp_of_shown (h : c.Stands) (hshown : Sexp.isShown c.node = true) :
    c.node.sexp = "(" ++ Sexp.head c.node ++ String.join (c.uppermost.map fun d ↦
      " " ++ Sexp.fieldMark d.node.field? ++ d.node.sexp) ++ ")" := by
  rw [Node.sexp_of_shown hshown, Sexp.textBelow_eq_join]
  have hmap : (Node.formsBelow c.node.children).map (fun f ↦ " " ++ f.piece) =
      c.uppermost.map fun d ↦ " " ++ Sexp.fieldMark d.node.field? ++ d.node.sexp := by
    have hpieces := congrArg (List.map (" " ++ ·)) h.map_piece_uppermost
    simpa [List.map_map, Function.comp_def, String.append_assoc] using hpieces
  rw [hmap]

/-- A node that is not shown is rendered as the uppermost shown nodes below it. -/
theorem sexp_of_not_shown (h : c.Stands) (hshown : Sexp.isShown c.node = false) :
    c.node.sexp = " ".intercalate (c.uppermost.map fun d ↦
      Sexp.fieldMark d.node.field? ++ d.node.sexp) := by
  rw [Node.sexp_of_not_shown hshown, Form.texts, h.map_piece_uppermost]

end Stands

end Cursor

end CoolTree
