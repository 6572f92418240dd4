import CoolTree.Proofs.Flawless
import CoolTree.Proofs.Preorder
import CoolTree.Proofs.Shape

/-!
# Nodes without comments

Taking the comments out of a node, and out of all below it, leaves a bare node. What drafting asks
about a row of nodes, which span they have, whether one of them is faulty and whether there is only
one, it could as well ask about the row without comments, as long as the row does not end in one.
-/

namespace CoolTree

namespace Label

/-- A label, without its place unless places are compared. -/
def seen (placed : Bool) (l : Label) : Label :=
  if placed then l else l.shape

end Label

namespace Node

mutual

/-- A node with another label, and all below it likewise. -/
def relabel (f : Label → Label) : Node → Node
  | mk label children => mk (f label) (relabels f children)

def relabels (f : Label → Label) : List Node → List Node
  | [] => []
  | n :: rest => n.relabel f :: relabels f rest

end

mutual

/-- A node without the comments below it. -/
def bare : Node → Node
  | mk label children => mk label (bares children)

def bares : List Node → List Node
  | [] => []
  | n :: rest => if n.isExtra then bares rest else n.bare :: bares rest

end

/-- What is compared of a node: everything but comments and possibly places. -/
def seen (placed : Bool) (n : Node) : Node :=
  n.bare.relabel (Label.seen placed)

def seenAll (placed : Bool) (ns : List Node) : List Node :=
  (ns.filter (!·.isExtra)).map (seen placed)

theorem relabel_mk (f : Label → Label) (label : Label) (children : List Node) :
    relabel f (mk label children) = mk (f label) (children.map (relabel f)) := by
  have hrelabels : relabels f children = children.map (relabel f) := by
    induction children with
    | nil => rfl
    | cons n ns ih => rw [relabels, List.map_cons, ih]
  rw [relabel, hrelabels]

theorem bares_eq (ns : List Node) : bares ns = (ns.filter (!·.isExtra)).map bare := by
  induction ns with
  | nil => rfl
  | cons n ns ih =>
      rw [bares, ih]
      cases h : n.isExtra with
      | true => rw [if_pos rfl, List.filter_cons_of_neg (by simp [h])]
      | false => rw [if_neg (by simp), List.filter_cons_of_pos (by simp [h]), List.map_cons]

theorem bare_mk (label : Label) (children : List Node) :
    bare (mk label children) = mk label ((children.filter (!·.isExtra)).map bare) := by
  rw [bare, bares_eq]

theorem seen_mk (placed : Bool) (label : Label) (children : List Node) :
    seen placed (mk label children) = mk (label.seen placed) (seenAll placed children) := by
  rw [seen, bare_mk, relabel_mk, List.map_map]
  rfl

/-- A node is bare if there are no comments below it. -/
theorem bare_eq_self {n : Node} (h : ∀ k ∈ preorders n.children, k.isExtra = false) :
    n.bare = n := by
  induction n using Node.induction with
  | step label children ih =>
      have hkept : children.filter (!·.isExtra) = children := by
        refine List.filter_eq_self.mpr fun k hk ↦ ?_
        rw [h k (mem_preorders.mpr ⟨k, hk, k.self_mem_preorder⟩)]
        rfl
      have hbare : children.map bare = children.map id := by
        refine List.map_congr_left fun k hk ↦ ih k hk fun m hm ↦ ?_
        refine h m (mem_preorders.mpr ⟨k, hk, ?_⟩)
        rw [preorder_eq]
        exact List.mem_cons_of_mem k hm
      rw [bare_mk, hkept, hbare, List.map_id]

theorem relabel_id (n : Node) : n.relabel (fun label ↦ label) = n := by
  induction n using Node.induction with
  | step label children ih =>
      have hself : children.map (relabel fun label ↦ label) = children.map id :=
        List.map_congr_left ih
      rw [relabel_mk, hself, List.map_id]

theorem relabel_shape (n : Node) : n.relabel Label.shape = n.shape := by
  induction n using Node.induction with
  | step label children ih => rw [relabel_mk, shape_mk, List.map_congr_left ih]

section seen

variable (placed : Bool) (n : Node)

@[simp] theorem label_seen : (n.seen placed).label = n.label.seen placed := by
  cases n
  rw [seen_mk]
  rfl

@[simp] theorem isExtra_seen : (n.seen placed).isExtra = n.isExtra := by
  cases placed <;> simp [isExtra, Label.seen, Label.shape]

@[simp] theorem isFaulty_seen : (n.seen placed).isFaulty = n.isFaulty := by
  cases placed <;> simp [isFaulty, Label.seen, Label.shape]

@[simp] theorem isError_seen : (n.seen placed).isError = n.isError := by
  cases placed <;> simp [isError, kind, Label.seen, Label.shape]

theorem span_seen : (n.seen true).span = n.span := by
  simp [span, Label.seen]

theorem seen_assign (field : Option Field) :
    (n.assign field).seen placed = (n.seen placed).assign field := by
  cases n with
  | mk label children =>
      rw [assign, assign, isExtra_seen]
      split
      · rfl
      · rw [seen_mk, label_seen, seen_mk]
        cases placed <;> rfl

@[simp] theorem seenAll_append (xs ys : List Node) :
    seenAll placed (xs ++ ys) = seenAll placed xs ++ seenAll placed ys := by
  simp [seenAll]

theorem seenAll_singleton {n : Node} (h : n.isExtra = false) :
    seenAll placed [n] = [n.seen placed] := by
  simp [seenAll, h]

@[simp] theorem seenAll_ofComments (cs : List Token) :
    seenAll placed (ofComments cs) = [] := by
  rw [seenAll, filter_ofComments, List.map_nil]

theorem seenAll_dropWhile (ns : List Node) :
    seenAll placed (ns.dropWhile isExtra) = seenAll placed ns := by
  rw [seenAll, filter_dropWhile_isExtra, seenAll]

theorem seenAll_takeWhile (ns : List Node) : seenAll placed (ns.takeWhile isExtra) = [] := by
  have hnone : (ns.takeWhile isExtra).filter (!·.isExtra) = [] := by
    rw [List.filter_eq_nil_iff]
    intro n hn
    simp [List.mem_takeWhile_imp hn]
  rw [seenAll, hnone, List.map_nil]

theorem seenAll_map_assign (field : Option Field) (ns : List Node) :
    seenAll placed (ns.map (assign field)) = (seenAll placed ns).map (assign field) := by
  rw [seenAll, filter_map_assign, seenAll, List.map_map, List.map_map]
  exact List.map_congr_left fun n _ ↦ seen_assign placed n field

theorem any_isFaulty_seenAll (ns : List Node) :
    (seenAll placed ns).any isFaulty = (ns.filter (!·.isExtra)).any isFaulty := by
  rw [seenAll, List.any_map]
  exact congrArg (List.any _) (funext (isFaulty_seen placed))

end seen

theorem dropWhile_of_not_isExtra {ns : List Node} (h : ∀ n ∈ ns, n.isExtra = false) :
    ns.dropWhile isExtra = ns := by
  cases ns with
  | nil => rfl
  | cons n ns =>
      have hn : n.isExtra = false := h n List.mem_cons_self
      exact List.dropWhile_cons_of_neg (by simp [hn])

/-- Rows of nodes that do not end in a comment, and whose comments are terminated. -/
structure Tidy (ns : List Node) : Prop where
  last : ∀ n ∈ ns.getLast?, n.isExtra = false
  closed : ∀ n ∈ ns, n.isExtra = true → n.isFaulty = false

namespace Tidy

variable {ns xs ys : List Node}

theorem nil : Tidy [] :=
  ⟨by simp, by simp⟩

theorem of_not_isExtra (h : ∀ n ∈ ns, n.isExtra = false) : Tidy ns :=
  ⟨fun n hn ↦ h n (List.mem_of_getLast? hn), fun n hn hextra ↦ by simp [h n hn] at hextra⟩

theorem append (hx : Tidy xs) (hy : Tidy ys) : Tidy (xs ++ ys) := by
  refine ⟨?_, List.forall_mem_append.mpr ⟨hx.closed, hy.closed⟩⟩
  rw [List.getLast?_append]
  cases hlast : ys.getLast? with
  | none => exact hx.last
  | some last =>
      intro n hn
      obtain rfl := Option.some.inj hn
      exact hy.last last hlast

/-- Terminated comments and another node behind a row. -/
theorem add (h : Tidy ns) {cs : List Node} (hcs : ∀ n ∈ cs, n.isFaulty = false) {n : Node}
    (hn : n.isExtra = false) : Tidy (ns ++ cs ++ [n]) := by
  refine ⟨by simpa using hn, ?_⟩
  rw [List.forall_mem_append, List.forall_mem_append, List.forall_mem_singleton]
  exact ⟨⟨h.closed, fun k hk _ ↦ hcs k hk⟩, fun hextra ↦ by simp [hn] at hextra⟩

theorem map_assign (h : Tidy ns) (field : Option Field) : Tidy (ns.map (assign field)) := by
  constructor
  · intro n hn
    rw [List.getLast?_map] at hn
    obtain ⟨m, hm, rfl⟩ := Option.map_eq_some_iff.mp hn
    rw [isExtra_assign]
    exact h.last m hm
  · rw [List.forall_mem_map]
    intro n hn hextra
    rw [isExtra_assign] at hextra
    rw [isFaulty_assign]
    exact h.closed n hn hextra

/-- Comments at the front of a row, and another node behind them. -/
theorem front (h : Tidy ns) {n : Node} (hn : n.isExtra = false) :
    Tidy (ns.takeWhile isExtra ++ [n]) := by
  have hclosed : ∀ k ∈ ns.takeWhile isExtra, k.isFaulty = false := fun k hk ↦
    h.closed k (List.takeWhile_subset isExtra hk) (List.mem_takeWhile_imp hk)
  exact nil.add hclosed hn

theorem dropWhile (h : Tidy ns) : Tidy (ns.dropWhile isExtra) := by
  refine ⟨fun n hn ↦ ?_, fun n hn ↦ h.closed n (List.dropWhile_subset isExtra hn)⟩
  exact h.last n (getLast?_of_dropWhile hn)

theorem getLast?_filter (h : Tidy ns) : (ns.filter (!·.isExtra)).getLast? = ns.getLast? := by
  rcases List.eq_nil_or_concat ns with rfl | ⟨before, last, rfl⟩
  · rfl
  · have hlast : last.isExtra = false := h.last last (by simp)
    simp [List.filter_append, hlast]

theorem head?_dropWhile (ns : List Node) :
    (ns.dropWhile isExtra).head? = (ns.filter (!·.isExtra)).head? := by
  rw [← filter_dropWhile_isExtra]
  cases hrest : ns.dropWhile isExtra with
  | nil => rfl
  | cons n rest =>
      have hn : n.isExtra = false := not_isExtra_of_dropWhile hrest
      rw [List.filter_cons_of_pos (by simp [hn]), List.head?_cons, List.head?_cons]

/-- The span over a row is the span over the nodes in it that are no comments. -/
theorem over_dropWhile (h : Tidy ns) (p : Position) :
    Span.over p (ns.dropWhile isExtra) = Span.over p (ns.filter (!·.isExtra)) := by
  have hlast : (ns.dropWhile isExtra).getLast? = (ns.filter (!·.isExtra)).getLast? := by
    rw [← h.dropWhile.getLast?_filter, filter_dropWhile_isExtra]
  rw [Span.over, Span.over, head?_dropWhile, hlast]

theorem any_isFaulty_filter (h : Tidy ns) :
    (ns.filter (!·.isExtra)).any isFaulty = ns.any isFaulty := by
  rw [Bool.eq_iff_iff, List.any_eq_true, List.any_eq_true]
  constructor
  · rintro ⟨n, hn, hfaulty⟩
    exact ⟨n, (List.mem_filter.mp hn).1, hfaulty⟩
  · rintro ⟨n, hn, hfaulty⟩
    refine ⟨n, List.mem_filter.mpr ⟨hn, ?_⟩, hfaulty⟩
    cases hextra : n.isExtra with
    | true => rw [h.closed n hn hextra] at hfaulty; cases hfaulty
    | false => rfl

theorem any_isFaulty_dropWhile (h : Tidy ns) (placed : Bool) :
    (ns.dropWhile isExtra).any isFaulty = (seenAll placed ns).any isFaulty := by
  rw [any_isFaulty_seenAll, ← h.dropWhile.any_isFaulty_filter, filter_dropWhile_isExtra]

/-- What is left of a row behind its first comments is a single node if there is but one. -/
theorem dropWhile_eq_singleton_iff (h : Tidy ns) {n : Node} :
    ns.dropWhile isExtra = [n] ↔ ns.filter (!·.isExtra) = [n] := by
  constructor
  · intro hrest
    have hn : n.isExtra = false := h.dropWhile.last n (by rw [hrest]; rfl)
    rw [← filter_dropWhile_isExtra, hrest, List.filter_cons_of_pos (by simp [hn]), List.filter_nil]
  · intro hparts
    have htidy := h.dropWhile
    rw [← filter_dropWhile_isExtra] at hparts
    cases hrest : ns.dropWhile isExtra with
    | nil =>
        rw [hrest] at hparts
        cases hparts
    | cons m rest =>
        have hm : m.isExtra = false := not_isExtra_of_dropWhile hrest
        rw [hrest] at htidy
        rw [hrest, List.filter_cons_of_pos (by simp [hm])] at hparts
        obtain ⟨rfl, hnone⟩ := List.cons.inj hparts
        -- A last node behind the first one would be no comment.
        rcases List.eq_nil_or_concat rest with rfl | ⟨before, last, rfl⟩
        · rfl
        · rw [List.concat_eq_append, ← List.cons_append] at htidy
          have hlast : last.isExtra = false := htidy.last last List.getLast?_concat
          simp [List.filter_append, hlast] at hnone

end Tidy

end Node

theorem Span.over_map {f : Node → Node} (hf : ∀ n, (f n).span = n.span) (p : Position)
    (ns : List Node) : Span.over p (ns.map f) = Span.over p ns := by
  rw [Span.over, Span.over, List.head?_map, List.getLast?_map]
  cases ns.head? <;> cases ns.getLast? <;> simp [hf]

end CoolTree
