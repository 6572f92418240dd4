import CoolTree.Parse.Builder
import Mathlib.Data.List.Induction
import Mathlib.Data.List.Nodup
import Mathlib.Data.List.Perm.Basic

/-!
# Arenas and what they hold

The node of an entry does not change when an arena grows, and it does not depend on what entries say
about their parents. In a sound arena children come before their parents, each child and its parent
name each other, and the nodes without a parent are known. Making a leaf adds one of these; making a
node of some of them leaves the new node in their place.
-/

namespace CoolTree

namespace Node

@[simp] theorem label_inRole (field : Option Field) (n : Node) :
    (n.inRole field).label = { n.label with field := field } := rfl

@[simp] theorem children_inRole (field : Option Field) (n : Node) :
    (n.inRole field).children = n.children := rfl

theorem inRole_of_field {n : Node} {field : Option Field} (h : n.field? = field) :
    n.inRole field = n := by
  cases n
  subst h
  rfl

end Node

namespace Arena

/-- What holds of the empty arena and of an arena with one more entry holds of every arena. -/
theorem induction {P : Arena → Prop} (empty : P #[]) (push : ∀ a e, P a → P (a.push e))
    (a : Arena) : P a := by
  obtain ⟨entries⟩ := a
  induction entries using List.reverseRecOn with
  | nil => exact empty
  | append_singleton entries e ih => simpa using push ⟨entries⟩ e ih

variable (a : Arena)

theorem nodes_push (e : Entry) : nodes (a.push e) = a.nodes.push (e.node a.nodes) := by
  simp [nodes]

@[simp] theorem size_nodes : a.nodes.size = a.size := by
  induction a using Arena.induction with
  | empty => rfl
  | push a e ih => rw [nodes_push, Array.size_push, Array.size_push, ih]

theorem entry_push_of_lt (e : Entry) {i : Nat} (h : i < a.size) :
    entry (a.push e) i = a.entry i := by
  simp [entry, Array.getD_eq_getD_getElem?, Array.getElem?_push, Nat.ne_of_lt h]

@[simp] theorem entry_push_size (e : Entry) : entry (a.push e) a.size = e := by
  simp [entry, Array.getD_eq_getD_getElem?]

theorem node_push_of_lt (e : Entry) {i : Nat} (h : i < a.size) :
    node (a.push e) i = a.node i := by
  rw [node, nodes_push, Array.getD_eq_getD_getElem?, Array.getElem?_push, size_nodes,
    if_neg (Nat.ne_of_lt h), node, Array.getD_eq_getD_getElem?]

theorem node_push_size (e : Entry) : node (a.push e) a.size = e.node a.nodes := by
  rw [node, nodes_push, Array.getD_eq_getD_getElem?, Array.getElem?_push, size_nodes, if_pos rfl,
    Option.getD_some]

/-- A node has the label of its entry, but for its role. -/
theorem label_node {i : Nat} (h : i < a.size) :
    (a.node i).label = ⟨(a.entry i).kind, (a.entry i).span, none, (a.entry i).extra,
      (a.entry i).missing, (a.entry i).faulty⟩ := by
  induction a using Arena.induction with
  | empty => cases h
  | push a e ih =>
      rcases Nat.lt_succ_iff_lt_or_eq.mp (Array.size_push e ▸ h) with hi | rfl
      · rw [node_push_of_lt _ _ hi, entry_push_of_lt _ _ hi, ih hi]
      · rw [node_push_size, entry_push_size]
        rfl

section

variable {i : Nat} (h : i < a.size)

include h

theorem kind_node : (a.node i).kind = (a.entry i).kind :=
  congrArg Label.kind (a.label_node h)

theorem span_node : (a.node i).span = (a.entry i).span :=
  congrArg Label.span (a.label_node h)

theorem field_node : (a.node i).field? = none :=
  congrArg Label.field (a.label_node h)

theorem isFaulty_node : (a.node i).isFaulty = (a.entry i).faulty :=
  congrArg Label.faulty (a.label_node h)

end

/-- The nodes of an arena do not depend on what its entries say about their parents. -/
theorem nodes_congr {a b : Arena}
    (h : a.map (fun e ↦ { e with parent := none }) = b.map (fun e ↦ { e with parent := none })) :
    a.nodes = b.nodes := by
  have hmap (c : Arena) : nodes (c.map fun e ↦ { e with parent := none }) = c.nodes := by
    rw [nodes, Array.foldl_map]
    rfl
  rw [← hmap a, ← hmap b, h]

@[simp] theorem size_setParent (id child : Nat) : (a.setParent id child).size = a.size := by
  simp [setParent]

@[simp] theorem nodes_setParent (id child : Nat) : (a.setParent id child).nodes = a.nodes := by
  refine nodes_congr (Array.ext (by simp [setParent]) fun i _ _ ↦ ?_)
  simp only [setParent, Array.getElem_map, Array.getElem_modify]
  split <;> rfl

theorem entry_setParent (id child : Nat) {i : Nat} (hi : i < a.size) :
    (a.setParent id child).entry i = if i = child then (a.entry i).below id else a.entry i := by
  simp only [entry, setParent, Array.getD_eq_getD_getElem?, Array.getElem?_modify,
    eq_comm (a := child)]
  by_cases hchild : i = child <;> simp [hi, hchild]
  subst hchild
  simp [hi]

@[simp] theorem size_adopt (id : Nat) (children : List Nat) :
    (a.adopt id children).size = a.size := by
  induction children generalizing a with
  | nil => rfl
  | cons child children ih => exact (ih _).trans (a.size_setParent id child)

@[simp] theorem nodes_adopt (id : Nat) (children : List Nat) :
    (a.adopt id children).nodes = a.nodes := by
  induction children generalizing a with
  | nil => rfl
  | cons child children ih => exact (ih _).trans (a.nodes_setParent id child)

theorem entry_adopt (id : Nat) (children : List Nat) {i : Nat} (hi : i < a.size) :
    (a.adopt id children).entry i =
      if i ∈ children then (a.entry i).below id else a.entry i := by
  induction children generalizing a with
  | nil => simp [adopt]
  | cons child children ih =>
      have hstep : a.adopt id (child :: children) = (a.setParent id child).adopt id children := rfl
      rw [hstep, ih _ (by simpa using hi), entry_setParent _ _ _ hi]
      by_cases hmem : i ∈ children <;> by_cases hchild : i = child <;>
        simp [hmem, hchild, Entry.below]

end Arena

/-- The nodes with some numbers, each in its role. -/
def Arena.nodesIn (a : Arena) (ids : List Nat) (fields : List (Option Field)) : List Node :=
  List.zipWith (fun id field ↦ (a.node id).inRole field) ids fields

namespace Arena

variable (a : Arena)

@[simp] theorem nodesIn_nil (fields : List (Option Field)) : a.nodesIn [] fields = [] := rfl

@[simp] theorem nodesIn_cons (id : Nat) (ids : List Nat) (field : Option Field)
    (fields : List (Option Field)) : a.nodesIn (id :: ids) (field :: fields) =
      (a.node id).inRole field :: a.nodesIn ids fields := rfl

theorem nodesIn_congr {a b : Arena} {ids : List Nat} (h : ∀ i ∈ ids, b.node i = a.node i)
    (fields : List (Option Field)) : b.nodesIn ids fields = a.nodesIn ids fields := by
  induction ids generalizing fields with
  | nil => rfl
  | cons id ids ih =>
      obtain ⟨hid, hids⟩ := List.forall_mem_cons.mp h
      cases fields with
      | nil => rfl
      | cons field fields => rw [nodesIn_cons, nodesIn_cons, hid, ih hids]

theorem nodesIn_append {ids : List Nat} {fields : List (Option Field)}
    (h : ids.length = fields.length) (ids' : List Nat) (fields' : List (Option Field)) :
    a.nodesIn (ids ++ ids') (fields ++ fields') = a.nodesIn ids fields ++ a.nodesIn ids' fields' :=
  List.zipWith_append h

/-- What does not look at the roles of nodes does not depend on the roles given to them. -/
theorem map_nodesIn {α : Type} {f : Node → α} (hf : ∀ n role, f (n.inRole role) = f n)
    {ids : List Nat} {fields : List (Option Field)} (h : ids.length = fields.length) :
    (a.nodesIn ids fields).map f = ids.map fun i ↦ f (a.node i) := by
  induction ids generalizing fields with
  | nil => rfl
  | cons id ids ih =>
      obtain ⟨field, fields, rfl⟩ := List.exists_cons_of_length_eq_add_one h.symm
      simp [hf, ih (by simpa using h)]

theorem map_field_nodesIn {ids : List Nat} {fields : List (Option Field)}
    (h : ids.length = fields.length) : (a.nodesIn ids fields).map Node.field? = fields := by
  induction ids generalizing fields with
  | nil => rw [List.length_eq_zero_iff.mp h.symm, nodesIn_nil, List.map_nil]
  | cons id ids ih =>
      obtain ⟨field, fields, rfl⟩ := List.exists_cons_of_length_eq_add_one h.symm
      rw [nodesIn_cons, List.map_cons, ih (by simpa using h)]
      rfl

theorem any_isFaulty_nodesIn {ids : List Nat} (hids : ∀ i ∈ ids, i < a.size)
    {fields : List (Option Field)} (h : ids.length = fields.length) :
    ids.any (fun id ↦ (a.entry id).faulty) = (a.nodesIn ids fields).any Node.isFaulty := by
  have hflags :
      (a.nodesIn ids fields).map Node.isFaulty = ids.map fun id ↦ (a.entry id).faulty := by
    rw [a.map_nodesIn (fun _ _ ↦ rfl) h]
    exact List.map_congr_left fun i hi ↦ a.isFaulty_node (hids i hi)
  simpa [List.any_map, Function.comp_def] using congrArg (List.any · id) hflags.symm

/-- Where children come before their parents, a node stands above the nodes of the children that its
entry lists. -/
theorem children_node (hlt : ∀ i < a.size, ∀ c ∈ (a.entry i).children, c < i) {i : Nat}
    (hi : i < a.size) :
    (a.node i).children = a.nodesIn (a.entry i).children (a.entry i).fields := by
  induction a using Arena.induction with
  | empty => cases hi
  | push a e ih =>
      have hsize : (a.push e).size = a.size + 1 := Array.size_push e
      have hchild := hlt i hi
      rcases Nat.lt_succ_iff_lt_or_eq.mp (hsize ▸ hi) with hi | rfl
      · have hold : ∀ j < a.size, ∀ c ∈ (a.entry j).children, c < j := by
          intro j hj c hc
          rw [← a.entry_push_of_lt e hj] at hc
          exact hlt j (by omega) c hc
        rw [node_push_of_lt _ _ hi, entry_push_of_lt _ _ hi, ih hold hi]
        exact (nodesIn_congr
          (fun c hc ↦ a.node_push_of_lt e (Nat.lt_trans (hold i hi c hc) hi)) _).symm
      · rw [node_push_size]
        rw [entry_push_size] at hchild ⊢
        exact (nodesIn_congr (fun c hc ↦ a.node_push_of_lt e (hchild c hc)) _).symm

/-- Nodes without a role are as they are in the arena. -/
theorem nodesIn_replicate {ids : List Nat} (h : ∀ i ∈ ids, i < a.size) :
    a.nodesIn ids (List.replicate ids.length none) = ids.map a.node := by
  induction ids with
  | nil => rfl
  | cons id ids ih =>
      obtain ⟨hid, hids⟩ := List.forall_mem_cons.mp h
      rw [List.length_cons, List.replicate_succ, nodesIn_cons, ih hids, List.map_cons,
        Node.inRole_of_field (a.field_node hid)]

section Adopting

variable (e : Entry) (children : List Nat)

theorem node_push_adopt : node ((a.adopt a.size children).push e) a.size =
    .mk ⟨e.kind, e.span, none, e.extra, e.missing, e.faulty⟩ (a.nodesIn e.children e.fields) := by
  have h := node_push_size (a.adopt a.size children) e
  rw [size_adopt] at h
  rw [h, Entry.node, nodes_adopt]
  rfl

theorem node_push_adopt_of_lt {i : Nat} (h : i < a.size) :
    node ((a.adopt a.size children).push e) i = a.node i := by
  rw [node_push_of_lt _ _ (by rwa [size_adopt]), node, nodes_adopt, node]

theorem size_push_adopt : Array.size ((a.adopt a.size children).push e) = a.size + 1 := by
  rw [Array.size_push, size_adopt]

theorem entry_push_adopt_size : entry ((a.adopt a.size children).push e) a.size = e := by
  have hlast := entry_push_size (a.adopt a.size children) e
  rwa [size_adopt] at hlast

theorem entry_push_adopt_of_lt {i : Nat} (h : i < a.size) :
    entry ((a.adopt a.size children).push e) i =
      if i ∈ children then (a.entry i).below a.size else a.entry i := by
  rw [← a.entry_adopt a.size children h]
  exact entry_push_of_lt _ _ (by rwa [size_adopt])

theorem parent_push_adopt_of_lt {i : Nat} (h : i < a.size) :
    (entry ((a.adopt a.size children).push e) i).parent =
      if i ∈ children then some a.size else (a.entry i).parent := by
  rw [a.entry_push_adopt_of_lt e children h]
  split <;> rfl

/-- Whatever does not look at parents holds of the new entry if it holds of those that were
there. -/
theorem forall_push_adopt {P : Nat → List Nat → List (Option Field) → Prop}
    (hentries : ∀ i < a.size, P i (a.entry i).children (a.entry i).fields)
    (hlast : P a.size e.children e.fields) :
    ∀ i < Array.size ((a.adopt a.size children).push e),
      P i (entry ((a.adopt a.size children).push e) i).children
        (entry ((a.adopt a.size children).push e) i).fields := by
  intro i hi
  rw [size_push_adopt] at hi
  rcases Nat.lt_succ_iff_lt_or_eq.mp hi with hi | rfl
  · rw [a.entry_push_adopt_of_lt e children hi]
    split <;> exact hentries i hi
  · rwa [entry_push_adopt_size]

end Adopting

end Arena

/-- Children come before their parents and have one role each, parents and children name each other,
and the nodes that have no parent are those in a list. -/
structure Arena.Sound (a : Arena) (loose : List Nat) : Prop where
  child_lt : ∀ i < a.size, ∀ c ∈ (a.entry i).children, c < i
  nodup : ∀ i < a.size, (a.entry i).children.Nodup
  length_fields : ∀ i < a.size, (a.entry i).fields.length = (a.entry i).children.length
  mem_children : ∀ i < a.size, ∀ c < a.size,
    c ∈ (a.entry i).children ↔ (a.entry c).parent = some i
  parent_lt : ∀ c < a.size, ∀ p, (a.entry c).parent = some p → p < a.size
  mem_loose : ∀ i, i ∈ loose ↔ i < a.size ∧ (a.entry i).parent = none
  nodup_loose : loose.Nodup

namespace Arena.Sound

variable {a : Arena} {loose : List Nat}

theorem empty : Sound #[] [] := by
  constructor <;> simp

theorem perm (h : a.Sound loose) {loose' : List Nat} (hperm : loose.Perm loose') :
    a.Sound loose' :=
  { h with
    mem_loose := fun i ↦ hperm.mem_iff.symm.trans (h.mem_loose i)
    nodup_loose := hperm.nodup h.nodup_loose }

section Adopting

variable {rest : List Nat} {e : Entry} (h : a.Sound (e.children ++ rest))

include h

theorem lt_of_mem_adopted {c : Nat} (hc : c ∈ e.children) : c < a.size :=
  ((h.mem_loose c).mp (List.mem_append_left rest hc)).1

theorem parent_of_mem_adopted {c : Nat} (hc : c ∈ e.children) : (a.entry c).parent = none :=
  ((h.mem_loose c).mp (List.mem_append_left rest hc)).2

/-- The new node is the parent of its children, and who had a parent still has it. -/
theorem mem_children_adopt (hparent : e.parent = none) :
    let b : Arena := (a.adopt a.size e.children).push e
    ∀ i < b.size, ∀ c < b.size, c ∈ (b.entry i).children ↔ (b.entry c).parent = some i := by
  intro b
  have hsize : b.size = a.size + 1 := a.size_push_adopt e e.children
  have hnone : (b.entry a.size).parent = none := by
    rw [a.entry_push_adopt_size e e.children, hparent]
  refine a.forall_push_adopt e e.children
    (P := fun i cs _ ↦ ∀ c < b.size, c ∈ cs ↔ (b.entry c).parent = some i) ?_ ?_
  · intro i hi c hc
    rcases Nat.lt_succ_iff_lt_or_eq.mp (hsize ▸ hc) with hc | rfl
    · rw [a.parent_push_adopt_of_lt e e.children hc, h.mem_children i hi c hc]
      split
      case isTrue hmem => simp [h.parent_of_mem_adopted hmem, Nat.ne_of_gt hi]
      case isFalse => rfl
    · rw [hnone]
      simpa using fun hmem ↦ Nat.lt_asymm hi (h.child_lt i hi _ hmem)
  · intro c hc
    rcases Nat.lt_succ_iff_lt_or_eq.mp (hsize ▸ hc) with hc | rfl
    · rw [a.parent_push_adopt_of_lt e e.children hc]
      split
      case isTrue hmem => simp [hmem]
      case isFalse hmem => simpa [hmem] using fun hp ↦ Nat.lt_irrefl _ (h.parent_lt c hc _ hp)
    · rw [hnone]
      simpa using fun hmem ↦ Nat.lt_irrefl _ (h.lt_of_mem_adopted hmem)

/-- The new node has no parent, and neither have those that are not its children. -/
theorem mem_loose_adopt (hparent : e.parent = none) :
    let b : Arena := (a.adopt a.size e.children).push e
    ∀ i, i ∈ rest ++ [a.size] ↔ i < b.size ∧ (b.entry i).parent = none := by
  intro b i
  have hsize : b.size = a.size + 1 := a.size_push_adopt e e.children
  have hparents := fun {i} (hi : i < a.size) ↦ a.parent_push_adopt_of_lt e e.children hi
  rw [List.mem_append, List.mem_singleton, hsize]
  constructor
  · rintro (hi | rfl)
    · obtain ⟨hlt, hroot⟩ := (h.mem_loose i).mp (List.mem_append_right _ hi)
      have hdisjoint := List.disjoint_of_nodup_append h.nodup_loose
      rw [hparents hlt, if_neg fun hmem ↦ hdisjoint hmem hi]
      exact ⟨Nat.lt_succ_of_lt hlt, hroot⟩
    · rw [a.entry_push_adopt_size e e.children]
      exact ⟨Nat.lt_succ_self _, hparent⟩
  · rintro ⟨hlt, hroot⟩
    rcases Nat.lt_succ_iff_lt_or_eq.mp hlt with hlt | rfl
    · rw [hparents hlt] at hroot
      split at hroot
      case isTrue => cases hroot
      case isFalse hmem =>
        have hi := (h.mem_loose i).mpr ⟨hlt, hroot⟩
        exact .inl ((List.mem_append.mp hi).resolve_left hmem)
    · exact .inr rfl

end Adopting

/-- A node is made of some that have no parent yet. -/
theorem adopt {children rest : List Nat} (h : a.Sound (children ++ rest)) {e : Entry}
    (hchildren : e.children = children) (hfields : e.fields.length = children.length)
    (hparent : e.parent = none) :
    Arena.Sound ((a.adopt a.size children).push e) (rest ++ [a.size]) := by
  subst hchildren
  constructor
  case child_lt =>
    exact a.forall_push_adopt e e.children (P := fun i cs _ ↦ ∀ c ∈ cs, c < i) h.child_lt
      fun c hc ↦ h.lt_of_mem_adopted hc
  case nodup =>
    exact a.forall_push_adopt e e.children (P := fun _ cs _ ↦ cs.Nodup) h.nodup
      h.nodup_loose.of_append_left
  case length_fields =>
    exact a.forall_push_adopt e e.children (P := fun _ cs fs ↦ fs.length = cs.length)
      h.length_fields hfields
  case mem_children => exact h.mem_children_adopt hparent
  case parent_lt =>
    intro c hc p hp
    rw [size_push_adopt] at hc ⊢
    rcases Nat.lt_succ_iff_lt_or_eq.mp hc with hc | rfl
    · rw [parent_push_adopt_of_lt _ _ _ hc] at hp
      split at hp
      · cases hp
        exact Nat.lt_succ_self _
      · exact Nat.lt_succ_of_lt (h.parent_lt c hc p hp)
    · rw [entry_push_adopt_size, hparent] at hp
      cases hp
  case mem_loose => exact h.mem_loose_adopt hparent
  case nodup_loose =>
    refine List.nodup_append'.mpr ⟨h.nodup_loose.of_append_right, List.nodup_singleton _, ?_⟩
    intro i hi hlast
    rw [List.mem_singleton.mp hlast] at hi
    exact Nat.lt_irrefl _ ((h.mem_loose _).mp (List.mem_append_right _ hi)).1

theorem push (h : a.Sound loose) {e : Entry} (hchildren : e.children = [])
    (hfields : e.fields = []) (hparent : e.parent = none) :
    Arena.Sound (a.push e) (loose ++ [a.size]) := by
  have hempty : a.Sound ([] ++ loose) := h
  exact hempty.adopt hchildren (by rw [hfields]; rfl) hparent

end Arena.Sound

end CoolTree
