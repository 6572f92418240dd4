import CoolTree.Proofs.Arena
import CoolTree.Proofs.Preorder
import CoolTree.Tree.Cursor
import Mathlib.Data.List.Perm.Subperm
import Mathlib.Data.List.Range

/-!
# Walking through an arena

In a sound arena the numbers from a node down, in pre-order, are told by a recursion on numbers,
because children stand in front of their parents. No number comes twice, since a node has one
parent, and from the only node without a parent all numbers are reached. The visit with a stack goes
through the numbers in this order, so that what stands at the cursors of a tree is its root in
pre-order.
-/

namespace CoolTree

namespace Arena

/-- The numbers of a node and of those below it, each before the numbers below it. Children that do
not stand in front of the node are passed over. -/
def order (a : Arena) (id : Nat) : List Nat :=
  id :: ((a.entry id).children.filter (· < id)).attach.flatMap fun c ↦ order a c.1
  termination_by id
  decreasing_by exact of_decide_eq_true (List.mem_filter.mp c.2).2

theorem le_of_mem_order {a : Arena} {i j : Nat} (h : j ∈ a.order i) : j ≤ i := by
  induction i using Nat.strongRecOn with
  | ind i ih =>
      rw [order, List.mem_cons, List.mem_flatMap] at h
      obtain rfl | ⟨⟨c, hc⟩, -, hj⟩ := h
      · exact Nat.le_refl j
      · have hlt : c < i := of_decide_eq_true (List.mem_filter.mp hc).2
        exact Nat.le_trans (ih c hlt hj) (Nat.le_of_lt hlt)

namespace Sound

variable {a : Arena} {loose : List Nat} {i j c d : Nat}

theorem order_eq (h : a.Sound loose) (hi : i < a.size) :
    a.order i = i :: (a.entry i).children.flatMap a.order := by
  have hall : (a.entry i).children.filter (· < i) = (a.entry i).children :=
    List.filter_eq_self.mpr fun c hc ↦ decide_eq_true (h.child_lt i hi c hc)
  rw [order, hall]
  simp [List.flatMap]

theorem self_mem_order (h : a.Sound loose) (hi : i < a.size) : i ∈ a.order i := by
  rw [h.order_eq hi]
  exact List.mem_cons_self

theorem lt_size_of_mem_order (hi : i < a.size) (hj : j ∈ a.order i) : j < a.size :=
  Nat.lt_of_le_of_lt (le_of_mem_order hj) hi

theorem child_lt_size (h : a.Sound loose) (hi : i < a.size) (hc : c ∈ (a.entry i).children) :
    c < a.size :=
  Nat.lt_trans (h.child_lt i hi c hc) hi

/-- Whoever is reached is where the walk starts, or a child of someone who is reached. -/
theorem mem_order_iff (h : a.Sound loose) (hi : i < a.size) :
    j ∈ a.order i ↔ j = i ∨ ∃ p ∈ a.order i, j ∈ (a.entry p).children := by
  induction i using Nat.strongRecOn with
  | ind i ih =>
      rw [h.order_eq hi]
      simp only [List.mem_cons, List.mem_flatMap]
      constructor
      · rintro (rfl | ⟨c, hc, hj⟩)
        · exact .inl rfl
        · obtain rfl | ⟨p, hp, hj⟩ := (ih c (h.child_lt i hi c hc) (h.child_lt_size hi hc)).mp hj
          · exact .inr ⟨i, .inl rfl, hc⟩
          · exact .inr ⟨p, .inr ⟨c, hc, hp⟩, hj⟩
      · rintro (rfl | ⟨p, rfl | ⟨c, hc, hp⟩, hj⟩)
        · exact .inl rfl
        · exact .inr ⟨j, hj, h.self_mem_order (h.child_lt_size hi hj)⟩
        · have hmem := (ih c (h.child_lt i hi c hc) (h.child_lt_size hi hc)).mpr (.inr ⟨p, hp, hj⟩)
          exact .inr ⟨c, hc, hmem⟩

theorem mem_order_trans (h : a.Sound loose) (hi : i < a.size) (hj : j ∈ a.order i)
    (hc : c ∈ a.order j) : c ∈ a.order i := by
  induction i using Nat.strongRecOn with
  | ind i ih =>
      have hmem := h.order_eq hi ▸ hj
      rcases List.mem_cons.mp hmem with rfl | hmem
      · exact hc
      · obtain ⟨d, hd, hmem⟩ := List.mem_flatMap.mp hmem
        rw [h.order_eq hi]
        have hbelow := ih d (h.child_lt i hi d hd) (h.child_lt_size hi hd) hmem
        exact List.mem_cons_of_mem i (List.mem_flatMap.mpr ⟨d, hd, hbelow⟩)

theorem eq_of_mem_children (h : a.Sound loose) (hi : i < a.size) (hj : j < a.size)
    (hci : c ∈ (a.entry i).children) (hcj : c ∈ (a.entry j).children) : i = j := by
  have hc := h.child_lt_size hi hci
  have hparent := ((h.mem_children i hi c hc).mp hci).symm.trans ((h.mem_children j hj c hc).mp hcj)
  exact Option.some.inj hparent

/-- What is reached from two children of a node is reached from one of them only. -/
theorem eq_of_mem_order (h : a.Sound loose) (hi : i < a.size) (hc : c ∈ (a.entry i).children)
    (hd : d ∈ (a.entry i).children) (hjc : j ∈ a.order c) (hjd : j ∈ a.order d) : c = d := by
  have hci := h.child_lt_size hi hc
  have hdi := h.child_lt_size hi hd
  -- from a node up to its parent, until one of the two children is met
  induction hsize : a.size - j using Nat.strongRecOn generalizing j with
  | ind n ih =>
      have hlow : ∀ e ∈ (a.entry i).children, i ∉ a.order e := fun e he hmem ↦
        Nat.not_lt.mpr (le_of_mem_order hmem) (h.child_lt i hi e he)
      obtain rfl | ⟨p, hp, hjp⟩ := (h.mem_order_iff hci).mp hjc
      · obtain rfl | ⟨p', hp', hjp'⟩ := (h.mem_order_iff hdi).mp hjd
        · rfl
        · obtain rfl := h.eq_of_mem_children hi (lt_size_of_mem_order hdi hp') hc hjp'
          exact (hlow d hd hp').elim
      · have hpsize := lt_size_of_mem_order hci hp
        have hlt := h.child_lt p hpsize j hjp
        obtain rfl | ⟨p', hp', hjp'⟩ := (h.mem_order_iff hdi).mp hjd
        · obtain rfl := h.eq_of_mem_children hi hpsize hd hjp
          exact (hlow c hc hp).elim
        · obtain rfl := h.eq_of_mem_children hpsize (lt_size_of_mem_order hdi hp') hjp hjp'
          exact ih (a.size - p) (by omega) hp hp' rfl

theorem nodup_order (h : a.Sound loose) (hi : i < a.size) : (a.order i).Nodup := by
  induction i using Nat.strongRecOn with
  | ind i ih =>
      rw [h.order_eq hi, List.nodup_cons, List.nodup_flatMap]
      refine ⟨fun hmem ↦ ?_, fun c hc ↦ ih c (h.child_lt i hi c hc) (h.child_lt_size hi hc), ?_⟩
      · obtain ⟨c, hc, hmem⟩ := List.mem_flatMap.mp hmem
        exact Nat.not_lt.mpr (le_of_mem_order hmem) (h.child_lt i hi c hc)
      · refine (h.nodup i hi).imp_of_mem fun {c d} hc hd hne j hjc hjd ↦ ?_
        exact hne (h.eq_of_mem_order hi hc hd hjc hjd)

/-- Every node is reached from one that has no parent. -/
theorem exists_mem_order (h : a.Sound loose) (hj : j < a.size) : ∃ r ∈ loose, j ∈ a.order r := by
  induction hsize : a.size - j using Nat.strongRecOn generalizing j with
  | ind n ih =>
      cases hparent : (a.entry j).parent with
      | none => exact ⟨j, (h.mem_loose j).mpr ⟨hj, hparent⟩, h.self_mem_order hj⟩
      | some p =>
          have hp := h.parent_lt j hj p hparent
          have hmem := (h.mem_children p hp j hj).mpr hparent
          have hlt := h.child_lt p hp j hmem
          obtain ⟨r, hr, hpr⟩ := ih (a.size - p) (by omega) hp rfl
          have hrsize := ((h.mem_loose r).mp hr).1
          exact ⟨r, hr, (h.mem_order_iff hrsize).mpr (.inr ⟨p, hpr, hmem⟩)⟩

/-- From the only node without a parent every node is reached, once. -/
theorem perm_order {top : Nat} (h : a.Sound [top]) : (a.order top).Perm (List.range a.size) := by
  have htop := ((h.mem_loose top).mp (List.mem_singleton_self top)).1
  refine (List.perm_ext_iff_of_nodup (h.nodup_order htop) List.nodup_range).mpr fun j ↦ ?_
  rw [List.mem_range]
  refine ⟨lt_size_of_mem_order htop, fun hj ↦ ?_⟩
  obtain ⟨r, hr, hmem⟩ := h.exists_mem_order hj
  rwa [List.mem_singleton.mp hr] at hmem

theorem length_order_le (h : a.Sound loose) (hi : i < a.size) : (a.order i).length ≤ a.size := by
  have hsub : (a.order i).Subperm (List.range a.size) :=
    List.subperm_of_subset (h.nodup_order hi) fun j hj ↦
      List.mem_range.mpr (lt_size_of_mem_order hi hj)
  simpa using hsub.length_le

end Sound

end Arena

namespace Descendants

theorem visit_nil (t : Tree) (visited : Array Cursor) (n : Nat) :
    visit visited n ⟨t, []⟩ = (visited, ⟨t, []⟩) := by
  cases n <;> rfl

/-- The visit goes through what is below the first number on the stack, then to the second one. -/
theorem visit_eq {t : Tree} {loose : List Nat} (h : t.arena.Sound loose) {ids : List Nat}
    (hids : ∀ i ∈ ids, i < t.arena.size) (visited : Array Cursor) (n : Nat) :
    visit visited ((ids.flatMap t.arena.order).length + n) ⟨t, ids⟩ =
      (visited ++ ((ids.flatMap t.arena.order).map (Cursor.mk t)).toArray, ⟨t, []⟩) := by
  induction hsize : (ids.flatMap t.arena.order).length generalizing ids visited with
  | zero =>
      cases ids with
      | nil => simpa using visit_nil t visited n
      | cons i ids => simp [h.order_eq (hids i List.mem_cons_self)] at hsize
  | succ size ih =>
      cases ids with
      | nil => simp at hsize
      | cons i ids =>
          obtain ⟨hi, hids⟩ := List.forall_mem_cons.mp hids
          have hflat : (i :: ids).flatMap t.arena.order =
              i :: ((t.arena.entry i).children ++ ids).flatMap t.arena.order := by
            rw [List.flatMap_cons, h.order_eq hi, List.flatMap_append, List.cons_append]
          rw [hflat, List.length_cons, Nat.add_right_cancel_iff] at hsize
          have hrest : ∀ j ∈ (t.arena.entry i).children ++ ids, j < t.arena.size :=
            List.forall_mem_append.mpr ⟨fun j hj ↦ h.child_lt_size hi hj, hids⟩
          have hstep : visit visited (size + 1 + n) ⟨t, i :: ids⟩ =
              visit (visited.push ⟨t, i⟩) (size + n) ⟨t, (t.arena.entry i).children ++ ids⟩ := by
            rw [Nat.add_right_comm]
            rfl
          rw [hstep, ih hrest (visited.push ⟨t, i⟩) hsize, hflat]
          simp

end Descendants

namespace Cursor

/-- The cursor stands at a node of a tree in which the root alone has no parent. -/
structure Stands (c : Cursor) : Prop where
  sound : c.tree.arena.Sound [c.tree.top]
  lt : c.id < c.tree.arena.size

theorem stands_ofTree {t : Tree} (h : t.arena.Sound [t.top]) : (ofTree t).Stands :=
  ⟨h, ((h.mem_loose t.top).mp (List.mem_singleton_self t.top)).1⟩

namespace Stands

variable {c d k : Cursor}

theorem visit_eq (h : c.Stands) : Descendants.visit #[] c.tree.nodeCount ⟨c.tree, [c.id]⟩ =
    (((c.tree.arena.order c.id).map c.move).toArray, ⟨c.tree, []⟩) := by
  have hids : ∀ i ∈ [c.id], i < c.tree.arena.size := by simpa using h.lt
  have hlength : (c.tree.arena.order c.id).length ≤ c.tree.nodeCount :=
    h.sound.length_order_le h.lt
  have hvisit := Descendants.visit_eq h.sound hids #[]
    (c.tree.nodeCount - (c.tree.arena.order c.id).length)
  rw [List.flatMap_singleton, Nat.add_sub_cancel' hlength, Array.empty_append] at hvisit
  exact hvisit

/-- What the visit lists are the numbers from the node down. -/
theorem descendants_eq_map (h : c.Stands) :
    c.descendants = (c.tree.arena.order c.id).map c.move := by
  rw [descendants, h.visit_eq]

theorem of_mem_children (h : c.Stands) (hk : k ∈ c.children) : k.Stands := by
  obtain ⟨i, hi, rfl⟩ := List.mem_map.mp hk
  exact ⟨h.sound, h.sound.child_lt_size h.lt hi⟩

theorem of_mem_descendants (h : c.Stands) (hd : d ∈ c.descendants) : d.Stands := by
  rw [h.descendants_eq_map] at hd
  obtain ⟨i, hi, rfl⟩ := List.mem_map.mp hd
  exact ⟨h.sound, Arena.Sound.lt_size_of_mem_order h.lt hi⟩

/-- A node is listed before the nodes below it, child by child. -/
theorem descendants_eq (h : c.Stands) : c.descendants = c :: c.children.flatMap descendants := by
  have hbelow : ∀ k ∈ c.children, k.descendants = (c.tree.arena.order k.id).map c.move := by
    intro k hk
    have hstands := h.of_mem_children hk
    obtain ⟨i, -, rfl⟩ := List.mem_map.mp hk
    exact hstands.descendants_eq_map
  rw [List.flatMap_congr hbelow, h.descendants_eq_map, h.sound.order_eq h.lt, List.map_cons,
    List.map_flatMap, children, List.flatMap_map]
  rfl

/-- What holds of a cursor whenever it holds of its children holds of every cursor. -/
theorem induction {P : Cursor → Prop} (h : c.Stands)
    (step : ∀ c, c.Stands → (∀ k ∈ c.children, P k) → P c) : P c := by
  obtain ⟨t, i⟩ := c
  induction i using Nat.strongRecOn with
  | ind i ih =>
      refine step _ h fun k hk ↦ ?_
      have hstands := h.of_mem_children hk
      obtain ⟨j, hj, rfl⟩ := List.mem_map.mp hk
      exact ih j (h.sound.child_lt i h.lt j hj) hstands

theorem tail_descendants (h : c.Stands) :
    c.descendants.tail = c.children.flatMap descendants := by
  rw [h.descendants_eq, List.tail_cons]

theorem self_mem_descendants (h : c.Stands) : c ∈ c.descendants := by
  rw [h.descendants_eq]
  exact List.mem_cons_self

theorem mem_descendants_iff (h : c.Stands) :
    d ∈ c.descendants ↔ d.tree = c.tree ∧ d.id ∈ c.tree.arena.order c.id := by
  rw [h.descendants_eq_map, List.mem_map]
  constructor
  · rintro ⟨i, hi, rfl⟩
    exact ⟨rfl, hi⟩
  · rintro ⟨htree, hid⟩
    exact ⟨d.id, hid, by rw [move, ← htree]⟩

theorem mem_descendants_trans (h : c.Stands) (hd : d ∈ c.descendants) (hk : k ∈ d.descendants) :
    k ∈ c.descendants := by
  obtain ⟨htree, hid⟩ := h.mem_descendants_iff.mp hd
  obtain ⟨htree', hid'⟩ := (h.of_mem_descendants hd).mem_descendants_iff.mp hk
  rw [htree] at htree' hid'
  exact h.mem_descendants_iff.mpr ⟨htree', h.sound.mem_order_trans h.lt hid hid'⟩

/-- What is below two children of a cursor is below one of them only. -/
theorem eq_of_mem_descendants (h : c.Stands) {k' : Cursor} (hk : k ∈ c.children)
    (hk' : k' ∈ c.children) (hd : d ∈ k.descendants) (hd' : d ∈ k'.descendants) : k = k' := by
  have hid := ((h.of_mem_children hk).mem_descendants_iff.mp hd).2
  have hid' := ((h.of_mem_children hk').mem_descendants_iff.mp hd').2
  obtain ⟨i, hi, rfl⟩ := List.mem_map.mp hk
  obtain ⟨i', hi', rfl⟩ := List.mem_map.mp hk'
  rw [h.sound.eq_of_mem_order h.lt hi hi' hid hid']

theorem lt_of_mem_tail (h : c.Stands) (hd : d ∈ c.descendants.tail) : d.id < c.id := by
  rw [h.tail_descendants] at hd
  obtain ⟨k, hk, hd⟩ := List.mem_flatMap.mp hd
  have hle := Arena.le_of_mem_order ((h.of_mem_children hk).mem_descendants_iff.mp hd).2
  obtain ⟨i, hi, rfl⟩ := List.mem_map.mp hk
  exact Nat.lt_of_le_of_lt hle (h.sound.child_lt c.id h.lt i hi)

theorem parent?_of_mem_children (h : c.Stands) (hk : k ∈ c.children) : k.parent? = some c := by
  have hlt := (h.of_mem_children hk).lt
  obtain ⟨i, hi, rfl⟩ := List.mem_map.mp hk
  have hparent := (h.sound.mem_children c.id h.lt i hlt).mp hi
  exact congrArg (Option.map c.move) hparent

theorem role?_move (h : c.Stands) {i : Nat} (hi : i ∈ c.entry.children) :
    (c.move i).role? = ((c.entry.children.zip c.entry.fields).lookup i).join := by
  rw [role?, h.parent?_of_mem_children (List.mem_map_of_mem hi)]
  rfl

end Stands

/-- Where keys are different, looking each of them up goes through the values. -/
theorem map_lookup_zip {α β : Type} [BEq α] [LawfulBEq α] {keys : List α} {values : List β}
    (hnodup : keys.Nodup) (hlength : values.length = keys.length) :
    (keys.map fun k ↦ (keys.zip values).lookup k) = values.map some := by
  induction keys generalizing values with
  | nil => simp [List.length_eq_zero_iff.mp hlength]
  | cons k keys ih =>
      obtain ⟨v, values, rfl⟩ := List.exists_cons_of_length_eq_add_one hlength
      obtain ⟨hk, hnodup⟩ := List.nodup_cons.mp hnodup
      have hrest : ∀ j ∈ keys, ((k :: keys).zip (v :: values)).lookup j =
          (keys.zip values).lookup j := by
        intro j hj
        have hne : (j == k) = false := beq_false_of_ne fun heq ↦ hk (heq ▸ hj)
        rw [List.zip_cons_cons, List.lookup_cons, hne]
      rw [List.map_cons, List.map_congr_left hrest, ih hnodup (by simpa using hlength)]
      simp

namespace Stands

variable {c d k : Cursor}

/-- At the children of a cursor stand the children of its node, each in its role. -/
theorem map_node_children (h : c.Stands) : c.children.map node = c.node.children := by
  let ids := c.entry.children
  let fields := c.entry.fields
  have hfields : fields = ids.map fun i ↦ ((ids.zip fields).lookup i).join := by
    have hlookup := map_lookup_zip (h.sound.nodup c.id h.lt) (h.sound.length_fields c.id h.lt)
    simpa [ids, fields, entry, Function.comp_def] using
      (congrArg (List.map Option.join) hlookup).symm
  have hnode : ∀ i ∈ ids, (c.move i).node =
      (c.tree.arena.node i).inRole ((ids.zip fields).lookup i).join := by
    intro i hi
    rw [node, h.role?_move hi]
    rfl
  calc
    c.children.map node = ids.map fun i ↦ (c.move i).node := List.map_map
    _ = ids.map fun i ↦ (c.tree.arena.node i).inRole ((ids.zip fields).lookup i).join :=
      List.map_congr_left hnode
    _ = c.tree.arena.nodesIn ids (ids.map fun i ↦ ((ids.zip fields).lookup i).join) := by
      rw [Arena.nodesIn, List.zipWith_map_right, List.zipWith_self]
    _ = c.tree.arena.nodesIn ids fields := by rw [← hfields]
    _ = c.node.children := (c.tree.arena.children_node h.sound.child_lt h.lt).symm

/-- The roles in an entry are those of the children. -/
theorem fields_eq (h : c.Stands) : c.entry.fields = c.node.children.map Node.field? := by
  have hlength := (h.sound.length_fields c.id h.lt).symm
  have hchildren := c.tree.arena.children_node h.sound.child_lt h.lt
  rw [node, Node.children_inRole, hchildren, Arena.map_field_nodesIn _ hlength, entry]

theorem map_node_descendants (h : c.Stands) : c.descendants.map node = c.node.preorder := by
  refine induction (P := fun c ↦ c.descendants.map node = c.node.preorder) h fun c h ih ↦ ?_
  rw [h.descendants_eq, Node.preorder_eq, Node.preorders_eq_flatMap, ← h.map_node_children,
    List.map_cons, List.map_flatMap, List.flatMap_map]
  exact congrArg _ (List.flatMap_congr ih)

end Stands

theorem parent?_ofTree {t : Tree} (h : t.arena.Sound [t.top]) : (ofTree t).parent? = none := by
  have htop := (h.mem_loose t.top).mp (List.mem_singleton_self t.top)
  rw [parent?, entry, ofTree, htop.2, Option.map_none]

theorem node_ofTree {t : Tree} (h : t.arena.Sound [t.top]) : (ofTree t).node = t.root := by
  have htop := (h.mem_loose t.top).mp (List.mem_singleton_self t.top)
  have hrole : (ofTree t).role? = none := by
    rw [role?, parent?_ofTree h]
    rfl
  rw [node, hrole]
  exact Node.inRole_of_field (t.arena.field_node htop.1)

end Cursor

namespace Tree

/-- The nodes of a tree below its root, in pre-order. -/
def nodesBelowRoot (t : Tree) : List Node :=
  (Cursor.ofTree t).descendants.tail.map (·.node)

variable {t : Tree} (h : t.arena.Sound [t.top])

include h

theorem map_node_descendants : (Cursor.ofTree t).descendants.map (·.node) = t.root.preorder := by
  rw [← Cursor.node_ofTree h]
  exact (Cursor.stands_ofTree h).map_node_descendants

theorem nodesBelowRoot_eq : t.nodesBelowRoot = Node.preorders t.root.children := by
  rw [nodesBelowRoot, List.map_tail, map_node_descendants h, Node.preorder_eq, List.tail_cons]

theorem mem_preorder_of_mem_descendants {c : Cursor} (hc : c ∈ (Cursor.ofTree t).descendants) :
    c.node ∈ t.root.preorder := by
  rw [← map_node_descendants h]
  exact List.mem_map_of_mem hc

theorem length_descendants : (Cursor.ofTree t).descendants.length = t.nodeCount := by
  rw [(Cursor.stands_ofTree h).descendants_eq_map, List.length_map]
  exact h.perm_order.length_eq.trans List.length_range

theorem nodeCount_eq : t.nodeCount = t.root.preorder.length := by
  rw [← map_node_descendants h, List.length_map, length_descendants h]

end Tree

end CoolTree
