import CoolTree.Proofs.Lookup
import CoolTree.Proofs.Packaged
import CoolTree.Proofs.Roleless

/-!
# Parents, children and roles

However nodes come to be made long before their parents, in the end each of them but the root stands
in one list of children and there once, its parent is the owner of the list, and it was made before
the parent. Lists of children and of roles are of one length. Children can be asked for by role;
this finds those that the role is known of, one by one.
-/

namespace CoolTree

theorem Arena.Sound.count_children {a : Arena} {loose : List Nat} (h : a.Sound loose) {i j : Nat}
    (hi : i < a.size) (hj : j < a.size) :
    (a.entry j).children.count i = if (a.entry i).parent = some j then 1 else 0 := by
  split
  case isTrue hparent =>
    exact List.count_eq_one_of_mem (h.nodup j hj) ((h.mem_children j hj i hi).mpr hparent)
  case isFalse hparent =>
    exact List.count_eq_zero.mpr fun hmem ↦ hparent ((h.mem_children j hj i hi).mp hmem)

namespace Cursor

/-- Filtering a list goes through its places. -/
theorem filter_eq_filterMap_range {α : Type} (p : α → Bool) (xs : List α) :
    xs.filter p = (List.range xs.length).filterMap fun i ↦ xs[i]?.filter p := by
  induction xs with
  | nil => rfl
  | cons x xs ih =>
      rw [List.length_cons, List.range_succ_eq_map, List.filterMap_cons, List.filterMap_map,
        List.filter_cons, ih]
      by_cases h : p x = true
      · simp [h, Option.filter]
      · simp [h, Option.filter]

/-- A role has the number of a name if the name is found under its number. -/
theorem plays_iff (c : Cursor) (field : Option Field) (name : String) :
    ((c.tree.language.fieldNumber? name).isSome &&
        field.bind c.fieldNumber? == c.tree.language.fieldNumber? name) = true ↔
      ((field.bind c.fieldNumber?).bind c.tree.language.fieldName?) = some name := by
  cases field.bind c.fieldNumber? with
  | none => cases c.tree.language.fieldNumber? name <;> simp
  | some n =>
      rw [Option.bind_some, ← Language.fieldNumber?_eq_some_iff]
      cases c.tree.language.fieldNumber? name with
      | none => simp
      | some m => rw [Option.isSome_some, Bool.true_and, beq_iff_eq, eq_comm]

theorem fieldNameOfChild?_eq {c : Cursor} {i : Nat} {field : Option Field}
    (h : c.entry.fields[i]? = some field) : c.fieldNameOfChild? i =
      (field.bind c.fieldNumber?).bind c.tree.language.fieldName? := by
  rw [fieldNameOfChild?, h]
  cases field <;> rfl

/-- The children in a role are those that are said to be in it, in their order. -/
theorem childrenByField_eq {c : Cursor} (h : c.entry.fields.length = c.entry.children.length)
    (name : String) : c.childrenByField name = (List.range c.children.length).filterMap fun i ↦
      if c.fieldNameOfChild? i = some name then c.child? i else none := by
  rw [childrenByField]
  dsimp only
  rw [filter_eq_filterMap_range, List.map_filterMap, List.length_zip, h, Nat.min_self, children,
    List.length_map]
  refine List.filterMap_congr fun i hi ↦ ?_
  rw [List.mem_range] at hi
  obtain ⟨id, hid⟩ : ∃ id, c.entry.children[i]? = some id := ⟨_, List.getElem?_eq_getElem hi⟩
  obtain ⟨field, hfield⟩ : ∃ field, c.entry.fields[i]? = some field :=
    ⟨_, List.getElem?_eq_getElem (h ▸ hi)⟩
  have hpair : (c.entry.children.zip c.entry.fields)[i]? = some (id, field) :=
    List.getElem?_zip_eq_some.mpr ⟨hid, hfield⟩
  have hplays := c.plays_iff field name
  rw [hpair, fieldNameOfChild?_eq hfield, child?, hid]
  by_cases hname : (field.bind c.fieldNumber?).bind c.tree.language.fieldName? = some name
  · rw [if_pos hname, Option.filter_some, if_pos (hplays.mpr hname)]
    rfl
  · rw [if_neg hname, Option.filter_some, if_neg fun hplay ↦ hname (hplays.mp hplay)]
    rfl

namespace Stands

variable {c : Cursor}

theorem fields_getElem? (h : c.Stands) {i : Nat} {child : Cursor} (hi : c.child? i = some child) :
    c.entry.fields[i]? = some child.node.field? := by
  have hchild : c.children[i]? = some child := List.getElem?_map.trans hi
  rw [h.fields_eq, ← h.map_node_children, List.map_map, List.getElem?_map, hchild]
  rfl

/-- In a language that has numbers for all roles, the nodes of the children in a role are those that
play it. -/
theorem map_node_childrenByField (h : c.Stands)
    (hl : ∀ f : Field, (c.tree.language.fieldNumber? f.label).isSome = true) (name : String) :
    (c.childrenByField name).map node =
      c.node.children.filter fun n ↦ n.field?.any (·.label == name) := by
  have hlength := h.sound.length_fields c.id h.lt
  have hlabel : ∀ field : Option Field,
      (field.bind c.fieldNumber?).bind c.tree.language.fieldName? = field.map Field.label := by
    rintro (_ | f)
    · rfl
    · obtain ⟨n, hn⟩ := Option.isSome_iff_exists.mp (hl f)
      rw [Option.bind_some, fieldNumber?, hn, Option.bind_some,
        Language.fieldNumber?_eq_some_iff.mp hn, Option.map_some]
  rw [childrenByField_eq hlength, filter_eq_filterMap_range, List.map_filterMap,
    ← h.map_node_children, List.length_map]
  refine List.filterMap_congr fun i hi ↦ ?_
  obtain ⟨child, hchild⟩ : ∃ child, c.children[i]? = some child :=
    ⟨_, List.getElem?_eq_getElem (List.mem_range.mp hi)⟩
  have hi : c.child? i = some child := List.getElem?_map.symm.trans hchild
  rw [fieldNameOfChild?_eq (h.fields_getElem? hi), hlabel, hi, List.getElem?_map, hchild]
  cases hfield : child.node.field? with
  | none => simp [Option.filter, hfield]
  | some f => by_cases hname : f.label = name <;> simp [Option.filter, hfield, hname]

end Stands

end Cursor

theorem Language.fieldNumber?_isSome {p q : Parser} {l : Language} (h : p.setLanguage l = .ok q)
    (f : Field) : (l.fieldNumber? f.label).isSome = true :=
  isMetBy_of_lack? (Parser.lack?_of_setLanguage h) (.field f) <| by
    simp [Need.all, f.mem_all]

/-- The nodes of a tree and how they are linked. The root has no parent. Any other node stands in
one list of children, and there once; the owner of the list is its parent and was made after it. So
the visit from the root ends, goes through every node once, each before what is below it, child by
child, and through as many nodes as there are. The children of a node have as many roles as they
are, and those in a role are the ones that are said to be in it, in their order. -/
theorem Parser.arena_of_parse {p q : Parser} {l : Language} (hlanguage : p.setLanguage l = .ok q)
    (config : Config) (source : String) :
    ∃ tree, (q.setConfig config).parse? source = some tree ∧
      tree.top < tree.nodeCount ∧ (Cursor.ofTree tree).parent? = none ∧
      (∀ j < tree.nodeCount, tree.top ∉ (tree.arena.entry j).children ∧
        ∀ i ∈ (tree.arena.entry j).children, i < j) ∧
      (∀ i < tree.nodeCount, i ≠ tree.top → ∃ above < tree.nodeCount, i < above ∧
        Cursor.parent? ⟨tree, i⟩ = some ⟨tree, above⟩ ∧
        ∀ j < tree.nodeCount, (tree.arena.entry j).children.count i = if j = above then 1 else 0) ∧
      (Descendants.visit #[] tree.nodeCount ⟨tree, [tree.top]⟩).2.next? = none ∧
      ((Cursor.ofTree tree).descendants.map (·.id)).Perm (List.range tree.nodeCount) ∧
      (∀ c ∈ (Cursor.ofTree tree).descendants,
        c.descendants = c :: c.children.flatMap Cursor.descendants) ∧
      (Cursor.ofTree tree).descendants.length = tree.nodeCount ∧
      ∀ c ∈ (Cursor.ofTree tree).descendants,
        c.entry.fields.length = c.entry.children.length ∧
        (∀ i child, c.child? i = some child → child.node.isExtra = true →
          c.fieldNameOfChild? i = none) ∧
        ∀ name, c.childrenByField name = (List.range c.children.length).filterMap fun i ↦
          if c.fieldNameOfChild? i = some name then c.child? i else none := by
  let tree := Tree.parse l config source
  have hsound : tree.arena.Sound [tree.top] := Tree.sound_parse l config source
  have htop := Tree.stands_parse l config source
  have hroot := Cursor.parent?_ofTree hsound
  refine ⟨tree, parse?_of_setLanguage hlanguage config source, htop.lt, hroot, fun j hj ↦ ⟨?_, ?_⟩,
    fun i hi hne ↦ ?_, ?_, ?_, fun c hc ↦ (htop.of_mem_descendants hc).descendants_eq,
    Tree.length_descendants hsound, fun c hc ↦ ⟨?_, ?_, ?_⟩⟩
  · intro hmem
    have hparent := (hsound.mem_children j hj _ htop.lt).mp hmem
    exact nomatch hparent.symm.trans ((hsound.mem_loose _).mp (List.mem_singleton_self _)).2
  · exact hsound.child_lt j hj
  · obtain ⟨above, habove⟩ : ∃ above, (tree.arena.entry i).parent = some above := by
      refine Option.ne_none_iff_exists'.mp fun hnone ↦ hne ?_
      exact List.mem_singleton.mp ((hsound.mem_loose i).mpr ⟨hi, hnone⟩)
    have hlt := hsound.parent_lt i hi above habove
    have hmem := (hsound.mem_children above hlt i hi).mpr habove
    refine ⟨above, hlt, hsound.child_lt above hlt i hmem, ?_, fun j hj ↦ ?_⟩
    · rw [Cursor.parent?, Cursor.entry, habove]
      rfl
    · rw [hsound.count_children hi hj, habove]
      simp only [Option.some.injEq, eq_comm]
  · rw [show Descendants.visit #[] tree.nodeCount ⟨tree, [tree.top]⟩ = _ from htop.visit_eq]
    rfl
  · rw [htop.descendants_eq_map, List.map_map]
    exact (List.map_id _).symm ▸ hsound.perm_order
  · exact (htop.of_mem_descendants hc).sound.length_fields c.id (htop.of_mem_descendants hc).lt
  · intro i child hi hextra
    have hstands := htop.of_mem_descendants hc
    have hmem : child.node ∈ c.node.children := by
      rw [← hstands.map_node_children]
      exact List.mem_map_of_mem (List.mem_of_getElem? (List.getElem?_map.trans hi))
    have hbelow := Node.mem_preorder_of_mem_children
      (Tree.mem_preorder_of_mem_descendants hsound hc) hmem
    rw [Cursor.fieldNameOfChild?_eq (hstands.fields_getElem? hi),
      Tree.roleless_parse l config source _ hbelow hextra]
    rfl
  · have hstands := htop.of_mem_descendants hc
    exact Cursor.childrenByField_eq (hstands.sound.length_fields c.id hstands.lt)

/-- A return type behind a comment. -/
theorem Parser.arena_of_parse_two_roles :
    Parser.setLanguage {} .cool = .ok { language := some .cool } ∧
      ∃ tree, (Parser.setConfig { language := some .cool } ⟨2, true⟩).parse?
          "class A { f() (**) : B; };" = some tree ∧
        ((Cursor.ofTree tree).descendants.map (·.id)).Perm (List.range tree.nodeCount) :=
  have hlanguage := setLanguage_cool {}
  have ⟨tree, hparse, _, _, _, _, _, hids, _⟩ :=
    arena_of_parse hlanguage ⟨2, true⟩ "class A { f() (**) : B; };"
  ⟨hlanguage, tree, hparse, hids⟩

end CoolTree
