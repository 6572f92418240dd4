import CoolTree.Proofs.Arena
import CoolTree.Proofs.Drafting

/-!
# Builders do what drafts say

A workspace with a builder shows a draft when they are at the same place of the input with the same
problems, and the nodes of the draft are those that the arena has for the comments in front and for
the children, each in its role. Whatever is done to the builder and to the draft, the workspace goes
on to show the draft. All the while the arena is sound: the only nodes without a parent are the
children of the constructs that are open, and the comments that wait for the next token.
-/

namespace CoolTree

/-- The first child leaves the comments in front of it outside; in front of all others comments are
children without a role. -/
theorem Builder.push_cases {b : Builder} (hfields : b.fields.size = b.children.size)
    (field : Option Field) (p : Parcel) :
    (b.children.toList = [] ∧ (b.push field p).leading = b.leading ++ p.leading ∧
      (b.push field p).children.toList = [p.id] ∧ (b.push field p).fields.toList = [field]) ∨
    (b.children.toList ≠ [] ∧ (b.push field p).leading = b.leading ∧
      (b.push field p).children.toList = b.children.toList ++ p.leading ++ [p.id] ∧
      (b.push field p).fields.toList =
        b.fields.toList ++ List.replicate p.leading.length none ++ [field]) := by
  by_cases hempty : b.children = #[]
  · have hnone : b.fields = #[] := Array.eq_empty_of_size_eq_zero (by rw [hfields, hempty]; rfl)
    simp [push, hempty, hnone]
  · simp [push, hempty]

namespace Workspace

/-- What a workspace has made stays. -/
structure Grows (w w' : Workspace) : Prop where
  trailing : w'.trailing = w.trailing
  size_le : w.arena.size ≤ w'.arena.size
  node : ∀ i < w.arena.size, w'.arena.node i = w.arena.node i

namespace Grows

variable {w w' w'' : Workspace}

theorem refl (w : Workspace) : Grows w w :=
  ⟨rfl, Nat.le_refl _, fun _ _ ↦ rfl⟩

theorem trans (h : Grows w w') (h' : Grows w' w'') : Grows w w'' where
  trailing := h'.trailing.trans h.trailing
  size_le := Nat.le_trans h.size_le h'.size_le
  node i hi := (h'.node i (Nat.lt_of_lt_of_le hi h.size_le)).trans (h.node i hi)

end Grows

/-- A workspace has a builder for the nodes of a draft. Some other nodes have no parent either. -/
structure Shows (w : Workspace) (rest : List Nat) (b : Builder) (d : Draft) : Prop where
  input : w.input = d.state.input
  reached : w.reached = d.state.reached
  errors : w.errors = d.state.errors
  made : w.arena.size = d.state.made + w.pending.size
  pending : w.pending.toList.map w.arena.node = Node.ofComments w.comments
  sound : w.arena.Sound (rest ++ b.leading ++ b.children.toList ++ w.pending.toList)
  fields : b.fields.size = b.children.size
  leading : ∀ i ∈ b.leading, (w.arena.node i).isExtra = true
  head : ∀ i ∈ b.children.toList.head?, (w.arena.node i).isExtra = false
  nodes : d.nodes.toList =
    b.leading.map w.arena.node ++ w.arena.nodesIn b.children.toList b.fields.toList

/-- A result goes on from a workspace and shows a draft. -/
def Reaches (w : Workspace) (rest : List Nat) (r : Builder × Workspace) (d : Draft) : Prop :=
  w.Grows r.2 ∧ r.2.Shows rest r.1 d

end Workspace

/-- A builder for a finished node alone. -/
def Parcel.alone (p : Parcel) (role : Option Field) : Builder :=
  Builder.push {} role p

namespace Workspace

/-- A finished node and the comments in front of it go on from a workspace and show a draft. -/
def Yields (w : Workspace) (rest : List Nat) (r : Parcel × Workspace) (d : Draft) : Prop :=
  ∃ role, w.Reaches rest (r.1.alone role, r.2) d

variable {w : Workspace} {rest : List Nat} {b : Builder} {d : Draft}

theorem Reaches.of_grows {w' : Workspace} {r : Builder × Workspace} (hgrows : w.Grows w')
    (h : w'.Reaches rest r d) : w.Reaches rest r d :=
  ⟨hgrows.trans h.1, h.2⟩

theorem Yields.of_grows {w' : Workspace} {r : Parcel × Workspace} (hgrows : w.Grows w')
    (h : w'.Yields rest r d) : w.Yields rest r d :=
  h.imp fun _ hr ↦ hr.of_grows hgrows

/-- What goes on from a result goes on from where the result does. -/
theorem Reaches.bind {r r' : Builder × Workspace} {d' : Draft} (h : w.Reaches rest r d)
    (next : r.2.Shows rest r.1 d → r.2.Reaches rest r' d') : w.Reaches rest r' d' :=
  (next h.2).of_grows h.1

theorem Shows.reaches (h : w.Shows rest b d) : w.Reaches rest (b, w) d :=
  ⟨.refl w, h⟩

/-- What becomes of a workspace when some comments are queued. -/
structure Queued (w : Workspace) (cs : List Token) (w' : Workspace) : Prop where
  input : w'.input = w.input
  reached : w'.reached = w.reached
  errors : w'.errors = w.errors
  grows : w.Grows w'
  size : w'.arena.size = w.arena.size + cs.length
  pending : ∃ ids, w'.pending.toList = w.pending.toList ++ ids ∧
    ids.map w'.arena.node = Node.ofComments cs ∧
    ∀ loose, w.arena.Sound loose → w'.arena.Sound (loose ++ ids)

theorem queued_foldl (w : Workspace) (cs : List Token) : w.Queued cs (cs.foldl queue w) := by
  induction cs generalizing w with
  | nil => exact ⟨rfl, rfl, rfl, .refl w, rfl, [], by simp [Node.ofComments]⟩
  | cons c cs ih =>
      obtain ⟨hinput, hreached, herrors, hgrows, hsize, ids, hpending, hids, hsound⟩ :=
        ih (w.queue c)
      have hstep : w.Grows (w.queue c) :=
        ⟨rfl, by simp [queue], fun i hi ↦ w.arena.node_push_of_lt _ hi⟩
      refine ⟨hinput, hreached, herrors, hstep.trans hgrows, ?_, w.arena.size :: ids, ?_, ?_, ?_⟩
      · rw [List.foldl_cons, hsize]
        simp [queue, Nat.add_comm 1, Nat.add_assoc]
      · rw [List.foldl_cons, hpending]
        simp [queue]
      · have hnode : (cs.foldl queue (w.queue c)).arena.node w.arena.size = Node.ofComment c := by
          rw [hgrows.node _ (by simp [queue])]
          exact w.arena.node_push_size _
        rw [List.foldl_cons, List.map_cons, hnode, hids, Node.ofComments]
      · intro loose h
        simpa using hsound _ (h.push (e := _) rfl rfl rfl)

theorem queued_fetch (w : Workspace) : w.Queued w.comments w.fetch :=
  w.queued_foldl w.comments

namespace Shows

variable {item : Item} {items : List Item}

/-- Another construct begins in the middle of one. -/
theorem blank (h : w.Shows rest b d) :
    w.Shows (rest ++ b.leading ++ b.children.toList) {} (.blank d.state) where
  input := h.input
  reached := h.reached
  errors := h.errors
  made := h.made
  pending := h.pending
  sound := by simpa using h.sound
  fields := rfl
  leading := by simp
  head := by simp
  nodes := rfl

theorem lt_size (h : w.Shows rest b d) {i : Nat} (hi : i ∈ b.leading ++ b.children.toList) :
    i < w.arena.size := by
  refine ((h.sound.mem_loose i).mp ?_).1
  simp only [List.mem_append] at hi ⊢
  tauto

/-- The nodes of a construct that is left as it is stay the same. -/
theorem nodes_of_grows (h : w.Shows rest b d) {w' : Workspace} (hgrows : w.Grows w') :
    d.nodes.toList =
      b.leading.map w'.arena.node ++ w'.arena.nodesIn b.children.toList b.fields.toList := by
  have hnode : ∀ i ∈ b.leading ++ b.children.toList, w'.arena.node i = w.arena.node i :=
    fun i hi ↦ hgrows.node i (h.lt_size hi)
  rw [h.nodes, Arena.nodesIn_congr fun i hi ↦ hnode i (List.mem_append_right _ hi),
    List.map_congr_left fun i hi ↦ hnode i (List.mem_append_left _ hi)]

theorem isExtra_of_grows (h : w.Shows rest b d) {w' : Workspace} (hgrows : w.Grows w') :
    ∀ i ∈ b.leading, (w'.arena.node i).isExtra = true := by
  intro i hi
  rw [hgrows.node i (h.lt_size (List.mem_append_left _ hi))]
  exact h.leading i hi

/-- A finished node is put into another role, and the comments in front of it into none. -/
theorem map_assign {p : Parcel} {role : Option Field} (h : w.Shows rest (p.alone role) d)
    (field : Option Field) : d.nodes.toList.map (Node.assign field) =
      p.leading.map w.arena.node ++ [(w.arena.node p.id).inRole field] := by
  have hcomments : (p.leading.map w.arena.node).map (Node.assign field) =
      p.leading.map w.arena.node := by
    rw [List.map_map]
    refine List.map_congr_left fun i hi ↦ Node.assign_of_isExtra (h.leading i ?_)
    simpa [Parcel.alone, Builder.push] using hi
  have hnodes : d.nodes.toList =
      p.leading.map w.arena.node ++ [(w.arena.node p.id).inRole role] := h.nodes
  rw [hnodes, List.map_append, hcomments]
  exact congrArg (_ ++ [·]) (Node.assign_inRole (h.head p.id rfl) role field)

/-- A finished node is added to a construct that was left as it is. -/
theorem push (h : w.Shows rest b d) {p : Parcel} {w' : Workspace} {inner : Draft}
    (hr : w.Yields (rest ++ b.leading ++ b.children.toList) (p, w') inner) (field : Option Field) :
    w.Reaches rest (b.push field p, w') (d.attach field inner) := by
  obtain ⟨role, hgrows, hinner⟩ := hr
  have hleading : ∀ i ∈ p.leading, (w'.arena.node i).isExtra = true :=
    fun i hi ↦ hinner.leading i (by simpa [Parcel.alone, Builder.push] using hi)
  have hlt : ∀ i ∈ p.leading, i < w'.arena.size :=
    fun i hi ↦ hinner.lt_size (by simp [Parcel.alone, Builder.push, hi])
  have hid : (w'.arena.node p.id).isExtra = false := hinner.head p.id rfl
  have hnodes : (d.attach field inner).nodes.toList =
      b.leading.map w'.arena.node ++ w'.arena.nodesIn b.children.toList b.fields.toList ++
        (p.leading.map w'.arena.node ++ [(w'.arena.node p.id).inRole field]) := by
    rw [Draft.toList_nodes_attach, h.nodes_of_grows hgrows, hinner.map_assign field]
  have hsound : w'.arena.Sound (rest ++ b.leading ++ b.children.toList ++ (p.leading ++ [p.id]) ++
      w'.pending.toList) := by
    simpa [Parcel.alone, Builder.push] using hinner.sound
  have hlength : b.children.toList.length = b.fields.toList.length := by simp [h.fields]
  have hkept := h.isExtra_of_grows hgrows
  obtain ⟨hnil, hl, hc, hf⟩ | ⟨hne, hl, hc, hf⟩ := Builder.push_cases h.fields field p
  · rw [hnil] at hnodes hsound
    refine ⟨hgrows, {
      input := hinner.input
      reached := hinner.reached
      errors := hinner.errors
      made := hinner.made
      pending := hinner.pending
      sound := ?sound
      fields := ?fields
      leading := ?leading
      head := ?head
      nodes := ?nodes }⟩
    case sound => simpa [hl, hc] using hsound
    case fields =>
      rw [← Array.length_toList, hf, ← Array.length_toList, hc]
      rfl
    case leading =>
      rw [hl]
      exact List.forall_mem_append.mpr ⟨hkept, hleading⟩
    case head => simpa [hc] using hid
    case nodes =>
      rw [hnodes, hl, hc, hf]
      simp
  · refine ⟨hgrows, {
      input := hinner.input
      reached := hinner.reached
      errors := hinner.errors
      made := hinner.made
      pending := hinner.pending
      sound := ?sound
      fields := ?fields
      leading := ?leading
      head := ?head
      nodes := ?nodes }⟩
    case sound => simpa [hl, hc] using hsound
    case fields =>
      rw [← Array.length_toList, hf, ← Array.length_toList, hc]
      simp [h.fields]
    case leading => rwa [hl]
    case head =>
      intro i hi
      rw [hc, List.append_assoc, List.head?_append_of_ne_nil _ hne] at hi
      rw [hgrows.node i (h.lt_size (List.mem_append_right _ (List.mem_of_head? hi)))]
      exact h.head i hi
    case nodes =>
      rw [hnodes, hl, hc, hf, Arena.nodesIn_append _ (by simp [h.fields]),
        Arena.nodesIn_append _ hlength, Arena.nodesIn_replicate _ hlt]
      simp

theorem length_pending (h : w.Shows rest b d) : w.pending.size = w.comments.length := by
  have hlength := congrArg List.length h.pending
  rwa [List.length_map, Array.length_toList, Node.length_ofComments] at hlength

/-- Comments that wait stay as they are when the arena grows. -/
theorem pending_of_grows (h : w.Shows rest b d) {w' : Workspace} (hgrows : w.Grows w') :
    w.pending.toList.map w'.arena.node = Node.ofComments w.comments := by
  rw [← h.pending]
  refine List.map_congr_left fun i hi ↦ hgrows.node i ((h.sound.mem_loose i).mp ?_).1
  exact List.mem_append_right _ hi

/-- The comments in front of a token are taken from those that wait, and those behind it wait. -/
theorem consume {s : State} (h : w.Shows rest {} (.blank s))
    (hitems : s.input.items = item :: items) :
    w.Reaches rest ({ leading := w.pending.toList }, (w.pass item.token).fetch)
      (((Draft.blank s).addComments item.comments).pass item.token) := by
  have hcomments : w.comments = item.comments := by
    rw [comments, h.input, Draft.state_blank, hitems]
  obtain ⟨hinput, hreached, herrors, hgrown, hsize, ids, hpending, hids, hsound⟩ :=
    (w.pass item.token).queued_fetch
  have hgrows : w.Grows (w.pass item.token).fetch := ⟨hgrown.trailing, hgrown.size_le, hgrown.node⟩
  have hnodes := hcomments ▸ h.pending_of_grows hgrows
  have hwaiting : (w.pass item.token).fetch.pending.toList = ids := hpending
  have hnext : (w.pass item.token).fetch.comments = (w.pass item.token).comments := by
    rw [comments, comments, hinput, hgrown.trailing]
  have hqueue : w.arena.size = s.made + item.comments.length := by
    rw [h.made, h.length_pending, hcomments, Draft.state_blank]
  refine ⟨hgrows, {
    input := hinput.trans (by simp [pass, Draft.pass, h.input])
    reached := hreached
    errors := herrors.trans (by simp [pass, Draft.pass, h.errors])
    made := ?made
    pending := ?pending
    sound := ?sound
    fields := rfl
    leading := ?leading
    head := by simp
    nodes := by simp [Draft.pass, hnodes] }⟩
  case made =>
    have hlength := congrArg List.length hids
    rw [List.length_map, Node.length_ofComments, ← hwaiting, Array.length_toList] at hlength
    refine hsize.trans ?_
    rw [← hlength]
    simp [pass, Draft.pass, hqueue]
  case pending =>
    rw [hwaiting, hnext]
    exact hids
  case sound =>
    rw [hwaiting]
    exact (hsound _ h.sound).perm (.of_eq (by simp))
  case leading =>
    intro i hi
    refine Node.isExtra_of_mem_ofComments (?_ : _ ∈ Node.ofComments item.comments)
    rw [← hnodes]
    exact List.mem_map_of_mem hi

/-- A node without children is made. -/
theorem alloc {s : State} (h : w.Shows rest {} (.blank s)) {e : Entry} (hchildren : e.children = [])
    (hfields : e.fields = []) (hparent : e.parent = none) (hextra : e.extra = false) :
    w.Yields rest (⟨w.arena.size, []⟩, { w with arena := w.arena.push e })
      ((Draft.blank s).add ⟨e.kind, e.span, none, false, e.missing, e.faulty⟩) := by
  have hgrows : w.Grows { w with arena := w.arena.push e } :=
    ⟨rfl, by simp, fun i hi ↦ w.arena.node_push_of_lt e hi⟩
  have hnode : Arena.node (w.arena.push e) w.arena.size =
      .mk ⟨e.kind, e.span, none, false, e.missing, e.faulty⟩ [] := by
    rw [Arena.node_push_size, Entry.node, hchildren, hextra]
    rfl
  refine ⟨none, hgrows, {
    input := h.input
    reached := h.reached
    errors := h.errors
    made := by simp [h.made, Draft.add, Nat.add_right_comm]
    pending := h.pending_of_grows hgrows
    sound := ?sound
    fields := rfl
    leading := by simp [Parcel.alone, Builder.push]
    head := by simp [Parcel.alone, Builder.push, hnode, Node.isExtra]
    nodes := by simp [Parcel.alone, Builder.push, hnode, Draft.add, Node.inRole] }⟩
  refine (h.sound.push hchildren hfields hparent).perm ?_
  simpa [Parcel.alone, Builder.push] using
    (List.perm_append_singleton w.arena.size w.pending.toList).append_left rest

theorem report (h : w.Shows rest b d) (problem : Problem) (span : Span) :
    w.Reaches rest (b, { w with errors := ⟨problem, span⟩ :: w.errors }) (d.report problem span) :=
  ⟨⟨rfl, Nat.le_refl _, fun _ _ ↦ rfl⟩, { h with errors := congrArg _ h.errors }⟩

theorem length_fields (h : w.Shows rest b d) :
    b.children.toList.length = b.fields.toList.length := by
  simp [h.fields]

/-- The comments at the front of a draft are those in front of the first child. -/
theorem split_nodes (h : w.Shows rest b d) :
    d.nodes.toList.takeWhile Node.isExtra = b.leading.map w.arena.node ∧
      d.nodes.toList.dropWhile Node.isExtra =
        w.arena.nodesIn b.children.toList b.fields.toList := by
  have hleading : ∀ n ∈ b.leading.map w.arena.node, n.isExtra = true := by
    simpa using h.leading
  have hchildren : ∀ n ∈ (w.arena.nodesIn b.children.toList b.fields.toList).head?,
      n.isExtra = false := by
    have hhead := h.head
    cases hids : b.children.toList with
    | nil => simp
    | cons id ids =>
        obtain ⟨field, fields, hfields⟩ :=
          List.exists_cons_of_length_eq_add_one (hids ▸ h.length_fields).symm
        rw [hids] at hhead
        rw [hfields]
        simpa [Node.isExtra] using hhead
  rw [h.nodes, List.takeWhile_append_of_pos hleading, List.dropWhile_append_of_pos hleading]
  cases hnodes : w.arena.nodesIn b.children.toList b.fields.toList with
  | nil => simp
  | cons n ns =>
      rw [hnodes] at hchildren
      simp [hchildren n rfl]

/-- A builder spans what the nodes of its children span. -/
theorem span_eq (h : w.Shows rest b d) : b.span w =
    Span.over d.state.reached (w.arena.nodesIn b.children.toList b.fields.toList) := by
  have hspan : ∀ i ∈ b.children.toList, (w.arena.node i).span = (w.arena.entry i).span :=
    fun i hi ↦ w.arena.span_node (h.lt_size (List.mem_append_right _ hi))
  rw [Span.over_eq_getD, Arena.map_nodesIn _ (fun _ _ ↦ rfl) h.length_fields,
    List.map_congr_left hspan,
    List.head?_map, List.getLast?_map, List.head?_eq_getElem?, Array.getElem?_toList,
    Array.getLast?_toList, Builder.span, ← h.reached]
  cases b.children[0]? <;> cases b.children.back? <;> rfl

/-- The children of a construct get a parent, which stands for them from then on. -/
theorem finish (h : w.Shows rest b d) (kind : Kind) (faulty : Bool) :
    w.Yields rest (b.finish kind faulty w) (d.enclose kind faulty) := by
  let ids := b.children.toList
  let e : Entry :=
    { kind := kind
      span := b.span w
      children := ids
      fields := b.fields.toList
      faulty := faulty || ids.any fun id ↦ (w.arena.entry id).faulty }
  let arena : Arena := (w.arena.adopt w.arena.size ids).push e
  have heq : b.finish kind faulty w = (⟨w.arena.size, b.leading⟩, { w with arena := arena }) := rfl
  have hgrows : w.Grows { w with arena := arena } :=
    ⟨rfl, by simp [arena], fun i hi ↦ w.arena.node_push_adopt_of_lt e ids hi⟩
  have hlt : ∀ i ∈ ids, i < w.arena.size := fun i hi ↦ h.lt_size (List.mem_append_right _ hi)
  have hfaulty : ids.any (fun id ↦ (w.arena.entry id).faulty) =
      (w.arena.nodesIn ids b.fields.toList).any Node.isFaulty :=
    w.arena.any_isFaulty_nodesIn hlt h.length_fields
  have hnode : arena.node w.arena.size = d.enclosure kind faulty := by
    rw [Draft.enclosure, h.split_nodes.2, ← hfaulty, ← h.span_eq]
    exact w.arena.node_push_adopt e ids
  have hsound : w.arena.Sound (ids ++ (rest ++ b.leading ++ w.pending.toList)) :=
    h.sound.perm (List.perm_iff_count.mpr fun x ↦ by simp [ids, List.count_append]; omega)
  rw [heq]
  refine ⟨none, hgrows, {
    input := h.input
    reached := h.reached
    errors := h.errors
    made := by simp [h.made, arena, Nat.add_right_comm]
    pending := h.pending_of_grows hgrows
    sound := ?sound
    fields := rfl
    leading := by simpa [Parcel.alone, Builder.push] using h.isExtra_of_grows hgrows
    head := by simp [Parcel.alone, Builder.push, hnode, Draft.enclosure, Node.isExtra]
    nodes := ?nodes }⟩
  case sound =>
    refine (hsound.adopt (e := e) rfl h.length_fields.symm rfl).perm ?_
    simpa [Parcel.alone, Builder.push] using
      ((List.perm_append_singleton w.arena.size w.pending.toList).append_left b.leading).append_left
        rest
  case nodes =>
    have hleading : b.leading.map arena.node = b.leading.map w.arena.node :=
      List.map_congr_left fun i hi ↦ hgrows.node i (h.lt_size (List.mem_append_left _ hi))
    rw [Draft.toList_nodes_enclose, h.split_nodes.1, ← hleading]
    simp [Parcel.alone, Builder.push, hnode]
    rfl

end Shows

theorem Reaches.finish {r : Builder × Workspace} (h : w.Reaches rest r d) (kind : Kind)
    (faulty : Bool) : w.Yields rest (r.1.finish kind faulty r.2) (d.enclose kind faulty) :=
  (h.2.finish kind faulty).of_grows h.1

end Workspace

end CoolTree
