import CoolTree.Proofs.Advance
import CoolTree.Proofs.Recognizer

/-!
# What becomes of a parse

As long as nothing is wrong, parsing and the recognizer go on together. The first problem stands
at the token that the recognizer refuses, and nothing that is parsed later reports one in front of
it. The exception is an expression that is nested too deeply, which needs as many tokens as there
are levels. Some of these expressions may be spared: then parsing and the recognizer go on together
behind them.
-/

namespace CoolTree

open Recognizer

def Input.kinds (i : Input) : List TokenKind :=
  i.items.map (·.token.kind)

/-- Inputs whose strings are terminated. Only the end of an input looks like one. -/
def Input.Plain (i : Input) : Prop :=
  ∀ item ∈ i.items, item.token.kind ≠ .ending ∧ ∀ parts, item.token.kind ≠ .string parts false

namespace Input

theorem kinds_of_current {i : Input} (h : i.current ≠ .ending) :
    i.kinds = i.current :: i.tail.kinds := by
  unfold current kinds at *
  cases hitems : i.items with
  | nil => simp [hitems] at h
  | cons item rest => simp [tail, hitems]

theorem current_tail (i : Input) : i.tail.current = i.upcoming := by
  unfold current upcoming
  rw [items_tail]
  rcases i.items with _ | ⟨item, _ | ⟨next, rest⟩⟩ <;> rfl

theorem refusal_congr_tail {i : Input} {a b a' b' : List Pending} (hi : i.current ≠ .ending)
    (ha : step a i.current = some a') (hb : step b i.current = some b')
    (h : refusal a' i.tail.kinds = refusal b' i.tail.kinds) :
    refusal a i.kinds = refusal b i.kinds := by
  rw [kinds_of_current hi, refusal_cons ha, refusal_cons hb, h]

namespace Plain

variable {i : Input}

theorem items_eq_nil (h : i.Plain) (hi : i.current = .ending) : i.items = [] := by
  unfold current at hi
  split at hi
  · rename_i item rest hitems
    exact ((h item (by simp [hitems])).1 hi).elim
  · assumption

theorem kinds_eq_nil (h : i.Plain) (hi : i.current = .ending) : i.kinds = [] := by
  rw [kinds, h.items_eq_nil hi, List.map_nil]

theorem current_ne_string (h : i.Plain) (parts : List BodyPart) :
    i.current ≠ .string parts false := by
  unfold current
  split
  · rename_i item rest hitems
    exact (h item (by simp [hitems])).2 parts
  · simp

theorem tail (h : i.Plain) : i.tail.Plain :=
  fun item hitem ↦ h item (List.mem_of_mem_tail hitem)

variable {a b : List Pending}

theorem refusal_congr (h : i.Plain)
    (hend : i.current = .ending → a.all Pending.isNullable = b.all Pending.isNullable)
    (hstep : i.current ≠ .ending → step a i.current = step b i.current) :
    refusal a i.kinds = refusal b i.kinds := by
  by_cases hi : i.current = .ending
  · rw [h.kinds_eq_nil hi, refusal, refusal, hend hi]
  · rw [kinds_of_current hi, refusal, refusal, hstep hi]

/-- A symbol that may be empty gives way if the next token does not start it. -/
theorem refusal_of_isNullable (h : i.Plain) {x : Pending} (hx : x.isNullable = true)
    (hafter : x.after? i.current = none) (rest : List Pending) :
    refusal (x :: rest) i.kinds = refusal rest i.kinds :=
  h.refusal_congr (fun _ ↦ by simp [hx]) fun _ ↦ step_of_isNullable hafter hx rest

theorem refusal_eq_zero (h : i.Plain) {x : Pending} (hx : x.isNullable = false)
    (hafter : x.after? i.current = none) (rest : List Pending) :
    refusal (x :: rest) i.kinds = some 0 := by
  by_cases hi : i.current = .ending
  · rw [h.kinds_eq_nil hi, refusal]
    simp [hx]
  · rw [kinds_of_current hi, refusal_of_step_eq_none (step_eq_none hafter hx rest)]

end Plain

end Input

/-- The items of a source, and of the expressions in it that are nested too deeply those whose
problems do not count, and what the problems with the others are like. -/
structure Leeway where
  items : List Item
  spares : SyntaxError → Prop
  severe : SyntaxError → Prop
  tooDeep_of_spares : ∀ e, spares e → e.problem = .tooDeep

theorem Leeway.not_spares (w : Leeway) {e : SyntaxError} (h : e.problem ≠ .tooDeep) :
    ¬w.spares e :=
  fun hspares ↦ h (w.tooDeep_of_spares e hspares)

/-- Every problem counts. -/
def Leeway.none (items : List Item) : Leeway :=
  ⟨items, fun _ ↦ False, fun _ ↦ True, fun _ h ↦ h.elim⟩

namespace State

/-- Whether no problem of a state counts. -/
def Clean (w : Leeway) (s : State) : Prop :=
  ∀ e ∈ s.errors, w.spares e

theorem clean_none {items : List Item} {s : State} :
    s.Clean (.none items) ↔ s.errors = [] :=
  List.eq_nil_iff_forall_not_mem.symm

/-- States that parsing comes to without a problem that counts. -/
structure Fine (w : Leeway) (s : State) : Prop where
  ordered : s.Ordered
  plain : s.input.Plain
  suffix : s.input.items <:+ w.items
  clean : s.Clean w

theorem Ordered.reached_lt_stop {s : State} (h : s.Ordered) :
    ∀ item ∈ s.input.items, s.reached.offset < item.token.stop.offset := fun item hitem ↦
  Nat.lt_of_le_of_lt (h.reached_le item hitem) (h.start_lt_stop item hitem)

theorem Ordered.start_lt_stop_of_cons {s : State} (h : s.Ordered) {first : Item} {rest : List Item}
    (hitems : s.input.items = first :: rest) :
    ∀ item ∈ s.input.items, first.token.start.offset < item.token.stop.offset := by
  intro item hitem
  have hfirst := h.start_lt_stop first (by simp [hitems])
  have hpair := h.pairwise
  rw [hitems] at hitem hpair
  rcases List.mem_cons.mp hitem with rfl | hmem
  · exact hfirst
  · have hle := (List.pairwise_cons.mp hpair).1 item hmem
    have hlt := h.start_lt_stop item (by simp [hitems, hmem])
    omega

theorem Advances.suffix {s t : State} (h : s.Advances t) : t.input.items <:+ s.input.items := by
  obtain ⟨taken, hitems, -⟩ := h
  exact ⟨taken, hitems.symm⟩

theorem Advances.fine {w : Leeway} {s t : State} (h : s.Advances t) (hs : s.Fine w)
    (ht : t.Clean w) : t.Fine w :=
  ⟨h.ordered hs.ordered, fun item hitem ↦ hs.plain item (h.mem_items hitem),
    h.suffix.trans hs.suffix, ht⟩

end State

/-- What becomes of a parse from one state to another while the recognizer goes from one stack to
another. Without a problem that counts so many tokens are taken at least, and the last token read
leaves one in front that is as expected. Nesting too deeply takes as many tokens as there are
levels, and the given ones besides; where the recognizer accepts all that is left, it is severe. -/
inductive Outcome (w : Leeway) (depth credit progress : Nat) (post : Input → Prop)
    (a b : List Pending) (s t : State) : Prop
  | fits (taken : List Item) (items : s.input.items = taken ++ t.input.items)
      (moved : progress ≤ taken.length) (clean : t.Clean w)
      (refusal : refusal a s.input.kinds = (refusal b t.input.kinds).map (· + taken.length))
      (next : post t.input)
  | broken (before behind : List Item) (items : s.input.items = before ++ behind)
      (refusal : refusal a s.input.kinds = some before.length)
      (passed : ∀ item ∈ before, item.token.stop.offset ≤ t.reached.offset ∧
        ∀ e ∈ t.errors, ¬w.spares e → item.token.stop.offset ≤ e.span.start.offset)
      (pinned : ∃ e ∈ t.errors, ¬w.spares e ∧
        ∀ item ∈ behind, e.span.start.offset < item.token.stop.offset)
  | deep (reported : ∃ e ∈ t.errors, e.problem = .tooDeep ∧
        (refusal a s.input.kinds = none → w.severe e))
      (bound : depth + credit ≤ s.input.items.length)

namespace Outcome

variable {w : Leeway} {depth credit progress : Nat} {post : Input → Prop} {a b c : List Pending}
  {s t u : State}

theorem refl (hs : s.Fine w) (h : refusal a s.input.kinds = refusal b s.input.kinds)
    (hpost : post s.input) : Outcome w depth credit 0 post a b s s :=
  .fits [] rfl (Nat.le_refl 0) hs.clean (by simp [h]) hpost

theorem of_step {item : Item} {rest : List Item} (hitems : s.input.items = item :: rest)
    (hinput : t.input = s.input.tail) (hclean : t.Clean w)
    (hstep : step a item.token.kind = some b) (hpost : post t.input) :
    Outcome w depth credit 1 post a b s t := by
  have hkinds : s.input.kinds = item.token.kind :: t.input.kinds := by
    simp [Input.kinds, hitems, hinput]
  refine .fits [item] (by simp [hitems, hinput]) (Nat.le_refl 1) hclean ?_ hpost
  rw [hkinds, refusal_cons hstep]
  rfl

theorem of_refusal (h : refusal a s.input.kinds = some 0)
    (hpinned : ∃ e ∈ t.errors, ¬w.spares e ∧
      ∀ item ∈ s.input.items, e.span.start.offset < item.token.stop.offset) :
    Outcome w depth credit progress post a b s t :=
  .broken [] s.input.items rfl h (by simp) hpinned

theorem congr_left (h : refusal a s.input.kinds = refusal b s.input.kinds)
    (hb : Outcome w depth credit progress post b c s t) :
    Outcome w depth credit progress post a c s t := by
  cases hb with
  | fits taken items moved clean refusal next =>
      exact .fits taken items moved clean (h.trans refusal) next
  | broken before behind items refusal passed pinned =>
      exact .broken before behind items (h.trans refusal) passed pinned
  | deep reported bound => exact .deep (by rwa [h]) bound

theorem mono {depth' credit' progress' : Nat} {post' : Input → Prop}
    (h : Outcome w depth credit progress post a b s t) (hprogress : progress' ≤ progress)
    (hcredit : depth' + credit' ≤ depth + credit) (hpost : ∀ i, post i → post' i) :
    Outcome w depth' credit' progress' post' a b s t := by
  cases h with
  | fits taken items moved clean refusal next =>
      exact .fits taken items (hprogress.trans moved) clean refusal (hpost _ next)
  | broken before behind items refusal passed pinned =>
      exact .broken before behind items refusal passed pinned
  | deep reported bound => exact .deep reported (hcredit.trans bound)

theorem enclose {d : Draft} (h : Outcome w depth credit progress post a b s d.state)
    (kind : Kind) :
    Outcome w depth credit progress post a b s (d.enclose kind false).state := by
  cases h with
  | fits taken items moved clean refusal next =>
      exact .fits taken items moved clean refusal next
  | broken before behind items refusal passed pinned =>
      exact .broken before behind items refusal passed pinned
  | deep reported bound => exact .deep reported bound

/-- Where a token should have been taken and none was, something is wrong already. -/
theorem of_not_size_lt {post' : Input → Prop} (h : Outcome w depth credit 1 post a b s t)
    (hsize : ¬t.input.size < s.input.size) : Outcome w depth credit progress post' a c s t := by
  cases h with
  | fits taken items moved clean refusal next =>
      have hlength := s.input.size_eq
      rw [items, List.length_append, ← t.input.size_eq] at hlength
      omega
  | broken before behind items refusal passed pinned =>
      exact .broken before behind items refusal passed pinned
  | deep reported bound => exact .deep reported bound

/-- What was wrong stays so, and it stays the first problem. -/
theorem broken_of_advances (hs : t.Ordered) (h : t.Advances u) {before behind : List Item}
    (items : s.input.items = before ++ behind)
    (refusal : refusal a s.input.kinds = some before.length)
    (passed : ∀ item ∈ before, item.token.stop.offset ≤ t.reached.offset ∧
      ∀ e ∈ t.errors, ¬w.spares e → item.token.stop.offset ≤ e.span.start.offset)
    (pinned : ∃ e ∈ t.errors, ¬w.spares e ∧
      ∀ item ∈ behind, e.span.start.offset < item.token.stop.offset) :
    Outcome w depth credit progress post a b s u := by
  have hle := h.reached_le hs
  obtain ⟨-, -, -, new, herrors, hnew⟩ := h
  obtain ⟨e, he, hpinned⟩ := pinned
  refine .broken before behind items refusal (fun item hitem ↦ ⟨?_, fun e' he' hcounts ↦ ?_⟩)
    ⟨e, herrors ▸ List.mem_append_right new he, hpinned⟩
  · exact (passed item hitem).1.trans hle
  · rw [herrors] at he'
    rcases List.mem_append.mp he' with he' | he'
    · exact (passed item hitem).1.trans (hnew hs e' he')
    · exact (passed item hitem).2 e' he' hcounts

/-- One parse after the other. -/
theorem bind {credit₁ credit₂ progress₁ progress₂ : Nat} {post₁ : Input → Prop}
    (hs : s.Ordered) (hst : s.Advances t) (htu : t.Advances u)
    (h : Outcome w depth credit₁ progress₁ post₁ a b s t)
    (hnext : t.Clean w → post₁ t.input → Outcome w depth credit₂ progress₂ post b c t u)
    (hcredit₁ : credit ≤ credit₁) (hcredit₂ : credit ≤ credit₂ + progress₁)
    (hprogress : progress ≤ progress₁ + progress₂) :
    Outcome w depth credit progress post a c s u := by
  -- The first part decides unless it fits. If it does, the second one starts without a problem, and
  -- what it finds is counted from the tokens that the first one has taken.
  have ht := hst.ordered hs
  cases h with
  | fits taken items moved clean href next =>
      have hlength : s.input.items.length = taken.length + t.input.items.length := by
        rw [items, List.length_append]
      cases hnext clean next with
      | fits taken' items' moved' clean' href' next' =>
          refine .fits (taken ++ taken') (by rw [items, items', List.append_assoc]) ?_ clean' ?_
            next'
          · rw [List.length_append]
            omega
          · rw [href, href', Option.map_map, List.length_append]
            congr 1
            funext n
            simp only [Function.comp_apply]
            omega
      | broken before behind items' href' passed pinned =>
          -- Problems of the second part stand behind what the first one has taken.
          have htaken : ∀ item ∈ taken, item.token.stop.offset ≤ t.reached.offset := by
            obtain ⟨taken', hitems', hreached, -⟩ := hst
            obtain rfl := List.append_cancel_right (items.symm.trans hitems')
            rw [hreached]
            exact (hs.behind items).2.1
          have hle := htu.reached_le ht
          obtain ⟨-, -, -, new, herrors, hnew⟩ := htu
          refine .broken (taken ++ before) behind (by rw [items, items', List.append_assoc]) ?_
            (fun item hitem ↦ ?_) pinned
          · rw [href, href', Option.map_some, List.length_append, Nat.add_comm]
          · rcases List.mem_append.mp hitem with hitem | hitem
            · refine ⟨(htaken item hitem).trans hle, fun e he hcounts ↦ ?_⟩
              rw [herrors] at he
              have hmem := (List.mem_append.mp he).resolve_right fun he ↦ hcounts (clean e he)
              exact (htaken item hitem).trans (hnew ht e hmem)
            · exact passed item hitem
      | deep reported bound =>
          obtain ⟨e, he, hproblem, hsevere⟩ := reported
          refine .deep ⟨e, he, hproblem, fun hnone ↦ hsevere ?_⟩ (by omega)
          exact Option.map_eq_none_iff.mp (href.symm.trans hnone)
  | broken before behind items href passed pinned =>
      exact broken_of_advances ht htu items href passed pinned
  | deep reported bound =>
      obtain ⟨-, -, -, new, herrors, -⟩ := htu
      obtain ⟨e, he, hproblem⟩ := reported
      refine .deep ⟨e, herrors ▸ List.mem_append_right new he, hproblem⟩ ?_
      omega

end Outcome

end CoolTree
