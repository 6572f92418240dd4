import CoolTree.Proofs.Advance
import CoolTree.Proofs.Balance
import Mathlib.Algebra.BigOperators.Group.List.Basic
import Mathlib.Algebra.Ring.Int.Defs

/-!
# How far an expression is swallowed

An expression that is nested too deeply is swallowed up to a token that closes or separates
something outside brackets. Inside an expression such tokens belong to a control word outside
brackets. So an expression is swallowed as a whole if no control word in it is exposed; and what is
swallowed of it otherwise opens more control expressions than it closes.
-/

namespace CoolTree

/-- The words that open a control expression. -/
def TokenKind.isControl : TokenKind → Bool
  | .terminal .ifWord | .terminal .whileWord | .terminal .letWord | .terminal .caseWord => true
  | _ => false

def Terminal.isClosingBracket : Terminal → Bool
  | rightParen | rightBrace => true
  | _ => false

namespace Sentence

/-- Number of open brackets behind a token. -/
def bracketsBehind (opened : Nat) : TokenKind → Nat
  | .terminal .leftParen | .terminal .leftBrace => opened + 1
  | .terminal .rightParen | .terminal .rightBrace => opened - 1
  | _ => opened

/-- Number of control words outside round and curly brackets. -/
def exposed (opened : Nat) : List TokenKind → Nat
  | [] => 0
  | k :: w => (if opened = 0 ∧ k.isControl then 1 else 0) + exposed (bracketsBehind opened k) w

/-- Number of tokens in front of the first one that closes or separates something outside round and
curly brackets. -/
def swallowed (opened : Nat) : List TokenKind → Nat
  | [] => 0
  | k :: w =>
    if opened = 0 ∧ k.isSynchronizing then 0 else swallowed (bracketsBehind opened k) w + 1

/-- What is swallowed of a text. -/
def lead (opened : Nat) (w : List TokenKind) : List TokenKind :=
  w.take (swallowed opened w)

/-- How many control expressions a token opens more than it closes. -/
def controlChange : TokenKind → Int
  | .terminal .ifWord | .terminal .whileWord | .terminal .letWord | .terminal .caseWord => 1
  | .terminal .fiWord | .terminal .poolWord | .terminal .inWord | .terminal .esacWord => -1
  | _ => 0

theorem overrun_eq (opened : Nat) (items : List Item) :
    overrun opened items = swallowed opened (items.map (·.token.kind)) := by
  have hbehind (k : TokenKind) (hparen : k ≠ .terminal .leftParen)
      (hbrace : k ≠ .terminal .leftBrace) : bracketsBehind 0 k = 0 := by
    unfold bracketsBehind
    split <;> simp_all
  fun_induction overrun opened items with
  | case1 => rfl
  | case2 opened item rest hk ih | case3 opened item rest hk ih =>
      rw [List.map_cons, swallowed, hk, if_neg (by simp [TokenKind.isSynchronizing]), ih]
      rfl
  | case4 item rest _ _ hstop => simp [swallowed, hstop]
  | case5 item rest hparen hbrace hstop ih =>
      rw [List.map_cons, swallowed, if_neg (by simp [hstop]), hbehind _ hparen hbrace, ih]
  | case6 opened item rest _ hk _ ih | case7 opened item rest _ hk _ ih =>
      simp_all [swallowed, bracketsBehind]
  | case8 => simp_all [swallowed, bracketsBehind]

/-- Closing brackets in a stack of closers. -/
def brackets (stack : List Terminal) : Nat :=
  stack.countP Terminal.isClosingBracket

/-- Closers of control expressions in a stack of closers. -/
def controls (stack : List Terminal) : Nat :=
  stack.countP fun t ↦ !t.isClosingBracket

theorem brackets_cons (t : Terminal) (stack : List Terminal) :
    brackets (t :: stack) = brackets stack + if t.isClosingBracket then 1 else 0 :=
  List.countP_cons

theorem controls_cons (t : Terminal) (stack : List Terminal) :
    controls (t :: stack) = controls stack + if t.isClosingBracket then 0 else 1 := by
  rw [controls, List.countP_cons]
  cases t.isClosingBracket <;> rfl

/-- Tokens that open what a closer closes. -/
structure Opens (k : TokenKind) (closer : Terminal) : Prop where
  behind : ∀ opened, bracketsBehind opened k = opened + if closer.isClosingBracket then 1 else 0
  change : controlChange k = if closer.isClosingBracket then 0 else 1
  isControl : k.isControl = !closer.isClosingBracket
  not_synchronizing : k.isSynchronizing = false

theorem opens_of_closer? {t closer : Terminal} (h : t.closer? = some closer) :
    Opens (.terminal t) closer := by
  cases t <;> cases h <;> constructor <;> first | exact fun _ ↦ rfl | rfl

structure Closes (k : TokenKind) (t : Terminal) : Prop where
  behind : ∀ opened, bracketsBehind opened k = opened - if t.isClosingBracket then 1 else 0
  change : controlChange k = if t.isClosingBracket then 0 else -1
  not_isControl : k.isControl = false
  synchronizing : k.isSynchronizing = true

theorem closes_of_isCloser {t : Terminal} (h : t.isCloser = true) : Closes (.terminal t) t := by
  cases t <;> cases h <;> constructor <;> first | exact fun _ ↦ rfl | rfl

/-- Tokens that open and close nothing. -/
structure Neutral (k : TokenKind) : Prop where
  behind : ∀ opened, bracketsBehind opened k = opened
  change : controlChange k = 0
  not_isControl : k.isControl = false

/-- The ways in which a token changes the closers that are to come. -/
theorem close_cases {stack next : List Terminal} {k : TokenKind} (h : close stack k = some next) :
    (∃ closer, Opens k closer ∧ next = closer :: stack) ∨
      (∃ t, Closes k t ∧ stack = t :: next) ∨ Neutral k ∧ next = stack := by
  unfold close at h
  split at h
  · rename_i t
    split at h
    · cases h
      exact .inl ⟨_, opens_of_closer? ‹_›, rfl⟩
    · rename_i hcloser
      split at h
      · rename_i hclose
        split at h
        · rename_i hhead
          cases h
          obtain ⟨rest, rfl⟩ := List.head?_eq_some_iff.mp hhead
          exact .inr (.inl ⟨t, closes_of_isCloser hclose, rfl⟩)
        · cases h
      · cases h
        refine .inr (.inr ⟨?_, rfl⟩)
        constructor <;> cases t <;> simp_all [Terminal.closer?, Terminal.isCloser, bracketsBehind,
          controlChange, TokenKind.isControl]
  · rename_i hterminal
    cases h
    refine .inr (.inr ⟨?_, rfl⟩)
    constructor <;> cases k <;> simp_all [bracketsBehind, controlChange, TokenKind.isControl]

/-- The brackets that are open follow the closers that are to come. -/
theorem bracketsBehind_of_close {stack next : List Terminal} {k : TokenKind}
    (h : close stack k = some next) (opened : Nat) :
    bracketsBehind (opened + brackets stack) k = opened + brackets next := by
  obtain ⟨closer, hk, rfl⟩ | ⟨t, hk, rfl⟩ | ⟨hk, rfl⟩ := close_cases h
  · rw [hk.behind, brackets_cons, Nat.add_assoc]
  · rw [hk.behind, brackets_cons]
    omega
  · exact hk.behind _

theorem controls_of_closeAll {stack next : List Terminal} {w : List TokenKind}
    (h : closeAll stack w = some next) :
    (w.map controlChange).sum + controls stack = controls next := by
  induction w generalizing stack with
  | nil =>
      cases h
      simp
  | cons k w ih =>
      obtain ⟨middle, hk, hw⟩ := Option.bind_eq_some_iff.mp h
      have hrest := ih hw
      have hstep : controlChange k + controls stack = controls middle := by
        obtain ⟨closer, hchange, rfl⟩ | ⟨t, hchange, rfl⟩ | ⟨hchange, rfl⟩ := close_cases hk
        · rw [hchange.change, controls_cons]
          split <;> simp [Int.add_comm]
        · rw [hchange.change, controls_cons]
          split <;> simp
        · rw [hchange.change, Int.zero_add]
      rw [List.map_cons, List.sum_cons]
      omega

variable {w : List TokenKind}

theorem exposed_append_of_closeAll {stack next : List Terminal} (h : closeAll stack w = some next)
    (opened : Nat) (v : List TokenKind) :
    exposed (opened + brackets stack) (w ++ v) =
      exposed (opened + brackets stack) w + exposed (opened + brackets next) v := by
  induction w generalizing stack with
  | nil =>
      cases h
      simp [exposed]
  | cons k w ih =>
      obtain ⟨middle, hk, hw⟩ := Option.bind_eq_some_iff.mp h
      rw [List.cons_append, exposed, exposed, bracketsBehind_of_close hk, ih hw, Nat.add_assoc]

/-- Inside brackets nothing is exposed, and everything is swallowed. -/
theorem inside_of_closeAll {stack next : List Terminal} (h : closeAll stack w = some next)
    (opened : Nat) (v : List TokenKind) :
    exposed (opened + 1 + brackets stack) w = 0 ∧
      swallowed (opened + 1 + brackets stack) (w ++ v) =
        w.length + swallowed (opened + 1 + brackets next) v := by
  induction w generalizing stack with
  | nil =>
      cases h
      simp [exposed]
  | cons k w ih =>
      obtain ⟨middle, hk, hw⟩ := Option.bind_eq_some_iff.mp h
      obtain ⟨hexposed, hswallowed⟩ := ih hw
      have hne : opened + 1 + brackets stack ≠ 0 := by omega
      rw [exposed, List.cons_append, swallowed, bracketsBehind_of_close hk, hexposed, hswallowed,
        if_neg (fun h ↦ hne h.1), if_neg (fun h ↦ hne h.1), List.length_cons]
      omega

theorem Balanced.exposed_append (h : Balanced w) (opened : Nat) (v : List TokenKind) :
    exposed opened (w ++ v) = exposed opened w + exposed opened v :=
  exposed_append_of_closeAll (h.closeAll_eq []) opened v

theorem Balanced.inside (h : Balanced w) (v : List TokenKind) :
    swallowed 1 (w ++ v) = w.length + swallowed 1 v :=
  (inside_of_closeAll (h.closeAll_eq []) 0 v).2

theorem lead_append {opened opened' : Nat} {v : List TokenKind}
    (h : swallowed opened (v ++ w) = v.length + swallowed opened' w) :
    lead opened (v ++ w) = v ++ lead opened' w := by
  rw [lead, h, List.take_length_add_append, lead]

theorem Balanced.lead_append (h : Balanced w) (v : List TokenKind) :
    lead 1 (w ++ v) = w ++ lead 1 v :=
  Sentence.lead_append (h.inside v)

theorem lead_cons {opened : Nat} {k : TokenKind} (hk : ¬(opened = 0 ∧ k.isSynchronizing = true)) :
    lead opened (k :: w) = k :: lead (bracketsBehind opened k) w := by
  rw [lead, swallowed, if_neg hk, List.take_succ_cons, lead]

/-- Words that are swallowed as a whole, whatever stands behind them, unless a control word in what
is swallowed is exposed. -/
def Contained (w : List TokenKind) : Prop :=
  ∀ v, exposed 0 (lead 0 (w ++ v)) = 0 → swallowed 0 (w ++ v) = w.length + swallowed 0 v

namespace Contained

variable {v : List TokenKind}

theorem nil : Contained [] :=
  fun _ _ ↦ by simp

theorem append (hbalanced : Balanced v) (hv : Contained v) (hw : Contained w) :
    Contained (v ++ w) := by
  intro u h
  rw [List.append_assoc] at h ⊢
  have hfirst := hv _ h
  rw [Sentence.lead_append hfirst, hbalanced.exposed_append] at h
  rw [hfirst, hw u (by omega), List.length_append, Nat.add_assoc]

theorem cons {k : TokenKind} (hk : k.isSynchronizing = false) (hbehind : bracketsBehind 0 k = 0)
    (hw : Contained w) : Contained (k :: w) := by
  intro u h
  rw [List.cons_append] at h ⊢
  rw [lead_cons (by simp [hk]), exposed, hbehind] at h
  rw [swallowed, if_neg (by simp [hk]), hbehind, hw u (by omega), List.length_cons]
  omega

theorem bracketed {t closer : Terminal} (ht : t.closer? = some closer)
    (hbracket : closer.isClosingBracket = true) (hv : Balanced v) (hw : Contained w) :
    Contained (.terminal t :: (v ++ .terminal closer :: w)) := by
  intro u h
  have hopen := opens_of_closer? ht
  have hcloser : closer.isCloser = true := by cases closer <;> first | rfl | cases hbracket
  have hclose := closes_of_isCloser hcloser
  have hbehind : bracketsBehind 0 (.terminal t) = 1 := by rw [hopen.behind, hbracket]; rfl
  have hbehind' : bracketsBehind 1 (.terminal closer) = 0 := by rw [hclose.behind, hbracket]; rfl
  rw [List.cons_append, List.append_assoc, List.cons_append] at h ⊢
  rw [lead_cons (by simp [hopen.not_synchronizing]), hbehind, hv.lead_append,
    lead_cons (by simp), hbehind', exposed, hbehind, hv.exposed_append, exposed, hbehind'] at h
  rw [swallowed, if_neg (by simp [hopen.not_synchronizing]), hbehind, hv.inside, swallowed,
    if_neg (by simp), hbehind', hw u (by omega), List.length_cons, List.length_append,
    List.length_cons]
  omega

theorem of_isControl {k : TokenKind} (hk : k.isControl = true)
    (hsynchronizing : k.isSynchronizing = false) : Contained (k :: w) := by
  intro u h
  rw [List.cons_append, lead_cons (by simp [hsynchronizing]), exposed, if_pos ⟨rfl, hk⟩] at h
  omega

theorem call {k : TokenKind} {as : List (List TokenKind)} (hk : k.isIdentifier = true)
    (has : ∀ a ∈ as, Expression a) : Contained (call k as) := by
  have hname : k.isSynchronizing = false ∧ bracketsBehind 0 k = 0 := by
    cases k <;> first | exact ⟨rfl, rfl⟩ | cases hk
  exact .cons hname.1 hname.2 <| .bracketed (t := .leftParen) rfl rfl
    (balanced_separated ⟨rfl, rfl⟩ fun a ha ↦ (has a ha).balanced) .nil

end Contained

/-- An expression without an exposed control word is swallowed as a whole. -/
theorem Expression.contained {e : List TokenKind} (h : Expression e) : Contained e := by
  have hname {k : TokenKind} {w : List TokenKind} (hk : k.isIdentifier = true)
      (hw : Contained w) : Contained (k :: w) := by
    cases k <;> first | exact .cons rfl rfl hw | cases hk
  have htype {k : TokenKind} {w : List TokenKind} (hk : k.isTypeName = true)
      (hw : Contained w) : Contained (k :: w) := by
    cases k <;> first | exact .cons rfl rfl hw | cases hk
  induction h with
  | name hk => exact hname hk .nil
  | self | integer | string | trueWord | falseWord => exact .cons rfl rfl .nil
  | assignment hk _ ih => exact hname hk (.cons rfl rfl ih)
  | call hk has _ => exact .call hk has
  | dispatch hx hk has ihx _ => exact .append hx.balanced ihx (.cons rfl rfl (.call hk has))
  | staticDispatch hx ht hk has ihx _ =>
      exact .append hx.balanced ihx (.cons rfl rfl (htype ht (.cons rfl rfl (.call hk has))))
  | binary o hx _ ihx ihy =>
      exact .append hx.balanced ihx (.cons (by cases o <;> rfl) (by cases o <;> rfl) ihy)
  | comp _ ih | isvoid _ ih | not _ ih => exact .cons rfl rfl ih
  | new ht => exact .cons rfl rfl (htype ht .nil)
  | parenthesized he _ => exact .bracketed (t := .leftParen) rfl rfl he.balanced .nil
  | emptyBlock =>
      exact .bracketed (t := .leftBrace) (v := [_]) rfl rfl (.cons (fun _ ↦ rfl) .nil) .nil
  | block he hes _ _ =>
      refine .bracketed (t := .leftBrace) rfl rfl (balanced_terminated ⟨rfl, rfl⟩ ?_) .nil
      exact List.forall_mem_cons.mpr ⟨he.balanced, fun s hs ↦ (hes s hs).balanced⟩
  | conditional | loop | letIn | caseOf => exact .of_isControl rfl rfl

theorem brackets_pos {stack : List Terminal} (hne : stack ≠ [])
    (h : ∀ t ∈ stack.getLast?, t.isClosingBracket = true) : 0 < brackets stack :=
  List.countP_pos_iff.mpr
    ⟨_, List.getLast_mem hne, h _ (List.getLast?_eq_some_getLast hne)⟩

theorem getLast?_cons_bracket {t : Terminal} {stack : List Terminal}
    (ht : stack = [] → t.isClosingBracket = true)
    (h : ∀ t ∈ stack.getLast?, t.isClosingBracket = true) :
    ∀ u ∈ (t :: stack).getLast?, u.isClosingBracket = true := by
  cases stack with
  | nil => simpa using ht rfl
  | cons next stack => simpa using h

/-- What is swallowed in front of the closers of a stack opens at least as many control expressions
as it exposes control words, not counting those whose closers stand above a bracket. -/
theorem exposed_le_of_closeAll (upper : List Terminal) {base last : List Terminal}
    (h : closeAll (upper ++ base) w = some last)
    (hupper : ∀ t ∈ upper.getLast?, t.isClosingBracket = true) :
    (exposed (brackets upper) (lead (brackets upper) w) : Int) ≤
      ((lead (brackets upper) w).map controlChange).sum + controls upper := by
  -- `upper` holds the closers down to the first bracket that was opened. As long as there is none,
  -- a control word is exposed, and its closer goes below.
  induction w generalizing upper base with
  | nil => simp [lead, exposed]
  | cons k w ih =>
      obtain ⟨middle, hk, hw⟩ := Option.bind_eq_some_iff.mp h
      by_cases hgo : brackets upper = 0 ∧ k.isSynchronizing = true
      · simp [lead, swallowed, hgo, exposed]
      rw [lead_cons hgo, exposed, List.map_cons, List.sum_cons]
      obtain ⟨closer, hopen, rfl⟩ | ⟨t, hclose, heq⟩ | ⟨hneutral, rfl⟩ := close_cases hk
      · rw [hopen.behind, hopen.change, hopen.isControl]
        by_cases hbracket : closer.isClosingBracket = true
        · have hrest := ih (closer :: upper) hw
            (getLast?_cons_bracket (fun _ ↦ hbracket) hupper)
          rw [brackets_cons, controls_cons] at hrest
          simp only [hbracket, if_true, Bool.not_true] at hrest ⊢
          rw [if_neg (by simp)]
          omega
        · rw [Bool.not_eq_true] at hbracket
          by_cases hnil : upper = []
          · subst hnil
            have hrest := ih [] hw (by simp)
            simp only [hbracket, Bool.false_eq_true, if_false, Bool.not_false, Nat.add_zero]
            rw [if_pos ⟨rfl, trivial⟩]
            omega
          · have hpos := brackets_pos hnil hupper
            have hrest := ih (closer :: upper) hw
              (getLast?_cons_bracket (fun hnil' ↦ (hnil hnil').elim) hupper)
            rw [brackets_cons, controls_cons] at hrest
            simp only [hbracket, Bool.false_eq_true, if_false, Nat.add_zero] at hrest ⊢
            rw [if_neg (by omega)]
            omega
      · cases upper with
        | nil => exact (hgo ⟨rfl, hclose.synchronizing⟩).elim
        | cons next upper =>
            obtain ⟨rfl, rfl⟩ := List.cons.inj heq
            have hrest := ih upper hw fun u hu ↦ hupper u (by
              cases upper with
              | nil => cases hu
              | cons _ _ => simpa using hu)
            rw [hclose.behind, hclose.change, hclose.not_isControl, brackets_cons, controls_cons,
              if_neg (by simp)]
            by_cases hbracket : next.isClosingBracket = true
            · simp only [hbracket, if_true, Nat.add_sub_cancel]
              omega
            · simp only [hbracket, Bool.false_eq_true, if_false, Nat.add_zero, Nat.sub_zero]
              omega
      · have hrest := ih upper hw hupper
        rw [hneutral.behind, hneutral.change, hneutral.not_isControl, if_neg (by simp)]
        omega

/-- What is swallowed at some place of a balanced text opens at least as many control expressions as
it exposes control words. -/
theorem Balanced.exposed_lead_le {v : List TokenKind} (h : Balanced (v ++ w)) :
    (exposed 0 (lead 0 w) : Int) ≤ ((lead 0 w).map controlChange).sum := by
  obtain ⟨base, -, hbase⟩ := Option.bind_eq_some_iff.mp
    ((closeAll_append [] v w).symm.trans (h.closeAll_eq []))
  have hle := exposed_le_of_closeAll [] hbase (by simp)
  simpa [brackets, controls] using hle

/-- A balanced text closes as many control expressions as it opens. -/
theorem Balanced.sum_controlChange (h : Balanced w) : (w.map controlChange).sum = 0 := by
  simpa [controls] using controls_of_closeAll (h.closeAll_eq [])

end Sentence

end CoolTree
