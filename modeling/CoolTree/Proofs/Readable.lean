import CoolTree.Proofs.Initializer
import CoolTree.Proofs.Interchange
import CoolTree.Proofs.Packaged
import CoolTree.Proofs.Rendering
import CoolTree.Proofs.Scanning

/-!
# Reading an S-expression back

Outside of quotes the parentheses of an S-expression balance: a name has none, and a spelling, which
may have one, stands in quotes. Reading goes from the left. A word ends where something else than a
letter or an underscore stands, a spelling at the quote that no backslash stands in front of, and
what is below a node ends where no space stands. So an S-expression has one form only.
-/

namespace CoolTree

namespace Text

/-- The characters that names and roles are made of. -/
def isNameChar (c : Char) : Bool :=
  c.isAlpha || c == '_'

def isWord (text : String) : Bool :=
  !text.isEmpty && text.toList.all isNameChar

theorem isNameChar_of_isWord {text : String} (h : isWord text = true) :
    ∀ c ∈ text.toList, isNameChar c = true := by
  rw [isWord, Bool.and_eq_true] at h
  exact List.all_eq_true.mp h.2

theorem ne_empty_of_isWord {text : String} (h : isWord text = true) : text ≠ "" := by
  rintro rfl
  cases h

/-- A word is told from what stands behind it. -/
theorem word_append_inj {xs ys x y : List Char} (hxs : ∀ c ∈ xs, isNameChar c = true)
    (hys : ∀ c ∈ ys, isNameChar c = true) (hx : ∀ c ∈ x.head?, isNameChar c = false)
    (hy : ∀ c ∈ y.head?, isNameChar c = false) (h : xs ++ x = ys ++ y) : xs = ys ∧ x = y := by
  constructor
  · rw [← Scan.takeWhile_append_of_maximal hxs hx, h, Scan.takeWhile_append_of_maximal hys hy]
  · rw [← Scan.dropWhile_append_of_maximal hxs hx, h, Scan.dropWhile_append_of_maximal hys hy]

end Text

namespace Kind

theorem mem_named_of_isNamed {k : Kind} (h : k.isNamed = true) : k ∈ named := by
  rcases mem_named_or_mem_anonymous k with hk | hk
  · exact hk
  · have hall : ∀ k ∈ anonymous, k.isNamed = false := by decide
    cases h.symm.trans (hall k hk)

theorem mem_anonymous_of_not_isNamed {k : Kind} (h : k.isNamed = false) : k ∈ anonymous := by
  rcases mem_named_or_mem_anonymous k with hk | hk
  · have hall : ∀ k ∈ named, k.isNamed = true := by decide
    cases h.symm.trans (hall k hk)
  · exact hk

theorem isWord_name {k : Kind} (h : k.isNamed = true) : Text.isWord k.name = true := by
  have hall : ∀ k ∈ named, Text.isWord k.name = true := by decide
  exact hall k (mem_named_of_isNamed h)

theorem name_ne_missing {k : Kind} (h : k.isNamed = true) : k.name ≠ "MISSING" := by
  have hall : ∀ k ∈ named, k.name ≠ "MISSING" := by decide
  exact hall k (mem_named_of_isNamed h)

theorem name_inj {k k' : Kind} (h : k.isNamed = true) (h' : k'.isNamed = true)
    (hname : k.name = k'.name) : k = k' := by
  have hall : ∀ k ∈ named, ∀ k' ∈ named, k.name = k'.name → k = k' := by decide
  exact hall k (mem_named_of_isNamed h) k' (mem_named_of_isNamed h') hname

end Kind

theorem Field.isWord_label (f : Field) : Text.isWord f.label = true := by
  cases f <;> rfl

namespace Sexp

/-- Where a character stands: outside of quotes, between them, or behind a backslash there. -/
inductive Quoting where
  | outside
  | inside
  | escaped
  deriving DecidableEq, Inhabited

def Quoting.next : Quoting → Char → Quoting
  | outside, c => if c = '"' then inside else outside
  | inside, c => if c = '"' then outside else if c = '\\' then escaped else inside
  | escaped, _ => inside

/-- What stands outside of quotes. -/
def unquotedFrom (q : Quoting) : List Char → List Char
  | [] => []
  | c :: rest =>
    if q = .outside ∧ c ≠ '"' then c :: unquotedFrom (q.next c) rest
    else unquotedFrom (q.next c) rest

def unquoted (text : String) : List Char :=
  unquotedFrom .outside text.toList

/-- How many parentheses are open behind a text, unless one is closed that is not open. -/
def parentheses (depth : Nat) : List Char → Option Nat
  | [] => some depth
  | c :: rest =>
    if c = '(' then parentheses (depth + 1) rest
    else if c = ')' then if depth = 0 then none else parentheses (depth - 1) rest
    else parentheses depth rest

/-- Every parenthesis that is opened is closed, and none else. -/
def Balanced (text : List Char) : Prop :=
  parentheses 0 text = some 0

theorem unquotedFrom_append (q : Quoting) (xs ys : List Char) :
    unquotedFrom q (xs ++ ys) = unquotedFrom q xs ++ unquotedFrom (xs.foldl Quoting.next q) ys := by
  induction xs generalizing q with
  | nil => rfl
  | cons c xs ih =>
      rw [List.cons_append, unquotedFrom, unquotedFrom, ih, List.foldl_cons]
      split <;> rfl

theorem unquotedFrom_of_not_mem {text : List Char} (h : '"' ∉ text) :
    text.foldl Quoting.next .outside = .outside ∧ unquotedFrom .outside text = text := by
  induction text with
  | nil => exact ⟨rfl, rfl⟩
  | cons c text ih =>
      obtain ⟨hc, htext⟩ := not_or.mp (mt List.mem_cons.mpr h)
      have hnext : Quoting.next .outside c = .outside := if_neg (Ne.symm hc)
      obtain ⟨hquotes, hrest⟩ := ih htext
      constructor
      · rw [List.foldl_cons, hnext, hquotes]
      · rw [unquotedFrom, if_pos ⟨rfl, Ne.symm hc⟩, hnext, hrest]

theorem parentheses_append (depth : Nat) (xs ys : List Char) :
    parentheses depth (xs ++ ys) = (parentheses depth xs).bind (parentheses · ys) := by
  induction xs generalizing depth with
  | nil => rfl
  | cons c xs ih =>
      rw [List.cons_append, parentheses, parentheses]
      split
      · exact ih _
      · split
        · split
          · rfl
          · exact ih _
        · exact ih _

theorem parentheses_of_not_mem {text : List Char} (hopen : '(' ∉ text) (hclose : ')' ∉ text)
    (depth : Nat) : parentheses depth text = some depth := by
  induction text with
  | nil => rfl
  | cons c text ih =>
      obtain ⟨hc, hopen⟩ := not_or.mp (mt List.mem_cons.mpr hopen)
      obtain ⟨hc', hclose⟩ := not_or.mp (mt List.mem_cons.mpr hclose)
      rw [parentheses, if_neg (Ne.symm hc), if_neg (Ne.symm hc'), ih hopen hclose]

/-- A text that leaves the quotes as it finds them and closes the parentheses it opens. -/
structure Sound (text : List Char) : Prop where
  quotes : text.foldl Quoting.next .outside = .outside
  parentheses : ∀ depth, parentheses depth (unquotedFrom .outside text) = some depth

namespace Sound

variable {xs ys : List Char}

theorem nil : Sound [] :=
  ⟨rfl, fun _ ↦ rfl⟩

theorem append (hx : Sound xs) (hy : Sound ys) : Sound (xs ++ ys) := by
  constructor
  · rw [List.foldl_append, hx.quotes, hy.quotes]
  · intro depth
    rw [unquotedFrom_append, hx.quotes, parentheses_append, hx.parentheses, Option.bind_some,
      hy.parentheses]

theorem plain (hquote : '"' ∉ xs) (hopen : '(' ∉ xs) (hclose : ')' ∉ xs) : Sound xs := by
  obtain ⟨hquotes, hsame⟩ := unquotedFrom_of_not_mem hquote
  exact ⟨hquotes, fun depth ↦ hsame.symm ▸ parentheses_of_not_mem hopen hclose depth⟩

/-- Nothing of a text between quotes counts. -/
theorem quoted (hquotes : xs.foldl Quoting.next .outside = .outside)
    (hnone : unquotedFrom .outside xs = []) : Sound xs :=
  ⟨hquotes, fun depth ↦ by rw [hnone]; rfl⟩

theorem enclosed (h : Sound xs) : Sound ('(' :: (xs ++ [')'])) := by
  have hclose : [')'].foldl Quoting.next .outside = .outside := rfl
  constructor
  · rw [List.foldl_cons, List.foldl_append]
    exact (congrArg (List.foldl Quoting.next · [')']) h.quotes).trans hclose
  · intro depth
    have hinside : unquotedFrom .outside ('(' :: (xs ++ [')'])) =
        '(' :: (unquotedFrom .outside xs ++ [')']) := by
      have happend := unquotedFrom_append .outside xs [')']
      rw [h.quotes] at happend
      exact congrArg ('(' :: ·) happend
    rw [hinside, Sexp.parentheses, if_pos rfl, parentheses_append, h.parentheses]
    rfl

theorem word {text : String} (h : Text.isWord text = true) : Sound text.toList := by
  have hword := Text.isNameChar_of_isWord h
  refine .plain ?_ ?_ ?_ <;> exact fun hc ↦ by cases hword _ hc

end Sound

theorem sound_fieldMark (field : Option Field) : Sound (fieldMark field).toList := by
  cases field with
  | none => exact .nil
  | some field =>
      have hcolon : Sound ": ".toList := .plain (by decide) (by decide) (by decide)
      rw [fieldMark, String.toList_append]
      exact (Sound.word field.isWord_label).append hcolon

end Sexp

open Sexp

namespace Form

theorem sound_head {kind : Kind} {missing : Bool} (h : (kind.isNamed || missing) = true) :
    Sound (head kind missing).toList := by
  have hquoted : ∀ k ∈ Kind.anonymous,
      (Text.quoteString k.name).toList.foldl Quoting.next .outside = .outside ∧
        unquoted (Text.quoteString k.name) = [] := by
    decide
  have hmissing : Sound "MISSING ".toList := .plain (by decide) (by decide) (by decide)
  have hname : kind.isNamed = true → Sound kind.name.toList :=
    fun hnamed ↦ .word (Kind.isWord_name hnamed)
  cases missing with
  | false => exact hname (by simpa using h)
  | true =>
      rw [head, if_pos rfl, String.toList_append]
      cases hnamed : kind.isNamed with
      | true => exact hmissing.append (hname hnamed)
      | false =>
          obtain ⟨hquotes, hnone⟩ := hquoted kind (Kind.mem_anonymous_of_not_isNamed hnamed)
          exact hmissing.append (.quoted hquotes hnone)

theorem toList_text_mk {field : Option Field} {kind : Kind} {missing : Bool}
    {shown : (kind.isNamed || missing) = true} {below : List Form} :
    (mk field kind missing shown below).text.toList =
      '(' :: ((head kind missing).toList ++ (textBelow below).toList ++ [')']) := by
  simp [text_mk]

theorem sound_textBelow {fs : List Form} (h : ∀ f ∈ fs, Sound f.text.toList) :
    Sound (textBelow fs).toList := by
  induction fs with
  | nil => exact .nil
  | cons f fs ih =>
      obtain ⟨hf, hfs⟩ := List.forall_mem_cons.mp h
      have hspace : Sound " ".toList := .plain (by decide) (by decide) (by decide)
      rw [textBelow, String.toList_append, String.toList_append, String.toList_append]
      exact ((hspace.append (sound_fieldMark f.field)).append hf).append (ih hfs)

theorem sound_text (f : Form) : Sound f.text.toList := by
  induction f using Form.induction with
  | step field kind missing shown below ih =>
      rw [toList_text_mk]
      exact ((sound_head shown).append (sound_textBelow ih)).enclosed

theorem sound_texts (fs : List Form) : Sound (texts fs).toList := by
  cases fs with
  | nil => exact .nil
  | cons f fs =>
      rw [texts_cons, piece, String.toList_append, String.toList_append]
      exact ((sound_fieldMark f.field).append (sound_text f)).append
        (sound_textBelow fun g _ ↦ sound_text g)

end Form

/-- Outside of quotes, the parentheses of an S-expression balance. -/
theorem Node.balanced_sexp (n : Node) : Balanced (unquoted n.sexp) := by
  rw [sexp_eq]
  exact (Form.sound_texts _).parentheses 0

open Text

namespace Kind

theorem name_append_ne_missing {k : Kind} (h : k.isNamed = true) {x : List Char}
    (hx : ∀ c ∈ x.head?, isNameChar c = false) (y : List Char) :
    k.name.toList ++ x ≠ "MISSING ".toList ++ y := by
  intro heq
  have hmissing : isWord "MISSING" = true := rfl
  have hspace : ∀ c ∈ (" ".toList ++ y).head?, isNameChar c = false :=
    fun c hc ↦ Option.some.inj hc ▸ rfl
  have hword := (word_append_inj (isNameChar_of_isWord (isWord_name h))
    (isNameChar_of_isWord hmissing) hx hspace heq).1
  exact name_ne_missing h (String.toList_inj.mp hword)

theorem name_append_ne_quoteString {k : Kind} (h : k.isNamed = true) {x : List Char}
    (hx : ∀ c ∈ x.head?, isNameChar c = false) (s : String) (y : List Char) :
    k.name.toList ++ x ≠ (quoteString s).toList ++ y := by
  intro heq
  have hquote : ∀ c ∈ ((quoteString s).toList ++ y).head?, isNameChar c = false := by
    rw [quoteString, String.toList_ofList]
    exact fun c hc ↦ Option.some.inj hc ▸ rfl
  have hnone : ∀ c ∈ ([] : List Char), isNameChar c = true := List.forall_mem_nil _
  have hword := (word_append_inj (isNameChar_of_isWord (isWord_name h)) hnone hx hquote
    (heq.trans (List.nil_append _).symm)).1
  exact ne_empty_of_isWord (isWord_name h) (String.toList_inj.mp hword)

/-- No spelling in quotes goes on as another one. -/
theorem quoteString_append_inj {k k' : Kind} (h : k.isNamed = false) (h' : k'.isNamed = false)
    {x y : List Char} (heq : (quoteString k.name).toList ++ x = (quoteString k'.name).toList ++ y) :
    k = k' ∧ x = y := by
  have hall : ∀ k ∈ anonymous, ∀ k' ∈ anonymous,
      (quoteString k.name).toList.isPrefixOf (quoteString k'.name).toList = true → k = k' := by
    decide
  have hk := mem_anonymous_of_not_isNamed h
  have hk' := mem_anonymous_of_not_isNamed h'
  have hsame : k = k' := by
    have hfirst : (quoteString k.name).toList <+: (quoteString k'.name).toList ++ y :=
      heq ▸ List.prefix_append _ x
    rcases List.prefix_or_prefix_of_prefix hfirst (List.prefix_append _ y) with hpre | hpre
    · exact hall k hk k' hk' (List.isPrefixOf_iff_prefix.mpr hpre)
    · exact (hall k' hk' k hk (List.isPrefixOf_iff_prefix.mpr hpre)).symm
  subst hsame
  exact ⟨rfl, List.append_cancel_left heq⟩

end Kind

namespace Form

/-- What stands behind a parenthesis is told from what follows it, which is no part of a word. -/
theorem head_append_inj {kind kind' : Kind} {missing missing' : Bool}
    (h : (kind.isNamed || missing) = true) (h' : (kind'.isNamed || missing') = true)
    {x y : List Char} (hx : ∀ c ∈ x.head?, isNameChar c = false)
    (hy : ∀ c ∈ y.head?, isNameChar c = false)
    (heq : (head kind missing).toList ++ x = (head kind' missing').toList ++ y) :
    kind = kind' ∧ missing = missing' ∧ x = y := by
  have hname : kind.isNamed = true → kind'.isNamed = true →
      kind.name.toList ++ x = kind'.name.toList ++ y → kind = kind' ∧ x = y := by
    intro hnamed hnamed' heq
    obtain ⟨hnames, hrest⟩ := word_append_inj (isNameChar_of_isWord (Kind.isWord_name hnamed))
      (isNameChar_of_isWord (Kind.isWord_name hnamed')) hx hy heq
    exact ⟨Kind.name_inj hnamed hnamed' (String.toList_inj.mp hnames), hrest⟩
  cases missing <;> cases missing'
  case false.false =>
    obtain ⟨hkind, hrest⟩ := hname (by simpa using h) (by simpa using h') heq
    exact ⟨hkind, rfl, hrest⟩
  case false.true =>
    rw [head, if_neg Bool.false_ne_true, head, if_pos rfl, String.toList_append,
      List.append_assoc] at heq
    exact (Kind.name_append_ne_missing (by simpa using h) hx _ heq).elim
  case true.false =>
    rw [head, if_pos rfl, head, if_neg Bool.false_ne_true, String.toList_append,
      List.append_assoc] at heq
    exact (Kind.name_append_ne_missing (by simpa using h') hy _ heq.symm).elim
  case true.true =>
    rw [head, if_pos rfl, head, if_pos rfl, String.toList_append, String.toList_append,
      List.append_assoc, List.append_assoc] at heq
    have heq := List.append_cancel_left heq
    have hboth : kind = kind' ∧ x = y := by
      cases hnamed : kind.isNamed <;> cases hnamed' : kind'.isNamed <;>
        rw [hnamed, hnamed'] at heq
      case false.false => exact Kind.quoteString_append_inj hnamed hnamed' heq
      case false.true =>
        exact (Kind.name_append_ne_quoteString hnamed' hy kind.name x heq.symm).elim
      case true.false =>
        exact (Kind.name_append_ne_quoteString hnamed hx kind'.name y heq).elim
      case true.true => exact hname hnamed hnamed' heq
    exact ⟨hboth.1, rfl, hboth.2⟩

/-- A role is a word in front of a colon. Where there is none, a parenthesis stands. -/
theorem fieldMark_append (field : Option Field) (x : List Char) :
    ∃ behind, (fieldMark field).toList ++ '(' :: x = (field.elim "" Field.label).toList ++ behind ∧
      ∀ c ∈ behind.head?, isNameChar c = false := by
  cases field with
  | none => exact ⟨'(' :: x, rfl, fun c hc ↦ Option.some.inj hc ▸ rfl⟩
  | some f =>
      refine ⟨": ".toList ++ '(' :: x, ?_, fun c hc ↦ Option.some.inj hc ▸ rfl⟩
      rw [fieldMark, String.toList_append, List.append_assoc]
      rfl

theorem fieldMark_append_inj {field field' : Option Field} {x y : List Char}
    (heq : (fieldMark field).toList ++ '(' :: x = (fieldMark field').toList ++ '(' :: y) :
    field = field' ∧ x = y := by
  have hword : ∀ field : Option Field, ∀ c ∈ (field.elim "" Field.label).toList,
      isNameChar c = true := by
    rintro (_ | f)
    · exact List.forall_mem_nil _
    · exact isNameChar_of_isWord f.isWord_label
  obtain ⟨behind, hleft, hbehind⟩ := fieldMark_append field x
  obtain ⟨behind', hright, hbehind'⟩ := fieldMark_append field' y
  have hlabels := String.toList_inj.mp (word_append_inj (hword field) (hword field') hbehind
    hbehind' (hleft.symm.trans (heq.trans hright))).1
  have hfield : field = field' := by
    rcases field with _ | f <;> rcases field' with _ | g
    · rfl
    · exact (ne_empty_of_isWord g.isWord_label hlabels.symm).elim
    · exact (ne_empty_of_isWord f.isWord_label hlabels).elim
    · exact congrArg some (Field.label_injective hlabels)
  subst hfield
  exact ⟨rfl, List.tail_eq_of_cons_eq (List.append_cancel_left heq)⟩

/-- A form is told from what stands behind it. -/
def Readable (f : Form) : Prop :=
  ∀ (g : Form) (x y : List Char), f.piece.toList ++ x = g.piece.toList ++ y → f = g ∧ x = y

theorem toList_textBelow_cons (f : Form) (fs : List Form) :
    (textBelow (f :: fs)).toList = ' ' :: (f.piece.toList ++ (textBelow fs).toList) := by
  rw [textBelow_cons, String.toList_append, String.toList_append, List.append_assoc]
  rfl

theorem textBelow_append_inj {fs gs : List Form} (hfs : ∀ f ∈ fs, Readable f) {x y : List Char}
    (hx : x.head? ≠ some ' ') (hy : y.head? ≠ some ' ')
    (heq : (textBelow fs).toList ++ x = (textBelow gs).toList ++ y) : fs = gs ∧ x = y := by
  induction fs generalizing gs with
  | nil =>
      cases gs with
      | nil => exact ⟨rfl, heq⟩
      | cons g gs =>
          rw [toList_textBelow_cons] at heq
          exact (hx (congrArg List.head? heq)).elim
  | cons f fs ih =>
      cases gs with
      | nil =>
          rw [toList_textBelow_cons] at heq
          exact (hy (congrArg List.head? heq).symm).elim
      | cons g gs =>
          obtain ⟨hf, hfs⟩ := List.forall_mem_cons.mp hfs
          rw [toList_textBelow_cons, toList_textBelow_cons, List.cons_append, List.cons_append,
            List.append_assoc, List.append_assoc] at heq
          obtain ⟨rfl, hrest⟩ := hf g _ _ (List.tail_eq_of_cons_eq heq)
          obtain ⟨rfl, hxy⟩ := ih hfs hrest
          exact ⟨rfl, hxy⟩

theorem toList_piece_append {field : Option Field} {kind : Kind} {missing : Bool}
    {shown : (kind.isNamed || missing) = true} {below : List Form} (x : List Char) :
    (mk field kind missing shown below).piece.toList ++ x =
      (fieldMark field).toList ++
        '(' :: ((head kind missing).toList ++ ((textBelow below).toList ++ ')' :: x)) := by
  rw [piece, String.toList_append, toList_text_mk]
  simp only [List.append_assoc, List.cons_append, List.nil_append]
  rfl

theorem not_isNameChar_textBelow (fs : List Form) (x : List Char) :
    ∀ c ∈ ((textBelow fs).toList ++ ')' :: x).head?, isNameChar c = false := by
  cases fs with
  | nil => exact fun c hc ↦ Option.some.inj hc ▸ rfl
  | cons f fs =>
      rw [toList_textBelow_cons]
      exact fun c hc ↦ Option.some.inj hc ▸ rfl

/-- The role is read first, then the head, and then what is below, form by form. -/
theorem readable (f : Form) : Readable f := by
  induction f using Form.induction with
  | step field kind missing shown below ih =>
      rintro ⟨field', kind', missing', shown', below'⟩ x y heq
      rw [toList_piece_append, toList_piece_append] at heq
      obtain ⟨rfl, hhead⟩ := fieldMark_append_inj heq
      obtain ⟨rfl, rfl, hbelow⟩ := head_append_inj shown shown'
        (not_isNameChar_textBelow below x) (not_isNameChar_textBelow below' y) hhead
      obtain ⟨rfl, hrest⟩ := textBelow_append_inj ih (by simp) (by simp) hbelow
      exact ⟨rfl, List.tail_eq_of_cons_eq hrest⟩

theorem texts_injective : Function.Injective texts := by
  intro fs gs heq
  have hne : ∀ (f : Form) (fs : List Form), texts (f :: fs) ≠ "" := by
    intro f fs hnil
    rw [texts_cons] at hnil
    exact f.piece_ne_empty (String.append_eq_empty_iff.mp hnil).1
  cases fs with
  | nil =>
      cases gs with
      | nil => rfl
      | cons g gs => exact (hne g gs heq.symm).elim
  | cons f fs =>
      cases gs with
      | nil => exact (hne f fs heq).elim
      | cons g gs =>
          have hlist := congrArg String.toList heq
          rw [texts_cons, texts_cons, String.toList_append, String.toList_append] at hlist
          obtain ⟨rfl, hbelow⟩ := readable f g _ _ hlist
          have hrest := textBelow_append_inj (x := []) (y := []) (fun f _ ↦ readable f) (by simp)
            (by simp) (by simpa using hbelow)
          exact congrArg _ hrest.1

end Form

/-- Nodes with the same S-expression show the same nodes. -/
theorem Node.forms_eq_of_sexp_eq {n m : Node} (h : n.sexp = m.sexp) :
    n.forms none = m.forms none := by
  rw [sexp_eq, sexp_eq] at h
  exact Form.texts_injective h

/-- A node is rendered as its head and, in order, the uppermost shown nodes below it, each with the
role that it plays in the node right above it; if the node is not shown, these stand alone. Outside
of quotes the parentheses balance, and the rendering tells which nodes are shown, with their kinds,
their roles, and whether they are missing. -/
theorem Parser.sexp_of_parse {p q : Parser} {l : Language} (hlanguage : p.setLanguage l = .ok q)
    (config : Config) (source : String) :
    ∃ tree, (q.setConfig config).parse? source = some tree ∧
      ∀ c ∈ (Cursor.ofTree tree).descendants,
        (l.kindName? (l.numberOf c.node.kind) = some c.node.kind.name ∧
          l.isNamed (l.numberOf c.node.kind) = c.node.isNamed) ∧
        (isShown c.node = true →
          c.node.sexp = "(" ++ Sexp.head c.node ++ String.join (c.uppermost.map fun d ↦
            " " ++ fieldMark d.node.field? ++ d.node.sexp) ++ ")") ∧
        (isShown c.node = false →
          c.node.sexp = " ".intercalate (c.uppermost.map fun d ↦
            fieldMark d.node.field? ++ d.node.sexp)) ∧
        Balanced (unquoted c.node.sexp) ∧
        ∀ n : Node, c.node.sexp = n.sexp → c.node.forms none = n.forms none := by
  have hlack := lack?_of_setLanguage hlanguage
  refine ⟨Tree.parse l config source, parse?_of_setLanguage hlanguage config source, ?_⟩
  intro c hc
  have hstands := (Tree.stands_parse l config source).of_mem_descendants hc
  exact ⟨⟨Language.kindName?_numberOf hlack _, Language.isNamed_numberOf hlack _⟩,
    hstands.sexp_of_shown, hstands.sexp_of_not_shown, c.node.balanced_sexp,
    fun _ ↦ Node.forms_eq_of_sexp_eq⟩

/-- Two sources in which a quote and a parenthesis are missing, laid out differently. -/
theorem Parser.sexp_of_parse_missing_quote :
    let parser : Parser := { language := some .cool }
    Parser.setLanguage {} .cool = .ok parser ∧
      ∃ tree other, parser.parse? "class A \x7b x : B <- (\"a" = some tree ∧
        parser.parse? "class C\x7by:D<-(\"b" = some other ∧
        tree.root.sexp = other.root.sexp ∧ tree.root.forms none = other.root.forms none ∧
        Balanced (unquoted tree.root.sexp) ∧
        isShown tree.root = true ∧
        tree.root.sexp = "(" ++ Sexp.head tree.root ++
          String.join ((Cursor.ofTree tree).uppermost.map fun d ↦
            " " ++ fieldMark d.node.field? ++ d.node.sexp) ++ ")" ∧
        ∃ c ∈ (Cursor.ofTree tree).descendants, isShown c.node = false ∧
          c.node.sexp = " ".intercalate (c.uppermost.map fun d ↦
            fieldMark d.node.field? ++ d.node.sexp) := by
  intro parser
  obtain ⟨tree, hparse, hall⟩ :=
    sexp_of_parse (setLanguage_cool {}) {} "class A \x7b x : B <- (\"a"
  obtain ⟨other, hother, -⟩ := sexp_of_parse (setLanguage_cool {}) {} "class C\x7by:D<-(\"b"
  have htree : Tree.parse .cool {} "class A \x7b x : B <- (\"a" = tree := Option.some.inj hparse
  have hsame : tree.root.sexp = other.root.sexp := by
    rw [← htree, ← Option.some.inj hother, Node.sexp_eq, Node.sexp_eq]
    decide +kernel
  have hsound : tree.arena.Sound [tree.top] := htree ▸ Tree.sound_parse .cool {} _
  have hroot : isShown tree.root = true := by
    rw [← htree, Tree.root_parse]
    rfl
  have hhidden : (tree.root.preorder.any fun n ↦ !isShown n) = true := by
    rw [← htree]
    decide +kernel
  rw [← Tree.map_node_descendants hsound, List.any_map] at hhidden
  obtain ⟨c, hc, hnot⟩ := List.any_eq_true.mp hhidden
  have hnot : isShown c.node = false := by simpa using hnot
  obtain ⟨-, hshown, -, hbalanced, hforms⟩ :=
    hall _ (Cursor.stands_ofTree hsound).self_mem_descendants
  rw [Cursor.node_ofTree hsound] at hshown hbalanced hforms
  obtain ⟨-, -, hrest, -⟩ := hall c hc
  exact ⟨setLanguage_cool {}, tree, other, hparse, hother, hsame, hforms _ hsame, hbalanced, hroot,
    hshown hroot, c, hc, hnot, hrest hnot⟩

end CoolTree
