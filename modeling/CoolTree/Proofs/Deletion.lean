import Mathlib.Data.List.Infix

/-!
# Deleting codes from a text

Codes can be told from the text around them when each starts with a character that stands nowhere
else, neither in the text nor later in a code, and when none of them is the beginning of another
one. Deleting a code then takes out the pieces that are this code and leaves the other ones alone,
so the codes can be deleted one after the other in any order.
-/

namespace CoolTree.Text

/-- Takes a code out of a text wherever it stands, from left to right. -/
def delete (code : List Char) : List Char → List Char
  | [] => []
  | c :: text =>
    if code <+: c :: text then delete code (text.drop (code.length - 1))
    else c :: delete code text
  termination_by text => text.length
  decreasing_by
  · rw [List.length_drop, List.length_cons]
    omega
  · exact Nat.lt_succ_self _

/-- Codes that a character introduces. -/
structure Introduces (mark : Char) (codes : List (List Char)) : Prop where
  exists_cons : ∀ code ∈ codes, ∃ tail, code = mark :: tail ∧ mark ∉ tail
  apart : ∀ code ∈ codes, ∀ other ∈ codes, code <+: other → code = other

/-- A text in pieces: single characters other than the mark, and whole codes. -/
def InPieces (mark : Char) (codes row : List (List Char)) : Prop :=
  ∀ piece ∈ row, piece ∈ codes ∨ ∃ c, c ≠ mark ∧ piece = [c]

theorem delete_append_self {code : List Char} (hcode : code ≠ []) (text : List Char) :
    delete code (code ++ text) = delete code text := by
  obtain ⟨c, tail, rfl⟩ := List.exists_cons_of_ne_nil hcode
  have hbegins : c :: tail <+: c :: (tail ++ text) := ⟨text, rfl⟩
  rw [List.cons_append, delete, if_pos hbegins]
  simp

theorem delete_cons_of_not_begins {code : List Char} {c : Char} {text : List Char}
    (h : ¬ code <+: c :: text) : delete code (c :: text) = c :: delete code text := by
  rw [delete, if_neg h]

namespace Introduces

variable {mark : Char} {codes row : List (List Char)} {code : List Char}

theorem ne_nil (h : Introduces mark codes) (hcode : code ∈ codes) : code ≠ [] := by
  obtain ⟨tail, rfl, -⟩ := h.exists_cons code hcode
  simp

theorem delete_plain (h : Introduces mark codes) (hcode : code ∈ codes) {plain : List Char}
    (hplain : mark ∉ plain) (text : List Char) :
    delete code (plain ++ text) = plain ++ delete code text := by
  obtain ⟨tail, rfl, -⟩ := h.exists_cons code hcode
  induction plain with
  | nil => rfl
  | cons c plain ih =>
      obtain ⟨hc, hplain⟩ := List.ne_and_not_mem_of_not_mem_cons hplain
      have hbegins : ¬ mark :: tail <+: c :: (plain ++ text) := by
        intro hbegins
        exact hc (List.cons_prefix_cons.mp hbegins).1
      rw [List.cons_append, delete_cons_of_not_begins hbegins, ih hplain, List.cons_append]

theorem delete_other (h : Introduces mark codes) (hcode : code ∈ codes) {other : List Char}
    (hother : other ∈ codes) (hne : other ≠ code) (text : List Char) :
    delete code (other ++ text) = other ++ delete code text := by
  have hbegins : ¬ code <+: other ++ text := by
    intro hbegins
    rcases List.prefix_or_prefix_of_prefix hbegins (List.prefix_append other text) with hle | hle
    · exact hne (h.apart code hcode other hother hle).symm
    · exact hne (h.apart other hother code hcode hle)
  obtain ⟨tail, rfl, htail⟩ := h.exists_cons other hother
  rw [List.cons_append] at hbegins ⊢
  rw [delete_cons_of_not_begins hbegins, h.delete_plain hcode htail, List.cons_append]

theorem delete_flatten (h : Introduces mark codes) (hcode : code ∈ codes)
    (hrow : InPieces mark codes row) :
    delete code row.flatten = (row.filter (· ≠ code)).flatten := by
  induction row with
  | nil => simp [delete]
  | cons piece row ih =>
      obtain ⟨hpiece, hrow⟩ := List.forall_mem_cons.mp hrow
      rw [List.flatten_cons]
      by_cases heq : piece = code
      · subst heq
        rw [delete_append_self (h.ne_nil hcode), ih hrow]
        simp
      · have hkept : delete code (piece ++ row.flatten) = piece ++ delete code row.flatten := by
          rcases hpiece with hother | ⟨c, hc, rfl⟩
          · exact h.delete_other hcode hother heq _
          · exact h.delete_plain hcode (by simpa using hc.symm) _
        rw [hkept, ih hrow]
        simp [heq]

/-- Deleting codes one after the other takes out all pieces that are among them. -/
theorem foldl_delete (h : Introduces mark codes) {order : List (List Char)}
    (horder : ∀ code ∈ order, code ∈ codes) (hrow : InPieces mark codes row) :
    order.foldl (fun text code ↦ delete code text) row.flatten =
      (row.filter (· ∉ order)).flatten := by
  induction order generalizing row with
  | nil => simp
  | cons code order ih =>
      obtain ⟨hcode, horder⟩ := List.forall_mem_cons.mp horder
      have hkept : InPieces mark codes (row.filter (· ≠ code)) :=
        fun piece hpiece ↦ hrow piece (List.mem_of_mem_filter hpiece)
      rw [List.foldl_cons, h.delete_flatten hcode hrow, ih horder hkept, List.filter_filter]
      congr 2
      funext piece
      simp [Bool.and_comm]

end Introduces

end CoolTree.Text
