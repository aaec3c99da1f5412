/-
# `Mavros.Lib.Sections` — three growing sections of one vector

A vector that is written front to back in three places at once: a section of
length `s`, one of length `t` behind it, and the rest.  Each section is a list of
what was written so far, zeros standing for what was not.  A write at the end of
a section is an append to its list.

## What is proved

`sections x y z` is the vector, as a function on indices.  `update_sections_first`,
`update_sections_second` and `update_sections_third` say that a write at the end of a section
extends its list; `sections_first`, `sections_second` and `sections_third` read a place back;
`sections_skip` passes over places that were allotted and not written.

A machine with three cursors into one vector is followed by three lists, and the positions of
the cursors are their lengths.
-/
import Mathlib.Tactic

namespace Mavros.Lib

variable {α : Type} [Zero α] {s t : Nat} {x y z : List α}

/-- The vector with sections `x`, `y` and `z`. -/
def sections (s t : Nat) (x y z : List α) (i : Nat) : α :=
  if i < s then x.getD i 0
  else if i < s + t then y.getD (i - s) 0
  else z.getD (i - (s + t)) 0

theorem sections_nil : sections s t ([] : List α) [] [] = fun _ => 0 := by
  funext i
  simp [sections]

theorem sections_first {i : Nat} (hi : i < s) : sections s t x y z i = x.getD i 0 := by
  rw [sections, if_pos hi]

theorem sections_second {i : Nat} (hi : i < t) :
    sections s t x y z (s + i) = y.getD i 0 := by
  rw [sections, if_neg (by omega), if_pos (by omega), Nat.add_sub_cancel_left]

theorem sections_third (i : Nat) : sections s t x y z (s + t + i) = z.getD i 0 := by
  rw [sections, if_neg (by omega), if_neg (by omega), Nat.add_sub_cancel_left]

/-- An entry of a list that was extended by one. -/
theorem getD_append_singleton (xs : List α) (a : α) (i : Nat) :
    (xs ++ [a]).getD i 0 = if i = xs.length then a else xs.getD i 0 := by
  simp only [List.getD_eq_getElem?_getD]
  rcases Nat.lt_trichotomy i xs.length with h | rfl | h
  · rw [if_neg (Nat.ne_of_lt h), List.getElem?_append_left h]
  · simp
  · rw [if_neg (Nat.ne_of_gt h), List.getElem?_eq_none (by simp; omega),
      List.getElem?_eq_none (Nat.le_of_lt h)]

/-- Zeros at the end of a list change no entry. -/
theorem getD_append_zeros (xs : List α) (n i : Nat) :
    (xs ++ List.replicate n 0).getD i 0 = xs.getD i 0 := by
  simp only [List.getD_eq_getElem?_getD]
  by_cases h : i < xs.length
  · rw [List.getElem?_append_left h]
  · have h := Nat.le_of_not_lt h
    rw [List.getElem?_append_right h, List.getElem?_eq_none h, List.getElem?_replicate]
    split_ifs <;> rfl

theorem update_sections_first (a : α) (h : x.length < s) :
    Function.update (sections s t x y z) x.length a = sections s t (x ++ [a]) y z := by
  funext i
  by_cases hi : i = x.length
  · subst hi
    rw [Function.update_self, sections_first h, getD_append_singleton, if_pos rfl]
  · rw [Function.update_of_ne hi]
    simp only [sections, getD_append_singleton, if_neg hi]

theorem update_sections_second (a : α) (h : y.length < t) :
    Function.update (sections s t x y z) (s + y.length) a = sections s t x (y ++ [a]) z := by
  funext i
  by_cases hi : i = s + y.length
  · subst hi
    rw [Function.update_self, sections_second h, getD_append_singleton, if_pos rfl]
  · rw [Function.update_of_ne hi]
    simp only [sections, getD_append_singleton]
    split_ifs <;> first | rfl | omega

theorem update_sections_third (a : α) :
    Function.update (sections s t x y z) (s + t + z.length) a
      = sections s t x y (z ++ [a]) := by
  funext i
  by_cases hi : i = s + t + z.length
  · subst hi
    rw [Function.update_self, sections_third, getD_append_singleton, if_pos rfl]
  · rw [Function.update_of_ne hi]
    simp only [sections, getD_append_singleton]
    split_ifs <;> first | rfl | omega

/-- What was not written is zero. -/
theorem sections_third_length : sections s t x y z (s + t + z.length) = 0 := by
  simp [sections_third]

/-- Skipping places of the second section. -/
theorem sections_skip (n : Nat) :
    sections s t x (y ++ List.replicate n 0) z = sections s t x y z := by
  funext i
  simp only [sections, getD_append_zeros]

end Mavros.Lib
