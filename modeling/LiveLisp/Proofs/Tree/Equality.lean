/-
  What the comparison of forms leaves open. Number literals are compared as the floats that they
  are, to which the two zeros are one: forms that are alike are the same if their literals agree,
  place by place, on being a negative zero (`Form.eq_of_alike`).
-/
import Mathlib
import LiveLisp.Tree.Form

namespace LiveLisp

namespace Form

mutual
/-- Whether the literals of two forms agree, place by place, on being a negative zero. -/
def zerosAgree : Form → Form → Bool
  | number a, number b => decide (a = -0) == decide (b = -0)
  | list as, list bs => allZerosAgree as bs
  | _, _ => true
def allZerosAgree : List Form → List Form → Bool
  | a :: as, b :: bs => zerosAgree a b && allZerosAgree as bs
  | _, _ => true
end

theorem float_eq_of_beq {a b : Float} (h : (a == b) = true)
    (hnegative : a = -0 ↔ b = -0) : a = b := by
  obtain ⟨-, -, hsame | ⟨rfl, rfl⟩ | ⟨rfl, rfl⟩⟩ := Float.beq_iff_ne_nan_and_eq.mp h
  · exact hsame
  · exact hnegative.mpr rfl
  · exact (hnegative.mp rfl).symm

mutual
theorem eq_of_alike {f g : Form} (h : f.alike g = true)
    (hzeros : f.zerosAgree g = true) : f = g := by
  cases f with
  | number a =>
    cases g with
    | number b =>
      rw [zerosAgree, beq_iff_eq, decide_eq_decide] at hzeros
      rw [alike] at h
      rw [float_eq_of_beq h hzeros]
    | _ => cases h
  | text a =>
    cases g with
    | text b => rw [beq_iff_eq.mp h]
    | _ => cases h
  | identifier a =>
    cases g with
    | identifier b => rw [beq_iff_eq.mp h]
    | _ => cases h
  | list as =>
    cases g with
    | list bs =>
      rw [alike] at h
      rw [zerosAgree] at hzeros
      rw [eq_of_allAlike h hzeros]
    | _ => cases h
theorem eq_of_allAlike {fs gs : List Form} (h : allAlike fs gs = true)
    (hzeros : allZerosAgree fs gs = true) : fs = gs := by
  cases fs with
  | nil =>
    cases gs with
    | nil => rfl
    | cons => cases h
  | cons f fs =>
    cases gs with
    | nil => cases h
    | cons g gs =>
      rw [allAlike, Bool.and_eq_true] at h
      rw [allZerosAgree, Bool.and_eq_true] at hzeros
      rw [eq_of_alike h.1 hzeros.1, eq_of_allAlike h.2 hzeros.2]
end

end Form

end LiveLisp
