/-
  Every form of a program is alike to itself (`Node.alike_self_of_ofProgram`). Only a literal that
  is no number could be unlike itself, and none can be written: what a numeral is read as has been
  made from whole numbers by one rounded multiplication or division by a power of ten, and these
  never end in a missing number.
-/
import Mathlib
import LiveLisp.Proofs.Tree.Places

namespace LiveLisp

namespace Decimal

open Float.Model (UnpackedFloat Format)
open Float.Model.UnpackedFloat (Sign packComponents)

/-! ## Operations that end in a number -/

section

variable {spec : Format} {f : UnpackedFloat} {sign : Sign} {mantissa : Nat} {exponent : Int}
    {hmantissa : 0 < mantissa}

/-- All exponent bits set, and a mantissa that is not zero: nothing else is read as a missing
number. -/
theorem unpack_packComponents_ne {exponent : BitVec spec.exponentBits}
    {mantissa : BitVec spec.mantissaBitsWithoutImplicit} (h : exponent = -1#_ → mantissa = 0#_) :
    UnpackedFloat.unpack spec (packComponents spec sign exponent mantissa) ≠ .notANumber := by
  simp only [UnpackedFloat.unpack, Float.Model.UnpackedFloat.unpackExponent_packComponents,
    Float.Model.UnpackedFloat.unpackMantissa_packComponents]
  split
  · next hexponent =>
    rw [if_pos (h hexponent)]
    exact nofun
  · split
    · split <;> exact nofun
    · exact nofun

theorem unpack_pack_ne (h : f ≠ .notANumber) :
    UnpackedFloat.unpack spec (UnpackedFloat.pack spec f) ≠ .notANumber := by
  have hbits := Nat.one_lt_two_pow (Nat.pos_iff_ne_zero.mp spec.he)
  fun_cases UnpackedFloat.pack spec f with
  | case1 => exact absurd rfl h
  | case2 => exact unpack_packComponents_ne fun _ => rfl
  | case3 => exact unpack_packComponents_ne fun _ => rfl
  | case4 => exact unpack_packComponents_ne fun _ => rfl
  | case5 sign mantissa exponent _ bits biased hsmall =>
    refine unpack_packComponents_ne fun hset => ?_
    have hall := congrArg BitVec.toNat hset
    rw [BitVec.neg_one_eq_allOnes, BitVec.toNat_allOnes, BitVec.toNat_ofNat,
      Nat.mod_eq_of_lt (by omega)] at hall
    omega
  | case6 =>
    refine unpack_packComponents_ne fun hset => ?_
    have hall := congrArg BitVec.toNat hset
    rw [BitVec.neg_one_eq_allOnes, BitVec.toNat_allOnes, BitVec.toNat_ofNat, Nat.zero_mod] at hall
    omega

theorem roundWithAccuracy_ne {accuracy : UnpackedFloat.Accuracy} :
    UnpackedFloat.roundWithAccuracy spec sign mantissa exponent accuracy ≠ .notANumber := by
  unfold UnpackedFloat.roundWithAccuracy
  dsimp only
  split <;> exact nofun

theorem mul_finite_ne (h : f ≠ .notANumber) :
    UnpackedFloat.mul spec f (.finite sign mantissa exponent hmantissa) ≠ .notANumber := by
  cases f with
  | notANumber => exact absurd rfl h
  | finite => exact roundWithAccuracy_ne
  | infinity => exact nofun
  | zero => exact nofun

theorem div_finite_ne (h : f ≠ .notANumber) :
    UnpackedFloat.div spec f (.finite sign mantissa exponent hmantissa) ≠ .notANumber := by
  cases f with
  | notANumber => exact absurd rfl h
  | finite => exact roundWithAccuracy_ne
  | infinity => exact nofun
  | zero => exact nofun

theorem neg_ne (h : f ≠ .notANumber) : UnpackedFloat.neg f ≠ .notANumber := by
  cases f with
  | notANumber => exact absurd rfl h
  | _ => exact nofun

theorem ofInt_ne {n : Int} : UnpackedFloat.ofInt spec n ≠ .notANumber := by
  unfold UnpackedFloat.ofInt UnpackedFloat.normalize UnpackedFloat.round
  dsimp only
  split
  · exact roundWithAccuracy_ne
  · exact nofun
  · exact roundWithAccuracy_ne

theorem ofScientific_ne {m : Nat} {e : Int} :
    UnpackedFloat.ofScientific spec m e ≠ .notANumber := by
  fun_cases UnpackedFloat.ofScientific spec m e with
  | case1 => exact nofun
  | case2 => exact nofun
  | case3 => exact nofun
  | case4 => exact mul_finite_ne nofun
  | case5 => exact div_finite_ne nofun

end

/-! ## Floats that are equal to themselves -/

theorem self_beq_iff {x : Float} : (x == x) = true ↔ x.toModel.unpack ≠ .notANumber := by
  show UnpackedFloat.beq _ _ = true ↔ _
  rw [Float.Model.UnpackedFloat.beq_iff_ne_notANumber_and_eq]
  tauto

theorem exists_finite_power {e : Nat} (h : e < Float.exactlyRepresentablePowersOfTen.size) :
    ∃ sign mantissa exponent hmantissa, (Float.exactlyRepresentablePowersOfTen[e]).toModel.unpack =
      .finite sign mantissa exponent hmantissa := by
  have hfinite :
    ∀ e (_ : e < 23), (match (Float.exactlyRepresentablePowersOfTen[e]).toModel.unpack with
      | .finite .. => true
      | _ => false) = true := by decide +kernel
  have hpower := hfinite e h
  split at hpower
  · next sign mantissa exponent hmantissa heq => exact ⟨sign, mantissa, exponent, hmantissa, heq⟩
  · cases hpower

theorem self_beq_ofScientific (m : Nat) (small : Bool) (e : Nat) :
    (Float.ofScientific m small e == Float.ofScientific m small e) = true := by
  rw [self_beq_iff]
  unfold Float.ofScientific
  dsimp only
  split
  · next hfast =>
    have hsize : Float.exactlyRepresentablePowersOfTen.size = 23 := rfl
    obtain ⟨sign, mantissa, exponent, hmantissa, hpower⟩ := exists_finite_power (e := e) (by omega)
    have hwhole : (m.toUInt64.toFloat).toModel.unpack ≠ .notANumber := unpack_pack_ne ofInt_ne
    split
    · refine unpack_pack_ne ?_
      rw [hpower]
      exact div_finite_ne hwhole
    · refine unpack_pack_ne ?_
      rw [hpower]
      exact mul_finite_ne hwhole
  · exact unpack_pack_ne ofScientific_ne

theorem self_beq_neg {x : Float} (h : (x == x) = true) : (-x == -x) = true := by
  rw [self_beq_iff] at h ⊢
  exact unpack_pack_ne (neg_ne h)

theorem self_beq_ofParts (negative : Bool) (whole fraction : List Char) (exponent : Int) :
    (ofParts negative whole fraction exponent == ofParts negative whole fraction exponent) =
    true := by
  have hzero : ((0.0 : Float) == 0.0) = true := self_beq_ofScientific ..
  unfold ofParts
  dsimp only
  split_ifs
  · exact self_beq_neg hzero
  · exact self_beq_neg (self_beq_ofScientific ..)
  · exact self_beq_neg (self_beq_ofScientific ..)
  · exact hzero
  · exact self_beq_ofScientific ..
  · exact self_beq_ofScientific ..

/-- A numeral is read as a number. -/
theorem self_beq_literal {cs : List Char} {x : Float} (h : literal? cs = some x) :
    (x == x) = true := by
  simp only [literal?, Option.ite_none_right_eq_some, Option.some.injEq] at h
  obtain ⟨-, rfl⟩ := h
  exact self_beq_ofParts ..

end Decimal

/-! ## Forms that are alike to themselves -/

/-- What the scan finds is spelled somewhere. -/
theorem Token.exists_spells {source : String} {lexemes : List Lexeme}
    (h : scan source = .ok lexemes) {t : Token} (ht : t ∈ Lexeme.tokens lexemes) :
    ∃ word, t.Spells word := by
  obtain ⟨lexeme, hmem, rfl⟩ := List.mem_map.mp ht
  obtain ⟨_, word, _, -, hstands⟩ := (lossless_of_scan h).stands lexeme hmem
  exact ⟨word, hstands.spells⟩

theorem Token.self_beq_of_scan {source : String} {lexemes : List Lexeme}
    (h : scan source = .ok lexemes) {x : Float} (hx : .number x ∈ Lexeme.tokens lexemes) :
    (x == x) = true := by
  obtain ⟨word, hspells⟩ := exists_spells h hx
  cases hspells with
  | number _ _ hvalue => exact Decimal.self_beq_literal hvalue

namespace Form

mutual
theorem alike_self (f : Form) (h : ∀ x, .number x ∈ f.tokens → (x == x) = true) :
    f.alike f = true := by
  cases f with
  | number x => exact h x (List.mem_singleton_self _)
  | text content => exact beq_self_eq_true content
  | identifier name => exact beq_self_eq_true name
  | list items => exact allAlike_self items fun x hx => h x (by simp [tokens, hx])
theorem allAlike_self (fs : List Form) (h : ∀ x, .number x ∈ allTokens fs → (x == x) = true) :
    allAlike fs fs = true := by
  cases fs with
  | nil => rfl
  | cons f fs =>
    rw [allAlike, Bool.and_eq_true]
    exact ⟨alike_self f fun x hx => h x (List.mem_append_left _ hx),
      allAlike_self fs fun x hx => h x (List.mem_append_right _ hx)⟩
end

end Form

theorem Node.alike_self_of_ofProgram {source : String} {root : Node}
    (h : ofProgram source = .ok root) :
    root.form.alike root.form = true := by
  obtain ⟨lexemes, hscan, -⟩ := except_bind_eq_ok h
  have hscan := scan_eq_ok hscan
  have haccepts := ofProgram_accepts hscan
  rw [h] at haccepts
  obtain ⟨-, nodes, rfl, htokens⟩ := haccepts
  refine Form.alike_self _ fun x hx => Token.self_beq_of_scan hscan ?_
  rw [← htokens]
  simpa [ofForms, form, forms, Form.tokens, Form.allTokens] using hx

end LiveLisp
