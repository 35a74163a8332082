import ContainerLayer.Proofs.Bytes
import ContainerLayer.Proofs.Text.Utf8
import ContainerLayer.Tar.Number

/-
Numbers read back from the fields that they were written to.

The digits of a number read as that number in any base up to ten (`ofText?_of_isDigit`),
which settles octal fields and the lengths of records alike.
-/

namespace ContainerLayer

namespace Tar
namespace Number

/-- The character is a digit in the given base. -/
def IsDigit (base : Nat) (c : Char) : Prop := '0' ≤ c ∧ c.toNat - '0'.toNat < base

theorem IsDigit.digit? {base : Nat} {c : Char} (h : IsDigit base c) :
    digit? base c = some (c.toNat - '0'.toNat) := by
  have h₂ : c.toNat - 48 < base := h.2
  simp [Number.digit?, h.1, h₂]

theorem IsDigit.ne_plus {base : Nat} {c : Char} (h : IsDigit base c) : c ≠ '+' := by
  intro e
  subst e
  exact absurd h.1 (by decide)

theorem IsDigit.not_isBlank {base : Nat} (hb : base ≤ 10) {c : Char} (h : IsDigit base c) :
    Text.isBlank c = false := by
  have h₁ : 48 ≤ c.toNat := h.1
  have h₂ : c.toNat - 48 < base := h.2
  simp [Text.isBlank]
  omega

theorem le_ofDigitChars {base : Nat} (hb : 0 < base) (cs : List Char) (n : Nat) :
    n ≤ Nat.ofDigitChars base cs n := by
  induction cs generalizing n with
  | nil => simp
  | cons c cs ih =>
    rw [Nat.ofDigitChars_cons]
    refine Nat.le_trans ?_ (ih _)
    have : n ≤ base * n := Nat.le_mul_of_pos_left n hb
    omega

/-- Digits are read as the number that they stand for, if it is not too large. -/
theorem ofText?_of_isDigit {base : Nat} {cs : List Char} (hb : 0 < base) (hne : cs ≠ [])
    (hd : ∀ c ∈ cs, IsDigit base c) (hlt : Nat.ofDigitChars base cs 0 < 0x10000000000000000) :
    ofText? base cs = some (Nat.ofDigitChars base cs 0) := by
  have step : ∀ (cs : List Char) (n : Nat), (∀ c ∈ cs, IsDigit base c) →
      Nat.ofDigitChars base cs n < 0x10000000000000000 →
      cs.foldlM (fun n c => do
        let m := n * base + (← digit? base c)
        if m < 0x10000000000000000 then some m else none) n
        = some (Nat.ofDigitChars base cs n) := by
    intro cs
    induction cs with
    | nil => exact fun n _ _ => by simp
    | cons c cs ih =>
      intro n hd hlt
      rw [Nat.ofDigitChars_cons, Nat.mul_comm base n] at hlt ⊢
      have hc := (hd c List.mem_cons_self).digit?
      have hm := Nat.lt_of_le_of_lt (le_ofDigitChars hb cs _) hlt
      rw [List.foldlM_cons, hc]
      show (if n * base + (c.toNat - '0'.toNat) < 0x10000000000000000
        then some (n * base + (c.toNat - '0'.toNat)) else none) >>= _ = _
      rw [if_pos hm]
      exact ih _ (fun x hx => hd x (List.mem_cons_of_mem c hx)) hlt
  have h : ofDigits? base cs = some (Nat.ofDigitChars base cs 0) := by
    rw [ofDigits?, if_neg hne, step cs 0 hd hlt]
  unfold ofText?
  split
  · exact absurd rfl (hd '+' List.mem_cons_self).ne_plus
  · exact h

/-- The character of an octal digit. -/
def octalChar (n : Nat) : Char := Char.ofNat (UInt8.ofNat (48 + n % 8)).toNat

theorem octalDigit_toNat (n : Nat) : (UInt8.ofNat (48 + n % 8)).toNat = 48 + n % 8 := by
  simp
  omega

theorem octalChar_toNat (n : Nat) : (octalChar n).toNat = 48 + n % 8 := by
  unfold octalChar
  rw [octalDigit_toNat]
  exact Utf8.toNat_ofNat (by omega)

theorem isDigit_octalChar (n : Nat) : IsDigit 8 (octalChar n) := by
  have h := octalChar_toNat n
  refine ⟨?_, ?_⟩
  · show 48 ≤ (octalChar n).toNat
    omega
  · show (octalChar n).toNat - 48 < 8
    omega

/-- The octal digits of a number as characters. -/
def octalChars (count n : Nat) : List Char :=
  (octalDigits count n).reverse.map fun x => Char.ofNat x.toNat

theorem octalChars_succ (count n : Nat) :
    octalChars (count + 1) n = octalChars count (n / 8) ++ [octalChar n] := by
  simp [octalChars, octalDigits, octalChar]

theorem isDigit_of_mem_octalChars {count n : Nat} {c : Char} (h : c ∈ octalChars count n) :
    IsDigit 8 c := by
  induction count generalizing n with
  | zero => cases h
  | succ count ih =>
    rw [octalChars_succ] at h
    rcases List.mem_append.mp h with h | h
    · exact ih h
    · rw [List.mem_singleton.mp h]
      exact isDigit_octalChar n

theorem ofDigitChars_octalChars {count n : Nat} (h : n < 8 ^ count) :
    Nat.ofDigitChars 8 (octalChars count n) 0 = n := by
  induction count generalizing n with
  | zero =>
    have : n = 0 := by simpa using h
    subst this
    rfl
  | succ count ih =>
    have hdiv : n / 8 < 8 ^ count := by
      rw [Nat.pow_succ] at h
      exact Nat.div_lt_of_lt_mul (by omega)
    have hc : (octalChar n).toNat - '0'.toNat = n % 8 := by
      rw [octalChar_toNat]
      exact Nat.add_sub_cancel_left 48 (n % 8)
    rw [octalChars_succ, Nat.ofDigitChars_append, ih hdiv, Nat.ofDigitChars_cons, hc,
      Nat.ofDigitChars_nil]
    omega

theorem octalDigits_bound {count n : Nat} {x : UInt8} (h : x ∈ octalDigits count n) :
    48 ≤ x.toNat ∧ x.toNat < 0x80 := by
  induction count generalizing n with
  | zero => cases h
  | succ count ih =>
    rcases List.mem_cons.mp h with rfl | h
    · rw [octalDigit_toNat]
      omega
    · exact ih h

theorem trimBlanks_of_isDigit {base : Nat} (hb : base ≤ 10) {cs : List Char}
    (h : ∀ c ∈ cs, IsDigit base c) : Text.trimBlanks cs = cs := by
  have keep : ∀ cs : List Char, (∀ c ∈ cs, IsDigit base c) → cs.dropWhile Text.isBlank = cs := by
    intro cs h
    cases cs with
    | nil => rfl
    | cons c cs =>
      rw [List.dropWhile_cons_of_neg]
      simp [(h c List.mem_cons_self).not_isBlank hb]
  rw [Text.trimBlanks, keep cs h, keep cs.reverse fun c hc => h c (List.mem_reverse.mp hc),
    List.reverse_reverse]

/-- An octal field gives back the number that was written to it. -/
theorem ofOctal_toOctal {width n : Nat} (hw : 2 ≤ width) (h : n < 8 ^ (width - 1))
    (hlt : n < 0x10000000000000000) : ofOctal (toOctal width n) = .ok n := by
  have hbound : ∀ x ∈ (octalDigits (width - 1) n).reverse, 48 ≤ x.toNat ∧ x.toNat < 0x80 :=
    fun x hx => octalDigits_bound (List.mem_reverse.mp hx)
  have htext : (toOctal width n).untilZero = (octalDigits (width - 1) n).reverse := by
    rw [toOctal, if_neg (by omega)]
    apply Bytes.untilZero_append_zero
    intro h0
    exact absurd (hbound 0 h0).1 (by decide)
  have hdecode : Utf8.decode? (octalDigits (width - 1) n).reverse
      = some (String.ofList (octalChars (width - 1) n)) :=
    Utf8.decode?_ascii fun x hx => UInt8.lt_iff_toNat_lt.mpr (hbound x hx).2
  have hne : octalChars (width - 1) n ≠ [] := by
    intro e
    have := congrArg List.length e
    simp only [octalChars, List.length_map, List.length_reverse, length_octalDigits,
      List.length_nil] at this
    omega
  have hread := ofText?_of_isDigit (show 0 < 8 by decide) hne
    (fun c hc => isDigit_of_mem_octalChars hc) (by rw [ofDigitChars_octalChars h]; exact hlt)
  rw [ofDigitChars_octalChars h] at hread
  rw [ofOctal, htext, hdecode]
  dsimp only
  rw [String.toList_ofList, trimBlanks_of_isDigit (by decide)
    (fun c hc => isDigit_of_mem_octalChars hc), hread]

/-- A field of twelve bytes gives back the number that was written to it. -/
theorem ofField_toField {n : Nat} (h : n < 0x10000000000000000) :
    ofField (toField 12 n) = .ok n := by
  unfold toField
  split
  · have hfield : toBinary 12 n = 128 :: 0 :: 0 :: 0 :: Bytes.ofNatBigEndian 8 n := rfl
    rw [hfield, ofField, if_pos (by decide)]
    have hlen := Bytes.length_ofNatBigEndian 8 n
    rw [ofBinary, if_neg (by simp [hlen])]
    simp only [List.length_cons, hlen]
    show Except.ok (Bytes.bigEndian (Bytes.ofNatBigEndian 8 n)) = _
    rw [Bytes.bigEndian_ofNatBigEndian h]
  · rename_i hsmall
    have hn : n < 8 ^ 11 := by
      simp at hsmall
      omega
    have hread : ofOctal (toOctal 12 n) = .ok n := ofOctal_toOctal (by decide) hn h
    cases hfield : toOctal 12 n with
    | nil => rw [ofField, ← hfield, hread]
    | cons x r =>
      have hx : x.toNat < 0x80 := by
        have hmem : x ∈ toOctal 12 n := by
          rw [hfield]
          exact List.mem_cons_self
        rw [toOctal, if_neg (by decide)] at hmem
        rcases List.mem_append.mp hmem with hmem | hmem
        · exact (octalDigits_bound (List.mem_reverse.mp hmem)).2
        · rw [List.mem_singleton.mp hmem]
          decide
      rw [ofField, if_neg, ← hfield, hread]
      rw [UInt8.le_iff_toNat_le]
      exact Nat.not_le.mpr hx

end Number
end Tar
end ContainerLayer
