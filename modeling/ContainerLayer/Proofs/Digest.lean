import ContainerLayer.Digest

/-
The digests that hashing gives.

A SHA-256 value in hexadecimal is always a well-formed value of its algorithm, so a
digest can be made of it whatever was hashed.
-/

namespace ContainerLayer

theorem Bytes.length_flatMap_hexDigits (b : Bytes) :
    (b.flatMap hexDigits).length = 2 * b.length := by
  induction b with
  | nil => rfl
  | cons x b ih =>
    simp only [List.flatMap_cons, List.length_append, ih, List.length_cons, hexDigits,
      List.length_nil]
    omega

namespace Digest

theorem isHexChar_digitChar : ∀ n < 16, isHexChar (Nat.digitChar n) = true := by decide

theorem isHexChar_of_mem_hexDigits {b : Bytes} {c : Char} (h : c ∈ b.flatMap Bytes.hexDigits) :
    isHexChar c = true := by
  obtain ⟨x, _, hx⟩ := List.mem_flatMap.mp h
  have := x.toNat_lt
  rcases List.mem_cons.mp hx with rfl | hx
  · exact isHexChar_digitChar _ (by omega)
  · rw [List.mem_singleton.mp hx]
    exact isHexChar_digitChar _ (by omega)

theorem isValueChar_of_isHexChar {c : Char} (h : isHexChar c = true) : isValueChar c = true := by
  unfold isHexChar at h
  unfold isValueChar isPartChar
  rcases Bool.or_eq_true_iff.mp h with h | h
  · simp [h]
  · have hc : 'a' ≤ c ∧ c ≤ 'f' := by simpa using h
    have : c ≤ 'z' := Char.le_trans hc.2 (by decide)
    simp [hc.1, this]

/-- The check of a value of the right length passes for hexadecimal digits. -/
theorem checkValue_hexDigits {value : Bytes} (h : value.length = 32) :
    checkValue "sha256" (value.flatMap Bytes.hexDigits) = .ok () := by
  have hlen : (value.flatMap Bytes.hexDigits).length = 64 := by
    rw [Bytes.length_flatMap_hexDigits, h]
  have hne : value.flatMap Bytes.hexDigits ≠ [] := by
    intro e
    rw [e] at hlen
    cases hlen
  have hvalue : (value.flatMap Bytes.hexDigits).all isValueChar = true :=
    List.all_eq_true.mpr fun c hc => isValueChar_of_isHexChar (isHexChar_of_mem_hexDigits hc)
  have hhex : (value.flatMap Bytes.hexDigits).all isHexChar = true :=
    List.all_eq_true.mpr fun c hc => isHexChar_of_mem_hexDigits hc
  rw [checkValue, if_neg hne, hvalue]
  show (if (value.flatMap Bytes.hexDigits).length ≠ 64 then _
    else if (value.flatMap Bytes.hexDigits).all isHexChar then _ else _) = Except.ok ()
  rw [hlen, hhex]
  rfl

theorem ofSha256_eq {value : Bytes} (h : value.length = 32) :
    ofSha256 value = .ok ⟨"sha256", value.hex⟩ := by
  have htext : ("sha256:" ++ value.hex).toList
      = ['s', 'h', 'a', '2', '5', '6', ':'] ++ value.flatMap Bytes.hexDigits := by
    simp [Bytes.hex]
  simp only [ofSha256, parse, htext]
  show (checkParts (parts ['s', 'h', 'a', '2', '5', '6']) >>= fun _ =>
    checkValue "sha256" (value.flatMap Bytes.hexDigits) >>= fun _ => _) = _
  rw [checkValue_hexDigits h]
  rfl

end Digest
end ContainerLayer
