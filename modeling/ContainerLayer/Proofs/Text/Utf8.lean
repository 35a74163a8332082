import ContainerLayer.Text.Utf8

/-
Text that was read from bytes encodes to those bytes again.

A token that is a character takes the bytes that encode the character (`step_char`), so
the characters of a well-formed text spell out all of its bytes.
-/

namespace ContainerLayer
namespace Utf8

theorem tokensOnto_eq (acc : List Utf8Token) (b : Bytes) :
    tokensOnto acc b = acc.reverse ++ tokensOnto [] b := by
  induction hn : b.length using Nat.strongRecOn generalizing acc b with
  | ind n ih =>
    cases b with
    | nil => simp [tokensOnto]
    | cons a r =>
      have hlt : (r.drop (step a r).2).length < n := by
        simp only [List.length_cons] at hn
        simp only [List.length_drop]
        omega
      rw [tokensOnto, tokensOnto]
      dsimp only
      rw [ih _ hlt _ _ rfl, ih _ hlt [(step a r).1] _ rfl]
      simp

@[simp] theorem tokens_nil : tokens [] = [] := by simp [tokens, tokensOnto]

theorem tokens_cons (a : UInt8) (r : Bytes) :
    tokens (a :: r) = (step a r).1 :: tokens (r.drop (step a r).2) := by
  rw [tokens, tokensOnto]
  dsimp only
  rw [tokensOnto_eq]
  rfl

/-- The character of a token, if it is one. -/
def charOf : Utf8Token → Option Char
  | .char c => some c
  | .stray _ _ => none

theorem decode?_eq (b : Bytes) : decode? b = ((tokens b).mapM charOf).map String.ofList := rfl

theorem step_ascii {a : UInt8} (h : a < 0x80) (r : Bytes) :
    step a r = (.char (Char.ofNat a.toNat), 0) := by
  unfold step
  rw [if_pos h]

/-- Bytes of ASCII characters are those characters. -/
theorem decode?_ascii {b : Bytes} (h : ∀ x ∈ b, x < 0x80) :
    decode? b = some (String.ofList (b.map fun x => Char.ofNat x.toNat)) := by
  have hm : (tokens b).mapM charOf = some (b.map fun x => Char.ofNat x.toNat) := by
    induction b with
    | nil => simp
    | cons a r ih =>
      have ih := ih fun x hx => h x (List.mem_cons_of_mem a hx)
      rw [tokens_cons, step_ascii (h a List.mem_cons_self), List.drop_zero, List.mapM_cons, ih]
      rfl
  rw [decode?_eq, hm]
  rfl

theorem toNat_ofNat {n : Nat} (h : n < 0xD800 ∨ 0xDFFF < n ∧ n < 0x110000) :
    (Char.ofNat n).val.toNat = n := by
  rw [Char.ofNat, dif_pos (show n.isValidChar from h)]
  rfl

theorem isContinuation_toNat {b : UInt8} (h : isContinuation b = true) :
    0x80 ≤ b.toNat ∧ b.toNat < 0xC0 := by
  simp [isContinuation, UInt8.le_iff_toNat_le] at h
  omega

theorem secondOfThree_toNat {a b : UInt8} (h : secondOfThree a b = true) :
    0x80 ≤ b.toNat ∧ b.toNat < 0xC0 ∧ (a.toNat = 0xE0 → 0xA0 ≤ b.toNat)
      ∧ (a.toNat = 0xED → b.toNat < 0xA0) := by
  unfold secondOfThree at h
  split at h
  · rename_i ha
    simp [UInt8.le_iff_toNat_le] at h
    simp [ha]
    omega
  split at h
  · rename_i ha
    simp [UInt8.le_iff_toNat_le] at h
    simp [ha]
    omega
  · rename_i ha ha'
    rw [← UInt8.toNat_inj] at ha ha'
    exact ⟨(isContinuation_toNat h).1, (isContinuation_toNat h).2, fun e => absurd e ha,
      fun e => absurd e ha'⟩

theorem secondOfFour_toNat {a b : UInt8} (h : secondOfFour a b = true) :
    0x80 ≤ b.toNat ∧ b.toNat < 0xC0 ∧ (a.toNat = 0xF0 → 0x90 ≤ b.toNat)
      ∧ (a.toNat = 0xF4 → b.toNat < 0x90) := by
  unfold secondOfFour at h
  split at h
  · rename_i ha
    simp [UInt8.le_iff_toNat_le] at h
    simp [ha]
    omega
  split at h
  · rename_i ha
    simp [UInt8.le_iff_toNat_le] at h
    simp [ha]
    omega
  · rename_i ha ha'
    rw [← UInt8.toNat_inj] at ha ha'
    exact ⟨(isContinuation_toNat h).1, (isContinuation_toNat h).2, fun e => absurd e ha,
      fun e => absurd e ha'⟩

theorem ofNat_eq {n : Nat} {a : UInt8} (h : n = a.toNat) : UInt8.ofNat n = a := by
  rw [h, UInt8.ofNat_toNat]

theorem encode_one {a : UInt8} (h : a.toNat < 0x80) :
    String.utf8EncodeChar (Char.ofNat a.toNat) = [a] := by
  have hv := toNat_ofNat (n := a.toNat) (by omega)
  rw [String.utf8EncodeChar, hv, if_pos (by omega), ofNat_eq rfl]

theorem encode_two {a b : UInt8} (ha : 0xC2 ≤ a.toNat) (ha' : a.toNat ≤ 0xDF)
    (hb : 0x80 ≤ b.toNat ∧ b.toNat < 0xC0) :
    String.utf8EncodeChar (Char.ofNat (a.toNat % 32 * 64 + payload b)) = [a, b] := by
  unfold payload
  have hv := toNat_ofNat (n := a.toNat % 32 * 64 + b.toNat % 64) (by omega)
  rw [String.utf8EncodeChar, hv, if_neg (by omega), if_pos (by omega),
    @ofNat_eq _ a (by omega), @ofNat_eq _ b (by omega)]

theorem encode_three {a b c : UInt8} (ha : 0xE0 ≤ a.toNat) (ha' : a.toNat ≤ 0xEF)
    (hb : secondOfThree a b = true) (hc : isContinuation c = true) :
    String.utf8EncodeChar (Char.ofNat ((a.toNat % 16 * 64 + payload b) * 64 + payload c))
      = [a, b, c] := by
  have hb := secondOfThree_toNat hb
  have hc := isContinuation_toNat hc
  unfold payload
  have hv := toNat_ofNat (n := (a.toNat % 16 * 64 + b.toNat % 64) * 64 + c.toNat % 64) (by omega)
  rw [String.utf8EncodeChar, hv, if_neg (by omega), if_neg (by omega), if_pos (by omega),
    @ofNat_eq _ a (by omega), @ofNat_eq _ b (by omega), @ofNat_eq _ c (by omega)]

theorem encode_four {a b c d : UInt8} (ha : 0xF0 ≤ a.toNat) (ha' : a.toNat ≤ 0xF4)
    (hb : secondOfFour a b = true) (hc : isContinuation c = true)
    (hd : isContinuation d = true) :
    String.utf8EncodeChar
        (Char.ofNat (((a.toNat % 8 * 64 + payload b) * 64 + payload c) * 64 + payload d))
      = [a, b, c, d] := by
  have hb := secondOfFour_toNat hb
  have hc := isContinuation_toNat hc
  have hd := isContinuation_toNat hd
  unfold payload
  have hv := toNat_ofNat
    (n := ((a.toNat % 8 * 64 + b.toNat % 64) * 64 + c.toNat % 64) * 64 + d.toNat % 64) (by omega)
  rw [String.utf8EncodeChar, hv, if_neg (by omega), if_neg (by omega), if_neg (by omega),
    @ofNat_eq _ a (by omega), @ofNat_eq _ b (by omega), @ofNat_eq _ c (by omega),
    @ofNat_eq _ d (by omega)]

/-- A character is spelled by the bytes that its token takes. -/
theorem step_char {a : UInt8} {r : Bytes} {c : Char} {n : Nat} (h : step a r = (.char c, n)) :
    a :: r.take n = String.utf8EncodeChar c := by
  unfold step at h
  split at h
  · rename_i ha
    rw [UInt8.lt_iff_toNat_lt] at ha
    cases h
    rw [encode_one ha]
    rfl
  split at h
  · rename_i ha
    simp [UInt8.le_iff_toNat_le] at ha
    split at h
    · cases h
    split at h
    · rename_i hb
      cases h
      rw [encode_two ha.1 ha.2 (isContinuation_toNat hb)]
      rfl
    · cases h
  split at h
  · rename_i ha
    simp [UInt8.le_iff_toNat_le] at ha
    split at h
    · cases h
    · split at h <;> cases h
    split at h
    · cases h
    split at h
    · cases h
    · rename_i hb hc
      cases h
      rw [encode_three ha.1 ha.2 (by simpa using hb) (by simpa using hc)]
      rfl
  split at h
  · rename_i ha
    simp [UInt8.le_iff_toNat_le] at ha
    split at h
    · cases h
    · split at h <;> cases h
    · split at h
      · cases h
      · split at h <;> cases h
    split at h
    · cases h
    split at h
    · cases h
    split at h
    · cases h
    · rename_i hb hc hd
      cases h
      rw [encode_four ha.1 ha.2 (by simpa using hb) (by simpa using hc) (by simpa using hd)]
      rfl
  · cases h

theorem flatMap_encode {b : Bytes} {cs : List Char} (h : (tokens b).mapM charOf = some cs) :
    cs.flatMap String.utf8EncodeChar = b := by
  induction hn : b.length using Nat.strongRecOn generalizing b cs with
  | ind n ih =>
    cases b with
    | nil =>
      rw [tokens_nil, List.mapM_nil] at h
      cases h
      rfl
    | cons a r =>
      rw [tokens_cons, List.mapM_cons] at h
      cases hs : step a r with
      | mk t k =>
        rw [hs] at h
        cases t with
        | stray b cut => cases h
        | char c =>
          cases hrest : (tokens (r.drop k)).mapM charOf with
          | none => simp [charOf, hrest] at h
          | some cs' =>
            simp only [charOf, hrest] at h
            cases h
            have hlt : (r.drop k).length < n := by
              simp only [List.length_cons] at hn
              simp only [List.length_drop]
              omega
            rw [List.flatMap_cons, ih _ hlt hrest rfl, ← step_char hs, List.cons_append,
              List.take_append_drop]

theorem toList_loop (b : ByteArray) (k : Nat) (front : Bytes) :
    ByteArray.toList.loop b k front = front.reverse ++ b.data.toList.drop k := by
  fun_induction ByteArray.toList.loop b k front with
  | case1 k front hk ih =>
    have hk' : k < b.data.toList.length := hk
    have hget : b.get! k = b.data.toList[k] := getElem!_pos b.data k hk
    rw [ih, List.drop_eq_getElem_cons hk', hget]
    simp
  | case2 k front hk =>
    rw [List.drop_eq_nil_of_le (Nat.le_of_not_lt hk), List.append_nil]

theorem toList_toByteArray (b : Bytes) : b.toByteArray.toList = b := by
  rw [ByteArray.toList, toList_loop, List.toList_data_toByteArray]
  rfl

/-- A text that was read encodes to the bytes that it was read from. -/
theorem ofText_of_decode? {b : Bytes} {s : String} (h : decode? b = some s) :
    Bytes.ofText s = b := by
  rw [decode?_eq, Option.map_eq_some_iff] at h
  obtain ⟨cs, hcs, rfl⟩ := h
  have hcs := flatMap_encode hcs
  rw [Bytes.ofText, String.toUTF8_eq_toByteArray, String.toByteArray_ofList, List.utf8Encode, hcs,
    toList_toByteArray]

end Utf8
end ContainerLayer
