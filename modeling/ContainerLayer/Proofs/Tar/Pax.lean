import ContainerLayer.Proofs.Tar.Number
import ContainerLayer.Tar.Pax

/-
Extension records read back as they were written.

The one circular part of the format is the length at the front of a record, which
counts its own digits.  `recordLength` finds the length that agrees with them.
-/

namespace ContainerLayer

namespace Tar
namespace Number

/-- The decimal digits of a number as bytes. -/
theorem ascii_toString (n : Nat) :
    ascii (toString n) = (Nat.toDigits 10 n).map fun c => UInt8.ofNat c.toNat := by
  rw [ascii, Nat.toString_eq_ofList_toDigits, String.toList_ofList]

theorem toNat_of_mem_toDigits {n : Nat} {c : Char} (h : c ∈ Nat.toDigits 10 n) :
    48 ≤ c.toNat ∧ c.toNat ≤ 57 := by
  have := Nat.isDigit_of_mem_toDigits (by decide) (by decide) h
  simpa [Char.isDigit, UInt32.le_iff_toNat_le] using this

theorem length_decimal (n : Nat) : (ascii (toString n)).length = (Nat.toDigits 10 n).length := by
  rw [ascii_toString, List.length_map]

theorem bound_of_mem_decimal {n : Nat} {x : UInt8} (h : x ∈ ascii (toString n)) :
    48 ≤ x.toNat ∧ x.toNat ≤ 57 := by
  rw [ascii_toString] at h
  obtain ⟨c, hc, rfl⟩ := List.mem_map.mp h
  have := toNat_of_mem_toDigits hc
  simp
  omega

theorem decode?_decimal (n : Nat) :
    Utf8.decode? (ascii (toString n)) = some (String.ofList (Nat.toDigits 10 n)) := by
  have hsmall : ∀ x ∈ ascii (toString n), x < 0x80 := by
    intro x hx
    have := bound_of_mem_decimal hx
    exact UInt8.lt_iff_toNat_lt.mpr (Nat.lt_of_le_of_lt this.2 (by decide))
  rw [Utf8.decode?_ascii hsmall, ascii_toString, List.map_map]
  congr 2
  conv => rhs; rw [← List.map_id (Nat.toDigits 10 n)]
  apply List.map_congr_left
  intro c hc
  have hbound := toNat_of_mem_toDigits hc
  have hc : (UInt8.ofNat c.toNat).toNat = c.toNat := by
    simp
    omega
  show Char.ofNat (UInt8.ofNat c.toNat).toNat = c
  rw [hc, Char.ofNat_toNat]

theorem ofText?_decimal {n : Nat} (h : n < 0x10000000000000000) :
    ofText? 10 (Nat.toDigits 10 n) = some n := by
  have hdigit : ∀ c ∈ Nat.toDigits 10 n, IsDigit 10 c := by
    intro c hc
    have := toNat_of_mem_toDigits hc
    refine ⟨this.1, ?_⟩
    show c.toNat - 48 < 10
    omega
  have hvalue : Nat.ofDigitChars 10 (Nat.toDigits 10 n) 0 = n := Nat.ofDigitChars_ten_toDigits
  rw [ofText?_of_isDigit (by decide) Nat.toDigits_ne_nil hdigit (by rw [hvalue]; exact h), hvalue]

end Number

namespace Pax

theorem self_lt_ten_pow (n : Nat) : 2 * n + 1 < 10 ^ (n + 1) := by
  induction n with
  | zero => decide
  | succ n ih =>
    rw [Nat.pow_succ]
    omega

/-- The length of a record counts its own digits. -/
theorem recordLength_spec {rest fuel digits : Nat} (hf : fuel + digits = rest + 1)
    (hd : 0 < digits) (hlow : digits = 1 ∨ 10 ^ (digits - 1) ≤ rest + (digits - 1)) :
    ∃ k, recordLength fuel rest digits (10 ^ digits) = rest + k ∧ rest + k < 10 ^ k ∧ 0 < k
      ∧ (k = 1 ∨ 10 ^ (k - 1) ≤ rest + (k - 1)) := by
  induction fuel generalizing digits with
  | zero =>
    refine ⟨digits, rfl, ?_, hd, hlow⟩
    have e : digits = rest + 1 := by omega
    have := self_lt_ten_pow rest
    rw [e]
    omega
  | succ fuel ih =>
    rw [recordLength]
    split
    · exact ⟨digits, rfl, ‹_›, hd, hlow⟩
    · rename_i hge
      rw [← Nat.pow_succ]
      exact ih (by omega) (by omega) (.inr (by rw [Nat.add_sub_cancel]; omega))

theorem length_digits_recordLength (rest : Nat) :
    recordLength rest rest 1 10
      = rest + (Nat.toDigits 10 (recordLength rest rest 1 10)).length := by
  obtain ⟨k, e, hlt, hk, hlow⟩ :=
    recordLength_spec (show rest + 1 = rest + 1 from rfl) (by decide) (.inl rfl)
  have e : recordLength rest rest 1 10 = rest + k := e
  have hle : (Nat.toDigits 10 (rest + k)).length ≤ k :=
    (Nat.length_toDigits_le_iff (by decide) hk).mpr hlt
  have hpos : 0 < (Nat.toDigits 10 (rest + k)).length := Nat.length_toDigits_pos
  have hge : k ≤ (Nat.toDigits 10 (rest + k)).length := by
    rcases hlow with rfl | hlow
    · exact hpos
    · apply Classical.byContradiction
      intro hshort
      have := (Nat.length_toDigits_le_iff (b := 10) (n := rest + k) (k := k - 1) (by decide)
        (by omega)).mp (by omega)
      omega
  rw [e]
  omega

/-! ## Records -/

/-- The record can stand on a line: its key ends at the first `=`. -/
structure IsLine (r : PaxRecord) : Prop where
  key_equals : (61 : UInt8) ∉ r.key
  key_newline : (10 : UInt8) ∉ r.key
  value_newline : (10 : UInt8) ∉ r.value

theorem isLine_of_parseLine {line : Bytes} {r : PaxRecord} (hl : (10 : UInt8) ∉ line)
    (h : parseLine line = some r) : IsLine r := by
  unfold parseLine at h
  simp only [Option.bind_eq_bind, Option.bind_eq_some_iff] at h
  obtain ⟨rest, hrest, _, _, _, _, h⟩ := h
  split at h
  · cases h
  · rw [Option.bind_eq_some_iff] at h
    obtain ⟨value, hvalue, h⟩ := h
    cases h
    have hline := (Bytes.append_tail_dropWhile hrest).1
    obtain ⟨hkey, hequals⟩ := Bytes.append_tail_dropWhile hvalue
    have hsub : ∀ x ∈ rest, x ∈ line := by
      intro x hx
      rw [hline]
      exact List.mem_append_right _ (List.mem_cons_of_mem _ hx)
    refine ⟨hequals, fun hk => hl (hsub _ ?_), fun hv => hl (hsub _ ?_)⟩
    · rw [hkey]
      exact List.mem_append_left _ hk
    · rw [hkey]
      exact List.mem_append_right _ (List.mem_cons_of_mem _ hv)

theorem isLine_of_mem_records {data : Bytes} {r : PaxRecord} (h : some r ∈ records data) :
    IsLine r := by
  obtain ⟨line, hline, hr⟩ := List.mem_map.mp h
  have hmem := (List.takeWhile_sublist _).subset hline
  exact isLine_of_parseLine (Bytes.not_mem_of_mem_splitOn hmem) hr

/-- A record on its line, without the newline. -/
def lineOf (r : PaxRecord) : Bytes :=
  let rest := 3 + r.key.length + r.value.length
  ascii (toString (recordLength rest rest 1 10)) ++ 32 :: (r.key ++ 61 :: r.value)

theorem renderRecord_eq (r : PaxRecord) : renderRecord r.key r.value = lineOf r ++ [10] := by
  simp [renderRecord, lineOf]

theorem length_lineOf (r : PaxRecord) :
    (lineOf r).length + 1 = recordLength (3 + r.key.length + r.value.length)
      (3 + r.key.length + r.value.length) 1 10 := by
  have h := length_digits_recordLength (3 + r.key.length + r.value.length)
  rw [h]
  simp only [lineOf, List.length_append, List.length_cons, Number.length_decimal]
  omega

theorem not_mem_lineOf {r : PaxRecord} (h : IsLine r) : (10 : UInt8) ∉ lineOf r := by
  intro hm
  simp only [lineOf, List.mem_append, List.mem_cons] at hm
  rcases hm with hm | hm | hm | hm | hm
  · exact absurd (Number.bound_of_mem_decimal hm).1 (by decide)
  · cases hm
  · exact h.key_newline hm
  · cases hm
  · exact h.value_newline hm

theorem lineOf_ne_nil (r : PaxRecord) : lineOf r ≠ [] := by
  intro e
  have := congrArg List.length e
  simp [lineOf] at this

theorem parseLine_lineOf {r : PaxRecord} (h : IsLine r)
    (hlt : (lineOf r).length + 1 < 0x10000000000000000) : parseLine (lineOf r) = some r := by
  have hlen := length_lineOf r
  rw [hlen] at hlt
  have hspace : (32 : UInt8) ∉ ascii (toString (recordLength (3 + r.key.length + r.value.length)
      (3 + r.key.length + r.value.length) 1 10)) := by
    intro hm
    exact absurd (Number.bound_of_mem_decimal hm).1 (by decide)
  obtain ⟨h₁, h₂⟩ := Bytes.takeWhile_of_not_mem hspace (r.key ++ 61 :: r.value)
  obtain ⟨h₃, h₄⟩ := Bytes.takeWhile_of_not_mem h.key_equals r.value
  have hdigits : (lineOf r).takeWhile (· != 32) = ascii (toString (recordLength
      (3 + r.key.length + r.value.length) (3 + r.key.length + r.value.length) 1 10)) := h₁
  have hrest : ((lineOf r).dropWhile (· != 32)).tail? = some (r.key ++ 61 :: r.value) := by
    show (List.dropWhile _ (_ ++ 32 :: (r.key ++ 61 :: r.value))).tail? = _
    rw [h₂]
    rfl
  unfold parseLine
  simp only [hdigits, hrest, Option.bind_eq_bind, Option.bind_some, Number.decode?_decimal,
    String.toList_ofList, Number.ofText?_decimal hlt]
  rw [if_neg fun hne => hne hlen.symm, h₃, h₄]
  rfl

theorem render_cons (r : PaxRecord) (rs : List PaxRecord) :
    render (r :: rs) = lineOf r ++ 10 :: render rs := by
  show renderRecord r.key r.value ++ render rs = _
  rw [renderRecord_eq, List.append_assoc]
  rfl

/-- Records that were written are read back. -/
theorem records_render {rs : List PaxRecord} (h : ∀ r ∈ rs, IsLine r)
    (hlt : (render rs).length < 0x10000000000000000) : records (render rs) = rs.map some := by
  induction rs with
  | nil => rfl
  | cons r rs ih =>
    have hr := h r List.mem_cons_self
    rw [render_cons] at hlt ⊢
    simp only [List.length_append, List.length_cons] at hlt
    have ih := ih (fun r hr => h r (List.mem_cons_of_mem _ hr)) (by omega)
    unfold records at ih ⊢
    rw [Bytes.splitOn_append_of_not_mem (not_mem_lineOf hr), List.takeWhile_cons_of_pos,
      List.map_cons, ih, parseLine_lineOf hr (by omega)]
    · rfl
    · simp [lineOf_ne_nil]

/-! ## Look-ups -/

theorem numberAmong?_eq_none {key : Bytes} {rs : List PaxRecord} (h : ∀ r ∈ rs, r.key ≠ key) :
    numberAmong? key (rs.map some) = none := by
  induction rs with
  | nil => rfl
  | cons r rs ih =>
    rw [List.map_cons, numberAmong?, if_neg (h r List.mem_cons_self)]
    exact ih fun r' hr' => h r' (List.mem_cons_of_mem r hr')

theorem value?_eq_none {key data : Bytes} {rs : List PaxRecord} (hrs : records data = rs.map some)
    (h : ∀ r ∈ rs, r.key ≠ key) : value? key data = none := by
  rw [value?, hrs, List.findSome?_eq_none_iff]
  intro r hr
  obtain ⟨r', hr', rfl⟩ := List.mem_map.mp hr
  exact if_neg (h r' hr')

end Pax
end Tar
end ContainerLayer
