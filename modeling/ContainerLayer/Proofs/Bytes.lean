import ContainerLayer.Bytes
import Mathlib.Algebra.Ring.Nat

/-
Strings of bytes: splitting at a separator, the text in front of a zero byte, and
numbers in big-endian order.
-/

namespace ContainerLayer
namespace Bytes

theorem splitOn_cons (sep x : UInt8) (b : Bytes) :
    splitOn sep (x :: b) = splitStep sep x (splitOn sep b) := rfl

theorem splitOn_ne_nil (sep : UInt8) (b : Bytes) : splitOn sep b ≠ [] := by
  induction b with
  | nil => simp [splitOn]
  | cons x b ih =>
    rw [splitOn_cons]
    cases h : splitOn sep b with
    | nil => exact absurd h ih
    | cons p ps =>
      simp only [splitStep]
      split <;> simp

theorem splitOn_sep_cons (sep : UInt8) (b : Bytes) :
    splitOn sep (sep :: b) = [] :: splitOn sep b := by
  rw [splitOn_cons]
  cases h : splitOn sep b with
  | nil => exact absurd h (splitOn_ne_nil sep b)
  | cons p ps => simp [splitStep]

theorem splitOn_append (sep : UInt8) (a b : Bytes) :
    splitOn sep (a ++ sep :: b) = splitOn sep a ++ splitOn sep b := by
  induction a with
  | nil => exact splitOn_sep_cons sep b
  | cons x a ih =>
    rw [List.cons_append, splitOn_cons, ih, splitOn_cons]
    cases h : splitOn sep a with
    | nil => exact absurd h (splitOn_ne_nil sep a)
    | cons p ps =>
      simp only [splitStep, List.cons_append]
      split <;> rfl

theorem splitOn_of_not_mem {sep : UInt8} {b : Bytes} (h : sep ∉ b) : splitOn sep b = [b] := by
  induction b with
  | nil => rfl
  | cons x b ih =>
    simp only [List.mem_cons, not_or] at h
    rw [splitOn_cons, ih h.2]
    simp [splitStep, Ne.symm h.1]

theorem not_mem_of_mem_splitOn {sep : UInt8} {b part : Bytes} (h : part ∈ splitOn sep b) :
    sep ∉ part := by
  induction b generalizing part with
  | nil =>
    rw [List.mem_singleton.mp h]
    exact List.not_mem_nil
  | cons x b ih =>
    rw [splitOn_cons] at h
    cases hs : splitOn sep b with
    | nil => exact absurd hs (splitOn_ne_nil sep b)
    | cons p ps =>
      rw [hs] at h ih
      unfold splitStep at h
      dsimp only at h
      split at h
      · rcases List.mem_cons.mp h with rfl | h
        · exact List.not_mem_nil
        · exact ih h
      · rename_i hx
        rcases List.mem_cons.mp h with rfl | h
        · rw [List.mem_cons, not_or]
          exact ⟨Ne.symm hx, ih List.mem_cons_self⟩
        · exact ih (List.mem_cons_of_mem p h)

theorem mem_of_mem_splitOn {sep x : UInt8} {b part : Bytes} (h : part ∈ splitOn sep b)
    (hx : x ∈ part) : x ∈ b := by
  induction b generalizing part with
  | nil =>
    rw [List.mem_singleton.mp h] at hx
    exact absurd hx List.not_mem_nil
  | cons y b ih =>
    rw [splitOn_cons] at h
    cases hs : splitOn sep b with
    | nil => exact absurd hs (splitOn_ne_nil sep b)
    | cons p ps =>
      rw [hs] at h ih
      unfold splitStep at h
      dsimp only at h
      split at h
      · rcases List.mem_cons.mp h with rfl | h
        · exact absurd hx List.not_mem_nil
        · exact List.mem_cons_of_mem y (ih h hx)
      · rcases List.mem_cons.mp h with rfl | h
        · rcases List.mem_cons.mp hx with rfl | hx
          · exact List.mem_cons_self
          · exact List.mem_cons_of_mem y (ih List.mem_cons_self hx)
        · exact List.mem_cons_of_mem y (ih (List.mem_cons_of_mem p h) hx)

theorem splitOn_append_of_not_mem {sep : UInt8} {a : Bytes} (h : sep ∉ a) (b : Bytes) :
    splitOn sep (a ++ sep :: b) = a :: splitOn sep b := by
  rw [splitOn_append, splitOn_of_not_mem h]
  rfl

theorem takeWhile_of_not_mem {sep : UInt8} {a : Bytes} (h : sep ∉ a) (b : Bytes) :
    (a ++ sep :: b).takeWhile (· != sep) = a ∧ (a ++ sep :: b).dropWhile (· != sep) = sep :: b := by
  have hp : ∀ x ∈ a, (x != sep) = true := fun x hx => by simpa using ne_of_mem_of_not_mem hx h
  constructor
  · rw [List.takeWhile_append_of_pos hp]
    simp
  · rw [List.dropWhile_append_of_pos hp]
    simp

theorem append_tail_dropWhile {sep : UInt8} {b rest : Bytes}
    (h : (b.dropWhile (· != sep)).tail? = some rest) :
    b = b.takeWhile (· != sep) ++ sep :: rest ∧ sep ∉ b.takeWhile (· != sep) := by
  constructor
  · cases hd : b.dropWhile (· != sep) with
    | nil => rw [hd] at h; cases h
    | cons x r =>
      rw [hd] at h
      cases h
      have hx : x = sep := by
        have := List.head?_dropWhile_not (fun y : UInt8 => y != sep) b
        rw [hd] at this
        simpa using this
      have := List.takeWhile_append_dropWhile (p := (· != sep)) (l := b)
      rw [hd, hx] at this
      exact this.symm
  · intro hm
    have := List.all_eq_true.mp (List.all_takeWhile (p := (· != sep)) (l := b)) sep hm
    simp at this

theorem untilZero_append_zero {b : Bytes} (h : (0 : UInt8) ∉ b) (r : Bytes) :
    untilZero (b ++ 0 :: r) = b := by
  unfold untilZero
  rw [List.takeWhile_append_of_pos]
  · simp
  · intro x hx
    simpa using ne_of_mem_of_not_mem hx h

theorem untilZero_of_not_mem {b : Bytes} (h : (0 : UInt8) ∉ b) : untilZero b = b := by
  have e : (b ++ []).takeWhile (· != (0 : UInt8)) = b ++ [].takeWhile (· != (0 : UInt8)) :=
    List.takeWhile_append_of_pos fun x hx => by simpa using ne_of_mem_of_not_mem hx h
  simpa [untilZero] using e

theorem zero_not_mem_untilZero (b : Bytes) : (0 : UInt8) ∉ untilZero b := by
  intro h
  have hall := List.all_eq_true.mp (List.all_takeWhile : (b.takeWhile (· != 0)).all (· != 0)) 0 h
  cases hall

theorem length_untilZero_le (b : Bytes) : (untilZero b).length ≤ b.length :=
  (List.takeWhile_prefix _).length_le

theorem bigEndian_concat (b : Bytes) (x : UInt8) :
    bigEndian (b ++ [x]) = bigEndian b * 256 + x.toNat := by
  simp [bigEndian, List.foldl_append]

theorem ofNatBigEndian_succ (width n : Nat) :
    ofNatBigEndian (width + 1) n = ofNatBigEndian width (n / 256) ++ [UInt8.ofNat n] := by
  unfold ofNatBigEndian
  rw [List.range_succ, List.map_append]
  congr 1
  · apply List.map_congr_left
    intro i hi
    have hi : i < width := List.mem_range.mp hi
    have e : 8 * (width + 1 - 1 - i) = 8 + 8 * (width - 1 - i) := by omega
    rw [e, Nat.shiftRight_add, Nat.shiftRight_eq_div_pow n 8]
  · simp

theorem bigEndian_ofNatBigEndian {width n : Nat} (h : n < 256 ^ width) :
    bigEndian (ofNatBigEndian width n) = n := by
  induction width generalizing n with
  | zero =>
    have : n = 0 := by simpa using h
    subst this
    rfl
  | succ width ih =>
    have hdiv : n / 256 < 256 ^ width := by
      rw [Nat.pow_succ] at h
      exact Nat.div_lt_of_lt_mul (by omega)
    rw [ofNatBigEndian_succ, bigEndian_concat, ih hdiv]
    simp
    omega

/-- Equal fronts have equal parts. -/
theorem take_add_eq {b b' : Bytes} {n m : Nat} (h : b'.take (n + m) = b.take (n + m)) :
    b'.take n = b.take n ∧ (b'.drop n).take m = (b.drop n).take m := by
  constructor
  · have := congrArg (List.take n) h
    rwa [List.take_take, List.take_take, Nat.min_eq_left (Nat.le_add_right _ _)] at this
  · have := congrArg (List.drop n) h
    rwa [List.drop_take, List.drop_take, Nat.add_sub_cancel_left] at this

end Bytes
end ContainerLayer
