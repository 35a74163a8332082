import ContainerLayer.Proofs.Tar.Number
import ContainerLayer.Tar.Archive

/-
Fields of headers.

Putting bytes into a field changes that field and nothing apart from it, and a
header whose checksum was set last passes its check.
-/

namespace ContainerLayer
namespace Tar

namespace Field

/-- The fields have no byte in common. -/
def Apart (f g : Field) : Prop := f.offset + f.width ≤ g.offset ∨ g.offset + g.width ≤ f.offset

instance (f g : Field) : Decidable (Apart f g) := inferInstanceAs (Decidable (_ ∨ _))

end Field

namespace Header

theorem ext {h h' : Header} (e : h.bytes = h'.bytes) : h = h' := by
  cases h
  cases h'
  cases e
  rfl

theorem length_get (h : Header) (f : Field) : (h.get f).length = f.width := by
  have := f.fits
  have := h.length_eq
  simp [get]
  omega

theorem take_put (h : Header) (f : Field) (b : Bytes) {n : Nat} (hn : n ≤ f.offset) :
    (h.put f b).bytes.take n = h.bytes.take n := by
  have hf := f.fits
  have hl := h.length_eq
  show (h.bytes.take f.offset ++ b.take f.width
    ++ h.bytes.drop (f.offset + (b.take f.width).length)).take n = _
  rw [List.append_assoc, List.take_append_of_le_length (by simp; omega), List.take_take,
    Nat.min_eq_left hn]

theorem drop_put (h : Header) (f : Field) (b : Bytes) {n : Nat} (hn : f.offset + f.width ≤ n) :
    (h.put f b).bytes.drop n = h.bytes.drop n := by
  have hf := f.fits
  have hl := h.length_eq
  have hc : (b.take f.width).length ≤ f.width := List.length_take_le _ _
  show (h.bytes.take f.offset ++ b.take f.width
    ++ h.bytes.drop (f.offset + (b.take f.width).length)).drop n = _
  rw [List.drop_append, List.drop_eq_nil_of_le (by simp; omega), List.nil_append, List.drop_drop]
  congr 1
  simp
  omega

theorem bytes_put (h : Header) {f : Field} {b : Bytes} (hb : b.length ≤ f.width) :
    (h.put f b).bytes = h.bytes.take f.offset ++ (b ++ h.bytes.drop (f.offset + b.length)) := by
  show h.bytes.take f.offset ++ b.take f.width
    ++ h.bytes.drop (f.offset + (b.take f.width).length) = _
  rw [List.take_of_length_le hb, List.append_assoc]

/-- Behind the offset of a field stands what was put there, with what is left behind it. -/
theorem drop_put_front (h : Header) {f : Field} {b : Bytes} (hb : b.length ≤ f.width) (n : Nat) :
    (h.put f b).bytes.drop (f.offset + n) = (b ++ h.bytes.drop (f.offset + b.length)).drop n := by
  have hf := f.fits
  have hl := h.length_eq
  have hfront : (h.bytes.take f.offset).length = f.offset := by simp; omega
  rw [bytes_put h hb, List.drop_append, List.drop_eq_nil_of_le (by omega), hfront,
    Nat.add_sub_cancel_left, List.nil_append]

/-- A field into which `b` was put holds `b`, and behind it what it held before. -/
theorem get_put_front (h : Header) {f : Field} {b : Bytes} (hb : b.length ≤ f.width) :
    (h.put f b).get f = b ++ (h.get f).drop b.length := by
  have hdrop := drop_put_front h hb 0
  rw [Nat.add_zero, List.drop_zero] at hdrop
  unfold get
  rw [hdrop, List.take_append, List.take_of_length_le hb, List.drop_take, List.drop_drop]

theorem get_put (h : Header) (f : Field) {b : Bytes} (hb : b.length = f.width) :
    (h.put f b).get f = b := by
  rw [get_put_front h (Nat.le_of_eq hb), List.drop_eq_nil_of_le (by rw [length_get, hb]),
    List.append_nil]

theorem get_put_of_apart (h : Header) {f g : Field} (b : Bytes) (hd : g.Apart f) :
    (h.put f b).get g = h.get g := by
  rcases hd with hd | hd
  · have e := take_put h f b hd
    unfold get
    rw [List.take_drop, List.take_drop, e]
  · unfold get
    rw [drop_put h f b hd]

/-- A field that starts with `b` stays as it is when `b` is put into it. -/
theorem put_of_isPrefix {h : Header} {f : Field} {b : Bytes} (hb : b <+: h.get f) :
    h.put f b = h := by
  have hlen : b.length ≤ f.width := by
    rw [← length_get h f]
    exact hb.length_le
  obtain ⟨rest, hrest⟩ : b <+: h.bytes.drop f.offset := hb.trans (List.take_prefix _ _)
  apply ext
  rw [bytes_put h hlen, ← List.drop_drop, ← hrest, List.drop_left, hrest, List.take_append_drop]

/-- A field that already holds `b` stays as it is when `b` is put into it. -/
theorem put_get (h : Header) {f : Field} {b : Bytes} (hb : h.get f = b) : h.put f b = h :=
  put_of_isPrefix (hb ▸ List.prefix_refl _)

/-- The second of two texts that are put into a field covers the first, as far as it goes. -/
theorem put_put (h : Header) {f : Field} {a b : Bytes} (ha : a.length ≤ f.width)
    (hb : b.length ≤ f.width) : (h.put f a).put f b = h.put f (b ++ a.drop b.length) := by
  have hboth : (b ++ a.drop b.length).length ≤ f.width := by
    rw [List.length_append, List.length_drop]
    omega
  have hrest : (h.bytes.drop (f.offset + a.length)).drop (b.length - a.length)
      = h.bytes.drop (f.offset + (b ++ a.drop b.length).length) := by
    rw [List.drop_drop, List.length_append, List.length_drop]
    congr 1
    omega
  apply ext
  rw [bytes_put _ hb, bytes_put h hboth, take_put h f a (Nat.le_refl _), drop_put_front h ha,
    List.drop_append, hrest, List.append_assoc b]

/-! ## What stays the same -/

/-- The second header differs from the first in the given fields at most. -/
def SameBut (fs : List Field) (h h' : Header) : Prop :=
  ∀ f : Field, (∀ g ∈ fs, f.Apart g) → h'.get f = h.get f

theorem SameBut.refl (fs : List Field) (h : Header) : SameBut fs h h := fun _ _ => rfl

theorem SameBut.trans {fs : List Field} {h h' h'' : Header} (p : SameBut fs h h')
    (q : SameBut fs h' h'') : SameBut fs h h'' := fun f hf => (q f hf).trans (p f hf)

theorem SameBut.mono {fs gs : List Field} {h h' : Header} (p : SameBut fs h h') (hs : fs ⊆ gs) :
    SameBut gs h h' := fun f hf => p f fun g hg => hf g (hs hg)

theorem sameBut_put {fs : List Field} {f : Field} (hf : f ∈ fs) (h : Header) (b : Bytes) :
    SameBut fs h (h.put f b) := fun _ hg => get_put_of_apart h b (hg f hf)

variable {fs : List Field} {h h' : Header}

theorem SameBut.kind (p : SameBut fs h h') (hf : ∀ g ∈ fs, Field.kind.Apart g) :
    h'.kind = h.kind := by
  rw [Header.kind, Header.kind, p .kind hf]

theorem SameBut.dialect (p : SameBut fs h h') (hf : ∀ g ∈ fs, Field.magic.Apart g) :
    h'.dialect = h.dialect := by
  rw [Header.dialect, Header.dialect, p .magic hf]

theorem SameBut.path (p : SameBut fs h h')
    (hf : ∀ f ∈ [Field.name, .front, .magic], ∀ g ∈ fs, f.Apart g) : h'.path = h.path := by
  rw [Header.path, Header.path, p.dialect (hf .magic (by simp)), p .name (hf .name (by simp)),
    p .front (hf .front (by simp))]

theorem SameBut.linkName (p : SameBut fs h h') (hf : ∀ g ∈ fs, Field.linkName.Apart g) :
    h'.linkName = h.linkName := by
  rw [Header.linkName, Header.linkName, p .linkName hf]

/-! ## Numbers -/

theorem get_setSize (h : Header) (n : Nat) : (h.setSize n).get .size = Number.toField 12 n :=
  get_put h .size (Number.length_toField 12 n)

theorem number_of_get {n : Nat} (hn : n < limit) (hg : h.get .size = Number.toField 12 n)
    (place : String → NumberPlace) : h.number .size place = .ok n := by
  rw [number, hg, Number.ofField_toField hn]

theorem kind_setKind (h : Header) {k : EntryKind} (hk : EntryKind.ofCode k.code = k) :
    (h.setKind k).kind = k := by
  have hget : (h.setKind k).get .kind = [k.code] := get_put h .kind rfl
  rw [kind, hget]
  exact hk

/-! ## Checksums -/

/-- The sum of some bytes. -/
def total (b : Bytes) : Nat := b.foldl (fun n x => n + x.toNat) 0

theorem total_le (b : Bytes) : total b ≤ 255 * b.length := by
  have h : ∀ (b : Bytes) (n : Nat),
      b.foldl (fun n x => n + x.toNat) n ≤ n + 255 * b.length := by
    intro b
    induction b with
    | nil => exact fun n => Nat.le_refl n
    | cons x b ih =>
      intro n
      have := ih (n + x.toNat)
      have := x.toNat_lt
      simp only [List.foldl_cons, List.length_cons]
      omega
  simpa [total] using h b 0

theorem sum_eq (h : Header) : h.sum = total (h.bytes.take 148) + 256 + total (h.bytes.drop 156) :=
  rfl

theorem sum_lt (h : Header) : h.sum < 8 ^ 7 := by
  have h₁ := total_le (h.bytes.take 148)
  have h₂ := total_le (h.bytes.drop 156)
  have hl := h.length_eq
  simp only [List.length_take, List.length_drop] at h₁ h₂
  rw [sum_eq]
  omega

theorem sum_put_checksum (h : Header) (b : Bytes) : (h.put .checksum b).sum = h.sum := by
  rw [sum_eq, sum_eq, take_put h .checksum b (by decide), drop_put h .checksum b (by decide)]

theorem get_setChecksum (h : Header) : h.setChecksum.get .checksum = Number.toOctal 8 h.sum :=
  get_put h .checksum (Number.length_toOctal 8 h.sum)

theorem verify_setChecksum (h : Header) : h.setChecksum.verify = .ok () := by
  have hs := h.sum_lt
  have hread : Number.ofOctal (Number.toOctal 8 h.sum) = .ok h.sum :=
    Number.ofOctal_toOctal (by decide) hs (by omega)
  rw [verify, get_setChecksum, hread]
  exact if_pos (sum_put_checksum h _).symm

theorem isZero_setChecksum (h : Header) : h.setChecksum.isZero = false := by
  -- the digits of the checksum are not zero bytes
  rw [Bool.eq_false_iff]
  intro hz
  have hall : ∀ x ∈ h.setChecksum.bytes, x = 0 := by
    simpa [isZero] using hz
  have hmem : UInt8.ofNat (48 + h.sum % 8) ∈ h.setChecksum.get .checksum := by
    rw [get_setChecksum, Number.toOctal, if_neg (by decide)]
    exact List.mem_append_left _ (List.mem_reverse.mpr List.mem_cons_self)
  have hzero := hall _ (List.mem_of_mem_drop (List.mem_of_mem_take hmem))
  have := Number.octalDigit_toNat h.sum
  rw [hzero] at this
  have : (0 : UInt8).toNat = 0 := rfl
  omega

theorem kind_setKind_setChecksum (h : Header) {k : EntryKind} (hk : EntryKind.ofCode k.code = k) :
    (h.setKind k).setChecksum.kind = k := by
  have hget : (h.setKind k).setChecksum.get .kind = (h.setKind k).get .kind :=
    get_put_of_apart _ _ (by decide)
  rw [kind, hget]
  exact kind_setKind h hk

theorem sameBut_setChecksum {fs : List Field} (hf : Field.checksum ∈ fs) (h : Header) :
    SameBut fs h h.setChecksum := sameBut_put hf h _

end Header
end Tar
end ContainerLayer
