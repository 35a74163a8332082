import ContainerLayer.Proofs.Tar.Writing

/-
Names that are written again.

What a name is written as is itself written as it stands.  Writing covers the front of a field
and leaves the rest of it (`Naming.exists_stamp`), so writing the same once more changes nothing.
Hence a header that names were written to takes the names that are read from it and stays as it
is, with the same long names in front of it (`PathWritten.again`, `LinkWritten.again`).
-/

namespace ContainerLayer
namespace Tar
namespace Naming

open ContainerLayer.Path

/-! ## Texts -/

theorem textOf_pieces_of_not_mem {single slashed : Bool} {cs : List Component} (hroot : .root ∉ cs)
    (hup : .up ∉ cs) : textOf (pieces .entry single slashed cs)
      = some (spell slashed (if single then cs else cs.filter (· != .here))) := by
  induction cs generalizing slashed with
  | nil => cases single <;> rfl
  | cons c cs ih =>
    rw [List.mem_cons, not_or] at hroot hup
    unfold pieces
    dsimp only
    rw [if_neg (by decide)]
    cases c with
    | root => exact absurd rfl hroot.1
    | up => exact absurd rfl hup.1
    | here =>
      cases single with
      | true =>
        rw [if_pos rfl, textOf_slashed, ih hroot.2 hup.2]
        rfl
      | false => exact ih hroot.2 hup.2
    | name n =>
      dsimp only
      rw [textOf_slashed, ih hroot.2 hup.2]
      cases single with
      | true => rfl
      | false => simp [spell]

/-- The text of a name, from the text of its components. -/
theorem textOf_piecesOf_of_pieces {rule : NameRule} {name body : Bytes}
    (h : textOf (pieces rule ((components name).length == 1) false (components name)) = some body)
    (hne : body ≠ []) :
    textOf (piecesOf rule name)
      = some (body ++ if endsWithSlash name then [Path.slash] else []) := by
  have hps : pieces rule ((components name).length == 1) false (components name) ≠ [] := by
    intro e
    rw [e] at h
    exact hne (Option.some.inj h).symm
  unfold piecesOf
  dsimp only
  rw [if_neg hps]
  cases endsWithSlash name with
  | true =>
    rw [if_pos rfl, textOf_append, h]
    rfl
  | false =>
    rw [if_neg Bool.false_ne_true, h]
    simp

/-- What the path of an entry is written as is written as it stands. -/
theorem textOf_of_written_entry {name text : Bytes}
    (h : textOf (piecesOf .entry name) = some text) :
    textOf (piecesOf .entry text) = some text := by
  obtain ⟨-, hcomponents, hslash, -⟩ := written_entry h
  obtain ⟨body, hbody, hne, htext⟩ := textOf_piecesOf h
  obtain ⟨hbody, hroot, hup⟩ := textOf_pieces_entry hbody
  have hparts := parts_components name
  have hsub : ∀ c, c ∈ undotted (components name) → c ∈ components name := by
    intro c hc
    unfold undotted at hc
    split at hc
    · exact hc
    · exact (List.mem_filter.mp hc).1
  have hundotted : ∀ cs : List Component,
      (if (cs.length == 1) = true then cs else cs.filter (· != .here)) = undotted cs := by
    intro cs
    simp [undotted]
  rw [hundotted] at hbody
  have hagain : textOf (pieces .entry ((components text).length == 1) false (components text))
      = some body := by
    rw [hcomponents, textOf_pieces_of_not_mem (fun hc => hroot (hsub _ hc))
      (fun hc => hup (hsub _ hc)), hundotted, undotted_undotted, hbody]
  have hbne : body ≠ [] := by
    intro e
    exact undotted_ne_nil hparts hne (spell_eq_nil (parts_undotted hparts) (hbody.symm.trans e))
  rw [textOf_piecesOf_of_pieces hagain hbne, hslash, ← htext]

/-- What the target of a link is written as is written as it stands, unless it is the root that
gets a slash at its end. -/
theorem textOf_of_written_link {name text : Bytes} (h : textOf (piecesOf .link name) = some text)
    (hroot : components name = [.root] → endsWithSlash name = true) :
    textOf (piecesOf .link text) = some text := by
  obtain ⟨-, hcomponents, hslash⟩ := written_link h
  have hslash : endsWithSlash text = endsWithSlash name := by
    rcases hslash with hslash | ⟨hc, hs, -⟩
    · exact hslash
    · rw [hroot hc] at hs
      cases hs
  obtain ⟨body, hbody, hne, htext⟩ := textOf_piecesOf h
  rw [textOf_pieces_link, Option.some.injEq] at hbody
  subst hbody
  have hbne : spell false (components name) ≠ [] :=
    fun e => hne (spell_eq_nil (parts_components name) e)
  have hagain : textOf (pieces .link ((components text).length == 1) false (components text))
      = some (spell false (components name)) := by
    rw [hcomponents, textOf_pieces_link]
  rw [textOf_piecesOf_of_pieces hagain hbne, hslash, ← htext]

/-! ## Fields -/

/-- The room behind `n` bytes, with a zero byte at its start. -/
def behind (n : Nat) (room : Bytes) : Bytes := [0].take (room.length - n) ++ room.drop (n + 1)

theorem length_behind {n : Nat} {room : Bytes} (hn : n ≤ room.length) :
    (behind n room).length = room.length - n := by
  simp only [behind, List.length_append, List.length_take, List.length_drop, List.length_singleton]
  omega

theorem drop_behind (n k : Nat) (room : Bytes) :
    (behind n room).drop (k + 1) = room.drop (n + (k + 1)) := by
  have htake : (([0] : Bytes).take (room.length - n)).length = min (room.length - n) 1 :=
    List.length_take
  rw [behind, List.drop_append, List.drop_eq_nil_of_le (by omega), List.nil_append, htake,
    List.drop_drop]
  by_cases hn : n < room.length
  · rw [Nat.min_eq_right (by omega)]
    congr 1
    omega
  · rw [List.drop_eq_nil_of_le (by omega), List.drop_eq_nil_of_le (by omega)]

theorem behind_behind {n : Nat} {room : Bytes} (hn : n ≤ room.length) (k : Nat) :
    behind k (behind n room) = behind (n + k) room := by
  rw [behind, drop_behind, length_behind hn, Nat.sub_sub]
  rfl

/-- A room that holds a text with a zero byte behind it does so also afterwards. -/
theorem behind_append_behind (text : Bytes) {room : Bytes} (hlen : text.length ≤ room.length) :
    behind text.length (text ++ behind text.length room) = behind text.length room := by
  have hlength : (text ++ behind text.length room).length = room.length := by
    rw [List.length_append, length_behind hlen]
    omega
  have hdrop : (text ++ behind text.length room).drop (text.length + 1)
      = room.drop (text.length + 1) := by
    rw [← List.drop_drop, List.drop_left]
    exact drop_behind _ 0 room
  rw [behind, hlength, hdrop]
  rfl

theorem putPiece_eq {room piece : Bytes} :
    putPiece room piece = if room.length < piece.length then .error .tooLong
      else if (0 : UInt8) ∈ piece then .error .zeroByte else .ok (behind piece.length room) := by
  unfold putPiece
  simp only [List.contains_iff_mem]
  split
  · rfl
  rename_i hlen
  split
  · rfl
  split
  · rename_i hd
    have hle := List.drop_eq_nil_iff.mp hd
    rw [behind, show room.length - piece.length = 0 by omega, List.drop_eq_nil_of_le (by omega)]
    rfl
  · rename_i x rest hd
    have hlt := congrArg List.length hd
    have hrest := congrArg List.tail hd
    simp only [List.length_drop, List.length_cons] at hlt
    rw [List.tail_drop] at hrest
    rw [behind, List.take_of_length_le (by simp only [List.length_singleton]; omega), hrest]
    rfl

/-- Pieces that fit together go in as their text, with a zero byte behind it if there is room. -/
theorem putPieces_of_textOf {written room text : Bytes} {ps : List (Except NameFlaw Bytes)}
    (ht : textOf ps = some text) (hlen : text.length ≤ room.length) (hz : (0 : UInt8) ∉ text)
    (hend : ps ≠ [] ∨ behind 0 room = room) :
    putPieces written room ps = (written ++ (text ++ behind text.length room), none) := by
  induction ps generalizing written room text with
  | nil =>
    cases ht
    rcases hend with h | h
    · exact absurd rfl h
    · show (written ++ room, none) = (written ++ behind 0 room, none)
      rw [h]
  | cons p ps ih =>
    cases p with
    | error f => cases ht
    | ok piece =>
      obtain ⟨text', ht', rfl⟩ := Option.map_eq_some_iff.mp ht
      rw [List.length_append] at hlen
      rw [List.mem_append, not_or] at hz
      have hpiece : piece.length ≤ room.length := by omega
      rw [putPieces, putPiece_eq, if_neg (Nat.not_lt.mpr hpiece), if_neg hz.1]
      dsimp only
      rw [ih ht' (by rw [length_behind hpiece]; omega) hz.2 (.inr (behind_behind hpiece 0)),
        behind_behind hpiece, List.length_append]
      simp only [List.append_assoc]

/-- What pieces put at the start of a field does not depend on what the field holds. -/
theorem exists_stamp (n : Nat) (ps : List (Except NameFlaw Bytes)) :
    ∃ stamp flaw, stamp.length ≤ n ∧ ∀ written room : Bytes, room.length = n →
      putPieces written room ps = (written ++ (stamp ++ room.drop stamp.length), flaw) := by
  induction ps generalizing n with
  | nil => exact ⟨[], none, Nat.zero_le n, fun _ _ _ => rfl⟩
  | cons p ps ih =>
    cases p with
    | error f => exact ⟨[], some f, Nat.zero_le n, fun _ _ _ => rfl⟩
    | ok piece =>
      by_cases hlen : n < piece.length
      · refine ⟨[], some .tooLong, Nat.zero_le n, fun written room hroom => ?_⟩
        rw [putPieces, putPiece_eq, if_pos (by omega)]
        rfl
      by_cases hz : (0 : UInt8) ∈ piece
      · refine ⟨[], some .zeroByte, Nat.zero_le n, fun written room hroom => ?_⟩
        rw [putPieces, putPiece_eq, if_neg (by omega), if_pos hz]
        rfl
      obtain ⟨stamp, flaw, hstamp, hput⟩ := ih (n - piece.length)
      have hfirst : ∀ written room : Bytes, room.length = n →
          putPieces written room (.ok piece :: ps) = (written ++ piece
            ++ (stamp ++ (behind piece.length room).drop stamp.length), flaw) := by
        intro written room hroom
        rw [putPieces, putPiece_eq, if_neg (by omega), if_neg hz]
        exact hput _ _ (by rw [length_behind (by omega), hroom])
      -- without further pieces the zero byte behind this one belongs to what is put
      cases stamp with
      | nil =>
        refine ⟨piece ++ [0].take (n - piece.length), flaw, ?_, fun written room hroom => ?_⟩
        · simp only [List.length_append, List.length_take, List.length_singleton]
          omega
        · have hrest : room.drop (piece.length + 1)
              = room.drop (piece ++ ([0] : Bytes).take (n - piece.length)).length := by
            simp only [List.length_append, List.length_take, List.length_singleton]
            by_cases hmore : piece.length < n
            · rw [Nat.min_eq_right (by omega)]
            · rw [List.drop_eq_nil_of_le (by omega), List.drop_eq_nil_of_le (by omega)]
          rw [hfirst written room hroom, List.length_nil, List.drop_zero, List.nil_append, behind,
            hroom, hrest]
          simp only [List.append_assoc]
      | cons x stamp =>
        refine ⟨piece ++ x :: stamp, flaw, ?_, fun written room hroom => ?_⟩
        · rw [List.length_append]
          omega
        · rw [hfirst written room hroom, List.length_cons, drop_behind, List.length_append,
            List.length_cons]
          simp only [List.append_assoc]

end Naming

namespace Header

open Naming ContainerLayer.Path

theorem setSize_of_get {h : Header} {n : Nat} (hn : h.get .size = Number.toField 12 n) :
    h.setSize n = h := put_get h hn

theorem setChecksum_setChecksum (h : Header) : h.setChecksum.setChecksum = h.setChecksum := by
  refine put_get _ ?_
  rw [get_setChecksum, show h.setChecksum.sum = h.sum from sum_put_checksum h _]
  rfl

/-- A name puts the same text at the start of a field of any header, with the same flaw. -/
theorem exists_putName (f : Field) (rule : NameRule) (name : Bytes) :
    ∃ stamp flaw, stamp.length ≤ f.width
      ∧ ∀ h : Header, h.putName f rule name = (h.put f stamp, flaw) := by
  obtain ⟨stamp, flaw, hlen, hput⟩ := exists_stamp f.width (piecesOf rule name)
  refine ⟨stamp, flaw, hlen, fun h => ?_⟩
  have hcover : h.put f stamp = h.put f (stamp ++ (h.get f).drop stamp.length) := by
    rw [← put_put h (Nat.le_of_eq (length_get h f)) hlen, put_get h rfl]
  rw [putName, hput [] (h.get f) (length_get h f), hcover]
  rfl

/-- A field that a name was put into takes the text that is read from it, and stays as it is. -/
theorem putName_again {h h' g : Header} {f : Field} {rule : NameRule} {name text : Bytes}
    (e : h.putName f rule name = (h', none)) (ht : textOf (piecesOf rule name) = some text)
    (hagain : textOf (piecesOf rule text) = some text) (hg : g.get f = h'.get f) :
    g.putName f rule text = (g, none) := by
  obtain ⟨_, ht', hget⟩ := get_putName e
  cases ht.symm.trans ht'
  have hz : (0 : UInt8) ∉ text := hget ▸ Bytes.zero_not_mem_untilZero _
  have hlen : ∀ h : Header, text.length ≤ (h.get f).length := by
    intro h
    rw [length_get, ← length_get h' f, ← hget]
    exact Bytes.length_untilZero_le _
  have hput : ∀ {h : Header} {name : Bytes}, textOf (piecesOf rule name) = some text →
      h.putName f rule name = (h.put f (text ++ behind text.length (h.get f)), none) := by
    intro h name ht
    rw [putName, putPieces_of_textOf ht (hlen h) hz (.inl (piecesOf_ne_nil rule name))]
    rfl
  have hheld : g.get f = text ++ behind text.length (h.get f) := by
    rw [hput ht] at e
    cases e
    rw [hg, get_put]
    rw [List.length_append, length_behind (hlen h), length_get]
    have := hlen h
    rw [length_get] at this
    omega
  rw [hput hagain, hheld, behind_append_behind text (hlen h), put_get g hheld]

theorem setPath_of_short {h : Header} {path : Bytes} (hs : h.dialect = .ustar → path.length ≤ 100)
    (rule : NameRule) : h.setPath rule path
      = h.putPath .name (if h.dialect = .ustar then .entry else rule) path := by
  unfold setPath
  by_cases hd : h.dialect = .ustar
  · rw [if_neg (Decidable.not_not.mpr hd), if_pos (hs hd), if_pos hd]
  · rw [if_pos hd, if_neg hd]

/-- What a path puts into the name field of a header it puts into that of every header of the
dialect, and with a flaw just if it did so there. -/
theorem exists_setPath {h h' : Header} {rule : NameRule} {path : Bytes} {flaw : Option NamingDefect}
    (hs : h.dialect = .ustar → path.length ≤ 100) (e : h.setPath rule path = (h', flaw)) :
    ∃ stamp : Bytes, stamp.length ≤ Field.name.width ∧ h' = h.put .name stamp
      ∧ ∀ g : Header, g.dialect = h.dialect → ∃ flaw',
        g.setPath rule path = (g.put .name stamp, flaw') ∧ flaw'.isSome = flaw.isSome := by
  obtain ⟨stamp, k, hlen, hput⟩ :=
    exists_putName .name (if h.dialect = .ustar then .entry else rule) path
  rw [setPath_of_short hs, putPath, hput h] at e
  cases e
  refine ⟨stamp, hlen, rfl, fun g hd => ?_⟩
  rw [setPath_of_short (by rwa [hd]), putPath, hd, hput g]
  exact ⟨_, rfl, by rw [Option.isSome_map, Option.isSome_map]⟩

theorem dialect_put_name (h : Header) (b : Bytes) : (h.put .name b).dialect = h.dialect :=
  (sameBut_put List.mem_cons_self h b : SameBut [.name] _ _).dialect (by decide)

end Header

open Header Naming ContainerLayer.Path

variable {h h' f : Header}

theorem length_cutName_le (name : Bytes) : (cutName name).length ≤ 100 := by
  have htake : (name.take longFrom).length ≤ 100 := List.length_take_le _ _
  unfold cutName
  dsimp only
  split
  · exact htake
  · exact Nat.le_trans (List.length_take_le' _ _) htake

/-- A path that has to do with the name field alone changes no other one. -/
theorem PathWritten.same_of_short {path o : Bytes} (hp : PathWritten h path h' o)
    (hs : h.dialect = .ustar → path.length ≤ 100) : SameBut [.name] h h' := by
  cases hp with
  | whole e =>
    obtain ⟨stamp, -, rfl, -⟩ := exists_setPath hs e
    exact sameBut_put List.mem_cons_self h stamp
  | cut e _ e' =>
    obtain ⟨whole, -, rfl, -⟩ := exists_setPath hs e
    obtain ⟨front, -, rfl, -⟩ := exists_setPath (fun _ => length_cutName_le path) e'
    exact (sameBut_put List.mem_cons_self h whole).trans (sameBut_put List.mem_cons_self _ front)

/-- A header with what a path left in the name field takes the path that is read from it, and
stays as it is. -/
theorem PathWritten.again {path o : Bytes} {fs : List Field} (hp : PathWritten h path h' o)
    (hsame : SameBut fs h' f) (hfs : ∀ g ∈ [Field.magic, .name, .front], ∀ x ∈ fs, g.Apart x)
    (hfront : h.dialect = .ustar → (h.get .front).untilZero = [])
    (hshort : h.dialect = .ustar → path.length ≤ 100) :
    PathWritten f (pathOf (longOf path o) f) f o := by
  have hname : f.get .name = h'.get .name := hsame .name (hfs _ (by simp))
  have hwritten := hp.same_of_short hshort
  have hd : f.dialect = h.dialect :=
    (hsame.dialect (hfs _ (by simp))).trans (hwritten.dialect (by decide))
  have hfront : f.dialect = .ustar → (f.get .front).untilZero = [] := by
    rw [hd, hsame .front (hfs _ (by simp)), hwritten .front (by decide)]
    exact hfront
  cases hp with
  | whole e =>
    rw [setPath_of_short hshort, ite_self] at e
    obtain ⟨text, htext, hget⟩ := get_putPath e
    have hpath : f.path = text := by rw [path_of_front_eq_nil hfront, hname, hget]
    have hlen : text.length ≤ 100 := by
      rw [← hget, ← show (h'.get .name).length = 100 from length_get h' .name]
      exact Bytes.length_untilZero_le _
    refine .whole ?_
    show f.setPath .entry f.path = (f, none)
    rw [hpath, setPath_of_short fun _ => hlen, ite_self, putPath,
      putName_again (putName_of_putPath e) htext (textOf_of_written_entry htext) hname]
    rfl
  | @cut h₁ _ d e long e' =>
    rw [longOf_memberBytes]
    show PathWritten f (Entry.withoutZero (path ++ [0])) f _
    rw [withoutZero_concat]
    obtain ⟨whole, hwhole, rfl, hput⟩ := exists_setPath hshort e
    obtain ⟨front, hfront, rfl, hcut⟩ := exists_setPath (fun _ => length_cutName_le path) e'
    obtain ⟨_ | d', e₁, hflaw⟩ := hput f hd
    · cases hflaw
    obtain ⟨_ | d₂, e₂, hfits⟩ := hcut (f.put .name whole) (by simp only [dialect_put_name, hd])
    · have hback : (f.put .name whole).put .name front = f := by
        rw [put_put h hwhole hfront, get_put_front] at hname
        · rw [put_put f hwhole hfront]
          exact put_of_isPrefix (hname ▸ List.prefix_append _ _)
        · rw [List.length_append, List.length_drop]
          omega
      rw [hback] at e₂
      exact .cut e₁ long e₂
    · cases hfits

/-- A header with what a link name left in its field takes the link name that is read from it,
and stays as it is, unless that is the root. -/
theorem LinkWritten.again {target o : Bytes} (hl : LinkWritten h target h' o)
    (hname : f.get .linkName = h'.get .linkName)
    (hroot : components target = [.root] → endsWithSlash target = true) :
    ∃ text, linkNameOf (longOf target o) f = some text ∧ LinkWritten f text f o := by
  cases hl with
  | whole e =>
    have hput : h.putName .linkName .link target = (h', none) := putName_of_setLinkName e
    obtain ⟨text, htext, hget⟩ := get_putName hput
    obtain ⟨hne, -, -⟩ := written_link htext
    refine ⟨text, ?_, .whole ?_⟩
    · show f.linkName = some text
      rw [Header.linkName, hname, hget, if_neg hne]
    · rw [setLinkName, putName_again hput htext (textOf_of_written_link htext hroot) hname]
      rfl
  | @cut d e long =>
    rw [longOf_memberBytes]
    obtain ⟨stamp, flaw, hstamp, hput⟩ := exists_putName .linkName .link target
    rw [setLinkName, hput h] at e
    cases flaw with
    | none => cases e
    | some flaw =>
      have hback : f.put .linkName stamp = f := by
        cases e
        rw [get_put_front h hstamp] at hname
        exact put_of_isPrefix (hname ▸ List.prefix_append _ _)
      refine ⟨target, ?_, .cut (d := .linkName flaw f.lossyPath) ?_ long⟩
      · show some (Entry.withoutZero (target ++ [0])) = some target
        rw [withoutZero_concat]
      · rw [setLinkName, hput f, hback]
        rfl

end Tar
end ContainerLayer
