import ContainerLayer.Proofs.Path.Spelling
import ContainerLayer.Proofs.Tar.Header
import ContainerLayer.Tar.Naming

/-
Names read back from the headers that they were written to.

A name that goes in is read back as its plain spelling, which names the same.  Writing
a name changes the fields for names at most, whether it goes in or not.
-/

namespace ContainerLayer
namespace Tar
namespace Naming

open ContainerLayer.Path

/-- The text of pieces that have no flaw. -/
def textOf : List (Except NameFlaw Bytes) → Option Bytes
  | [] => some []
  | .error _ :: _ => none
  | .ok b :: rest => (textOf rest).map (b ++ ·)

theorem textOf_append (ps qs : List (Except NameFlaw Bytes)) :
    textOf (ps ++ qs) = (textOf ps).bind fun a => (textOf qs).map (a ++ ·) := by
  induction ps with
  | nil => simp [textOf]
  | cons p ps ih =>
    cases p with
    | error f => rfl
    | ok b =>
      rw [List.cons_append, textOf, textOf, ih]
      cases textOf ps <;> cases textOf qs <;> simp

/-- A field whose pieces all went in holds their text, with a zero byte behind it if there
is room. -/
theorem putPieces_eq_none {written room b : Bytes} {ps : List (Except NameFlaw Bytes)}
    (h : putPieces written room ps = (b, none)) (hz : (0 : UInt8) ∉ written)
    (hend : ps ≠ [] ∨ room = [] ∨ ∃ rest, room = 0 :: rest) :
    ∃ text, textOf ps = some text ∧ b.untilZero = written ++ text
      ∧ b.length = written.length + room.length := by
  induction ps generalizing written room with
  | nil =>
    cases h
    refine ⟨[], rfl, ?_, List.length_append⟩
    rw [List.append_nil]
    rcases hend with h | rfl | ⟨rest, rfl⟩
    · exact absurd rfl h
    · rw [List.append_nil, Bytes.untilZero_of_not_mem hz]
    · exact Bytes.untilZero_append_zero hz rest
  | cons p ps ih =>
    cases p with
    | error f => cases h
    | ok piece =>
      unfold putPieces putPiece at h
      split at h
      · cases h
      · rename_i room' e
        split at e
        · cases e
        rename_i hlen
        split at e
        · cases e
        rename_i hpiece
        have hz' : (0 : UInt8) ∉ written ++ piece := by
          rw [List.mem_append, not_or]
          exact ⟨hz, by simpa using hpiece⟩
        have hroom : room'.length + piece.length = room.length
            ∧ (room' = [] ∨ ∃ rest, room' = 0 :: rest) := by
          split at e
          · rename_i hd
            cases e
            have := List.drop_eq_nil_iff.mp hd
            exact ⟨by simp only [List.length_nil]; omega, .inl rfl⟩
          · rename_i x rest hd
            cases e
            have := congrArg List.length hd
            simp only [List.length_drop, List.length_cons] at this
            exact ⟨by simp only [List.length_cons]; omega, .inr ⟨rest, rfl⟩⟩
        obtain ⟨text, h₁, h₂, h₃⟩ := ih h hz' (.inr hroom.2)
        refine ⟨piece ++ text, by rw [textOf, h₁]; rfl, by rw [h₂, List.append_assoc], ?_⟩
        rw [h₃, List.length_append]
        omega

theorem textOf_slashed (slashed : Bool) (b : Bytes) (ps : List (Except NameFlaw Bytes)) :
    textOf ((if slashed then [.ok [Path.slash]] else []) ++ .ok b :: ps)
      = (textOf ps).map ((if slashed then [Path.slash] else []) ++ b ++ ·) := by
  rw [textOf_append, textOf]
  cases slashed <;> cases textOf ps <;> simp [textOf]

theorem textOf_pieces_link (single slashed : Bool) (cs : List Component) :
    textOf (pieces .link single slashed cs) = some (spell slashed cs) := by
  induction cs generalizing slashed with
  | nil => rfl
  | cons c cs ih =>
    unfold pieces
    dsimp only
    rw [if_pos rfl, textOf_slashed, ih]
    rfl

theorem textOf_pieces_entry {single slashed : Bool} {cs : List Component} {text : Bytes}
    (h : textOf (pieces .entry single slashed cs) = some text) :
    text = spell slashed (if single then cs else cs.filter (· != .here)) ∧ .root ∉ cs
      ∧ .up ∉ cs := by
  induction cs generalizing slashed text with
  | nil =>
    cases h
    cases single <;> exact ⟨rfl, List.not_mem_nil, List.not_mem_nil⟩
  | cons c cs ih =>
    unfold pieces at h
    dsimp only at h
    rw [if_neg (by decide)] at h
    cases c with
    | root => cases h
    | up =>
      rw [if_neg (by simp)] at h
      cases h
    | here =>
      cases single with
      | true =>
        rw [if_pos rfl, textOf_slashed, Option.map_eq_some_iff] at h
        obtain ⟨rest, hrest, rfl⟩ := h
        obtain ⟨rfl, hroot, hup⟩ := ih hrest
        exact ⟨rfl, by simp [hroot], by simp [hup]⟩
      | false =>
        obtain ⟨rfl, hroot, hup⟩ := ih h
        exact ⟨rfl, by simp [hroot], by simp [hup]⟩
    | name n =>
      dsimp only at h
      rw [textOf_slashed, Option.map_eq_some_iff] at h
      obtain ⟨rest, hrest, rfl⟩ := h
      obtain ⟨rfl, hroot, hup⟩ := ih hrest
      refine ⟨?_, by simp [hroot], by simp [hup]⟩
      cases single with
      | true => rfl
      | false => simp [spell]

/-! ## What a name is written as -/

theorem piecesOf_ne_nil (rule : NameRule) (name : Bytes) : piecesOf rule name ≠ [] := by
  unfold piecesOf
  dsimp only
  split
  · exact List.cons_ne_nil _ _
  · rename_i hps
    split
    · simp
    · exact hps

theorem textOf_piecesOf {rule : NameRule} {name text : Bytes}
    (h : textOf (piecesOf rule name) = some text) :
    ∃ body, textOf (pieces rule ((components name).length == 1) false (components name))
        = some body ∧ components name ≠ []
      ∧ text = body ++ (if endsWithSlash name then [Path.slash] else []) := by
  unfold piecesOf at h
  dsimp only at h
  split at h
  · cases h
  rename_i hps
  have hne : components name ≠ [] := by
    intro e
    rw [e] at hps
    exact hps rfl
  split at h
  · rename_i hs
    rw [textOf_append, Option.bind_eq_some_iff] at h
    obtain ⟨body, hbody, h⟩ := h
    cases h
    exact ⟨body, hbody, hne, by rw [if_pos hs]; rfl⟩
  · rename_i hs
    exact ⟨text, h, hne, by rw [if_neg hs, List.append_nil]⟩

theorem endsWithSlash_trailing {body : Bytes} (hs : endsWithSlash body = false)
    (b : Bool) : endsWithSlash (body ++ (if b then [Path.slash] else [])) = b := by
  cases b with
  | true => exact endsWithSlash_append (List.cons_ne_nil _ _)
  | false => rwa [if_neg (by decide), List.append_nil]

theorem components_trailing {body : Bytes} (hb : body ≠ []) (b : Bool) :
    components (body ++ (if b then [Path.slash] else [])) = components body := by
  cases b with
  | true => exact components_concat_slash hb
  | false => rw [if_neg (by decide), List.append_nil]

/-- What the path of an entry is written as. -/
theorem written_entry {name text : Bytes} (h : textOf (piecesOf .entry name) = some text) :
    text ≠ [] ∧ components text = undotted (components name)
      ∧ endsWithSlash text = endsWithSlash name ∧ .root ∉ components name := by
  obtain ⟨body, hbody, hne, rfl⟩ := textOf_piecesOf h
  obtain ⟨hbody, hroot, -⟩ := textOf_pieces_entry hbody
  have hparts := parts_components name
  have hbody : body = spell false (undotted (components name)) := by
    rw [hbody]
    unfold undotted
    by_cases hl : (components name).length = 1
    · rw [if_pos hl, if_pos (by simpa using hl)]
    · rw [if_neg hl, if_neg (by simpa using hl)]
  have hbne : body ≠ [] := by
    intro e
    exact undotted_ne_nil hparts hne (spell_eq_nil (parts_undotted hparts) (hbody.symm.trans e))
  have hnoroot : undotted (components name) ≠ [.root] := by
    intro e
    refine hroot ?_
    have hmem : .root ∈ undotted (components name) := by
      rw [e]
      exact List.mem_cons_self
    unfold undotted at hmem
    split at hmem
    · exact hmem
    · exact (List.mem_filter.mp hmem).1
  have hslash : endsWithSlash body = false := by
    rw [hbody, endsWithSlash_spell (parts_undotted hparts)]
    exact decide_eq_false hnoroot
  refine ⟨by simp [hbne], ?_, endsWithSlash_trailing hslash _, hroot⟩
  rw [components_trailing hbne, hbody, components_spell (parts_undotted hparts)]

theorem alike_of_textOf {name text : Bytes} (h : textOf (piecesOf .entry name) = some text) :
    Alike name text := by
  obtain ⟨_, hcomponents, hslash, _⟩ := written_entry h
  exact ⟨by rw [essence, hcomponents, undotted_undotted]; rfl, hslash⟩

/-- What the target of a link is written as.  The root has no spelling without a slash at
its end. -/
theorem written_link {name text : Bytes} (h : textOf (piecesOf .link name) = some text) :
    text ≠ [] ∧ components text = components name
      ∧ (endsWithSlash text = endsWithSlash name
        ∨ components name = [.root] ∧ endsWithSlash name = false ∧ text = [Path.slash]) := by
  obtain ⟨body, hbody, hne, rfl⟩ := textOf_piecesOf h
  rw [textOf_pieces_link, Option.some.injEq] at hbody
  subst body
  have hparts := parts_components name
  have hbne : spell false (components name) ≠ [] := fun e => hne (spell_eq_nil hparts e)
  refine ⟨by simp [hbne], ?_, ?_⟩
  · rw [components_trailing hbne, components_spell hparts]
  · by_cases hroot : components name = [.root]
    · cases hs : endsWithSlash name with
      | true => exact .inl (endsWithSlash_append (List.cons_ne_nil _ _))
      | false =>
        refine .inr ⟨hroot, rfl, ?_⟩
        rw [hroot]
        rfl
    · have hslash : endsWithSlash (spell false (components name)) = false := by
        rw [endsWithSlash_spell hparts]
        exact decide_eq_false hroot
      exact .inl (endsWithSlash_trailing hslash _)

end Naming

namespace Header

open Naming ContainerLayer.Path

theorem sameBut_putName {fs : List Field} {f : Field} (hf : f ∈ fs) (h : Header) (rule : NameRule)
    (name : Bytes) : SameBut fs h (h.putName f rule name).1 := sameBut_put hf h _

/-- A field into which a name went gives back what the name is written as. -/
theorem get_putName {h h' : Header} {f : Field} {rule : NameRule} {name : Bytes}
    (e : h.putName f rule name = (h', none)) :
    ∃ text, textOf (piecesOf rule name) = some text ∧ (h'.get f).untilZero = text := by
  unfold putName at e
  cases hp : putPieces [] (h.get f) (piecesOf rule name) with
  | mk b flaw =>
    rw [hp] at e
    cases e
    obtain ⟨text, h₁, h₂, h₃⟩ :=
      putPieces_eq_none hp List.not_mem_nil (.inl (piecesOf_ne_nil rule name))
    refine ⟨text, h₁, ?_⟩
    rw [get_put h f (by rw [h₃, length_get]; exact Nat.zero_add _), h₂]
    rfl

theorem putName_of_putPath {h h' : Header} {f : Field} {rule : NameRule} {name : Bytes}
    (e : h.putPath f rule name = (h', none)) : h.putName f rule name = (h', none) := by
  unfold putPath at e
  cases hp : h.putName f rule name with
  | mk h₁ flaw =>
    rw [hp] at e
    cases flaw with
    | some flaw => cases e
    | none =>
      cases e
      rfl

theorem get_putPath {h h' : Header} {f : Field} {rule : NameRule} {name : Bytes}
    (e : h.putPath f rule name = (h', none)) :
    ∃ text, textOf (piecesOf rule name) = some text ∧ (h'.get f).untilZero = text :=
  get_putName (putName_of_putPath e)

theorem sameBut_putPath {fs : List Field} {f : Field} (hf : f ∈ fs) (h : Header) (rule : NameRule)
    (name : Bytes) : SameBut fs h (h.putPath f rule name).1 := sameBut_putName hf h rule name

theorem below_of_splitAt? {fuel : Nat} {path front : Bytes} (h : splitAt? fuel path = some front)
    (hne : front ≠ []) (hroot : front ≠ [Path.slash]) : Below front path := by
  induction fuel generalizing path with
  | zero => cases h
  | succ fuel ih =>
    unfold splitAt? at h
    split at h
    · cases h
    rename_i p e
    split at h
    · cases h
      exact below_of_parent? e hne hroot
    · have hp : Below front p := ih h
      refine hp.trans (below_of_parent? e ?_ ?_)
      · intro e
        subst e
        obtain ⟨rest, hrest⟩ := hp
        exact absurd hrest (by simp)
      · intro e
        subst e
        obtain ⟨rest, hrest⟩ := hp
        have hpos := List.length_pos_iff.mpr hne
        have hlen := congrArg List.length hrest
        simp only [List.length_append, List.length_cons, List.length_nil] at hlen
        omega

/-- The fields that a path of an entry goes into. -/
def pathFields (d : Dialect) : List Field := if d = .ustar then [.name, .front] else [.name]

theorem name_mem_pathFields (d : Dialect) : Field.name ∈ pathFields d := by
  unfold pathFields
  split <;> simp

theorem apart_pathFields {f : Field} (hn : f.Apart .name) (hf : f.Apart .front) (d : Dialect) :
    ∀ g ∈ pathFields d, f.Apart g := by
  intro g hg
  unfold pathFields at hg
  split at hg
  · rcases List.mem_cons.mp hg with rfl | hg
    · exact hn
    · rw [List.mem_singleton.mp hg]
      exact hf
  · rw [List.mem_singleton.mp hg]
    exact hn

theorem sameBut_setPath (h : Header) (rule : NameRule) (path : Bytes) :
    SameBut (pathFields h.dialect) h (h.setPath rule path).1 := by
  have hname := name_mem_pathFields h.dialect
  unfold setPath
  split
  · exact sameBut_putPath hname h rule path
  rename_i hd
  have hd : h.dialect = .ustar := by simpa using hd
  have hfront : Field.front ∈ pathFields h.dialect := by simp [pathFields, hd]
  split
  · exact sameBut_putPath hname h .entry path
  split
  · exact SameBut.refl _ h
  rename_i front _
  have hput := sameBut_putPath hfront h .entry front
  split
  · rename_i h₁ d e
    rw [e] at hput
    exact hput
  · rename_i h₁ e
    rw [e] at hput
    exact hput.trans (sameBut_putPath hname h₁ .entry _)

theorem path_of_front_eq_nil {h : Header}
    (hf : h.dialect = .ustar → (h.get .front).untilZero = []) :
    h.path = (h.get .name).untilZero := by
  unfold path
  dsimp only
  split
  · rename_i hc
    simp only [Bool.and_eq_true, decide_eq_true_eq] at hc
    rw [hf hc.1] at hc
    exact absurd hc.2 (by simp)
  · rfl

/-- Two texts that are written as `a` and `b` make a path that is written as `a/b`. -/
theorem alike_split {front rest a b : Bytes} (ha : textOf (piecesOf .entry front) = some a)
    (hb : textOf (piecesOf .entry rest) = some b) :
    Alike (front ++ Path.slash :: rest) (a ++ Path.slash :: b) := by
  obtain ⟨hane, hac, _, _⟩ := written_entry ha
  obtain ⟨hbne, hbc, hbs, _⟩ := written_entry hb
  have hfne : front ≠ [] := by
    intro e
    subst e
    cases ha
  have hrne : rest ≠ [] := by
    intro e
    subst e
    cases hb
  constructor
  · unfold essence
    rw [components_append_slash hane, components_append_slash hfne, hac,
      inner_eq_of_undotted hbc]
    refine undotted_undotted_append ?_ fun c hc => isStep_of_mem_inner hc
    intro e
    rw [e] at hac
    rw [piecesOf, e] at ha
    cases ha
  · have e : ∀ x y : Bytes, x ++ Path.slash :: y = (x ++ [Path.slash]) ++ y := by simp
    rw [e a, e front, endsWithSlash_append hbne, endsWithSlash_append hrne, hbs]

/-- The path goes into the name field, and the front field of the ustar header keeps what it
has. -/
structure Fronted (h : Header) (path : Bytes) : Prop where
  dialect : h.dialect = .ustar
  front : (h.get .front).untilZero ≠ []
  short : path.length ≤ 100
  fits : (h.putName .name .entry path).2 = none

theorem fronted_iff {h : Header} {path : Bytes} :
    h.Fronted path ↔ h.dialect = .ustar ∧ (h.get .front).untilZero ≠ [] ∧ path.length ≤ 100
      ∧ (h.putName .name .entry path).2 = none :=
  ⟨fun hb => ⟨hb.dialect, hb.front, hb.short, hb.fits⟩, fun ⟨h₁, h₂, h₃, h₄⟩ => ⟨h₁, h₂, h₃, h₄⟩⟩

instance (h : Header) (path : Bytes) : Decidable (h.Fronted path) :=
  decidable_of_iff' _ fronted_iff

/-- An entry with this header that was given `path` has the path `text` when it is read. -/
structure ComesAs (h : Header) (path text : Bytes) : Prop where
  behind : h.Fronted path → ∃ name, textOf (piecesOf .entry path) = some name
    ∧ text = (h.get .front).untilZero ++ Path.slash :: name
  alike : ¬ h.Fronted path → Alike path text

theorem ComesAs.alike_of_front_eq_nil {h : Header} {path text : Bytes} (hc : h.ComesAs path text)
    (hf : h.dialect = .ustar → (h.get .front).untilZero = []) : Alike path text :=
  hc.alike fun hb => hb.front (hf hb.dialect)

theorem ComesAs.of_same {fs : List Field} {h h' : Header} {path text : Bytes}
    (hs : SameBut fs h h') (hfs : ∀ f ∈ [Field.magic, .name, .front], ∀ g ∈ fs, f.Apart g)
    (hc : h'.ComesAs path text) : h.ComesAs path text := by
  have hdialect : h'.dialect = h.dialect := hs.dialect (hfs _ (by simp))
  have hfront : h'.get .front = h.get .front := hs _ (hfs _ (by simp))
  have hname : h'.get .name = h.get .name := hs _ (hfs _ (by simp))
  have hput : (h'.putName .name .entry path).2 = (h.putName .name .entry path).2 := by
    unfold putName
    rw [hname]
  have hiff : h'.Fronted path ↔ h.Fronted path := by
    constructor
    · intro hb
      exact ⟨hdialect.symm.trans hb.dialect, hfront ▸ hb.front, hb.short, hput.symm.trans hb.fits⟩
    · intro hb
      exact ⟨hdialect.trans hb.dialect, hfront.symm ▸ hb.front, hb.short, hput.trans hb.fits⟩
  refine ⟨fun hb => ?_, fun hb => hc.alike fun hb' => hb (hiff.mp hb')⟩
  rw [← hfront]
  exact hc.behind (hiff.mpr hb)

theorem Fronted.setPath {h : Header} {path : Bytes} (hb : h.Fronted path) :
    (h.setPath .entry path).2 = none := by
  unfold Header.setPath
  rw [if_neg (Decidable.not_not.mpr hb.dialect), if_pos hb.short, putPath]
  exact Option.map_eq_none_iff.mpr hb.fits

/-- Putting a path into the name field leaves the other fields alone. -/
theorem sameBut_of_putPath {h h' : Header} {rule : NameRule} {path : Bytes}
    (e : h.putPath .name rule path = (h', none)) : SameBut [.name] h h' := by
  have hs : SameBut [.name] h (h.putPath .name rule path).1 :=
    sameBut_putPath List.mem_cons_self h rule path
  rwa [e] at hs

/-- A path that went into the name field alone. -/
theorem comesAs_putPath {h h' : Header} {path : Bytes}
    (hshort : h.dialect = .ustar → path.length ≤ 100)
    (e : h.putPath .name .entry path = (h', none)) : h.ComesAs path h'.path := by
  have hs := sameBut_of_putPath e
  have hfront : h'.get .front = h.get .front := hs .front (by decide)
  have hdialect : h'.dialect = h.dialect := hs.dialect (by decide)
  obtain ⟨text, htext, hget⟩ := get_putPath e
  refine ⟨fun hb => ⟨text, htext, ?_⟩, fun hb => ?_⟩
  · unfold Header.path
    dsimp only
    rw [hfront, hget, hdialect, if_pos (by simp [hb.dialect, hb.front])]
    rfl
  · have hnil : h'.dialect = .ustar → (h'.get .front).untilZero = [] := by
      intro hd
      have hd := hdialect.symm.trans hd
      rw [hfront]
      exact Decidable.not_not.mp fun hne => hb ⟨hd, hne, hshort hd, congrArg Prod.snd (putName_of_putPath e)⟩
    rw [path_of_front_eq_nil hnil, hget]
    exact alike_of_textOf htext

/-- A path that went into both fields, split behind one of the directories above it. -/
theorem alike_of_split {h h₁ h' : Header} {path front : Bytes} (hd : h.dialect = .ustar)
    (hsplit : splitAt? (path.length + 1) path = some front)
    (e₁ : h.putPath .front .entry front = (h₁, none))
    (e : h₁.putPath .name .entry (path.drop (front.length + 1)) = (h', none)) :
    Alike path h'.path := by
  obtain ⟨a, ha, hgeta⟩ := get_putPath e₁
  obtain ⟨b, hb, hgetb⟩ := get_putPath e
  obtain ⟨hane, _, _, hroot⟩ := written_entry ha
  have hbelow : Below front path := by
    refine below_of_splitAt? hsplit ?_ ?_
    · intro e
      subst e
      cases ha
    · intro e
      subst e
      exact hroot (by decide)
  obtain ⟨rest, rfl⟩ := hbelow
  have hrest : (front ++ Path.slash :: rest).drop (front.length + 1) = rest := by simp
  rw [hrest] at hb
  have hs := sameBut_of_putPath e
  have hs₁ : SameBut [.front] h (h.putPath .front .entry front).1 :=
    sameBut_putPath List.mem_cons_self h .entry front
  rw [e₁] at hs₁
  have hdialect : h'.dialect = .ustar :=
    (hs.dialect (by decide)).trans ((hs₁.dialect (by decide)).trans hd)
  have hpath : h'.path = a ++ Path.slash :: b := by
    unfold Header.path
    dsimp only
    rw [hs .front (by decide), hgeta, hgetb, hdialect, if_pos (by simp [hane])]
    rfl
  rw [hpath]
  exact alike_split ha hb

/-- A path that went in is the path of the header, up to its spelling, unless it stands behind
what the front field had before. -/
theorem comesAs_setPath {h h' : Header} {path : Bytes} (e : h.setPath .entry path = (h', none)) :
    h.ComesAs path h'.path := by
  unfold setPath at e
  split at e
  · rename_i hd
    exact comesAs_putPath (fun h => absurd h hd) e
  rename_i hd
  split at e
  · rename_i hshort
    exact comesAs_putPath (fun _ => hshort) e
  rename_i hlong
  split at e
  · cases e
  rename_i front hsplit
  split at e
  · cases e
  rename_i h₁ e₁
  exact ⟨fun hb => absurd hb.short hlong,
    fun _ => alike_of_split (Decidable.not_not.mp hd) hsplit e₁ e⟩

/-- A path behind a front is the same path only if the front is a dot. -/
theorem alike_behind_iff {path name front : Bytes}
    (hname : textOf (piecesOf .entry path) = some name) (hf : front ≠ []) :
    Alike path (front ++ Path.slash :: name) ↔ components front = [.here] := by
  obtain ⟨hne, hcomponents, hslash, hroot⟩ := written_entry hname
  have hends : endsWithSlash (front ++ Path.slash :: name) = endsWithSlash path := by
    rw [List.append_cons, endsWithSlash_append hne, hslash]
  have hessence : essence (front ++ Path.slash :: name)
      = undotted (components front ++ inner path) := by
    rw [essence, components_append_slash hf, inner_eq_of_undotted hcomponents]
  have hpath : components path ≠ [] := by
    intro e
    refine components_ne_nil hne ?_
    rw [hcomponents, e]
    rfl
  rw [← undotted_append_inner_iff (parts_components front) (components_ne_nil hf) hpath hroot,
    ← hessence]
  exact ⟨fun h => h.essence, fun h => ⟨h, hends⟩⟩

theorem sameBut_setLinkName {fs : List Field} (hf : Field.linkName ∈ fs) (h : Header)
    (name : Bytes) : SameBut fs h (h.setLinkName name).1 := sameBut_putName hf h .link name

theorem putName_of_setLinkName {h h' : Header} {name : Bytes}
    (e : h.setLinkName name = (h', none)) : h.putName .linkName .link name = (h', none) := by
  unfold setLinkName at e
  cases hp : h.putName .linkName .link name with
  | mk h₁ flaw =>
    rw [hp] at e
    cases flaw with
    | some flaw => cases e
    | none =>
      cases e
      rfl

/-- A link name that went in is the link name of the header, up to its spelling. -/
theorem linkName_setLinkName {h h' : Header} {name : Bytes}
    (e : h.setLinkName name = (h', none)) :
    ∃ text, h'.linkName = some text ∧ components text = components name
      ∧ (endsWithSlash text = endsWithSlash name
        ∨ components name = [.root] ∧ endsWithSlash name = false ∧ text = [Path.slash]) := by
  obtain ⟨text, htext, hget⟩ := get_putName (putName_of_setLinkName e)
  obtain ⟨hne, hc, hs⟩ := written_link htext
  exact ⟨text, by rw [linkName, hget, if_neg hne], hc, hs⟩

end Header
end Tar
end ContainerLayer
