import ContainerLayer.Digest

/-
The texts that are digests.

A digest is an algorithm and a value with a colon between them.  `AlgorithmName` and
`WellFormed` say what both look like without splitting or checking anything, and parsing accepts
just the texts of well-formed digests (`parse_eq_ok_iff`).
-/

namespace ContainerLayer
namespace Digest

/-- Parts of an algorithm's name, with a joint between each and the next. -/
inductive AlgorithmName : List Char → Prop
  | part {p : List Char} (hne : p ≠ []) (h : ∀ c ∈ p, isPartChar c = true) : AlgorithmName p
  | joined {p cs : List Char} {j : Char} (hne : p ≠ []) (h : ∀ c ∈ p, isPartChar c = true)
    (hj : isJoint j = true) (rest : AlgorithmName cs) : AlgorithmName (p ++ j :: cs)

structure WellFormed (d : Digest) : Prop where
  algorithm : AlgorithmName d.algorithm.toList
  encoded_ne_nil : d.encoded.toList ≠ []
  valueChars : ∀ c ∈ d.encoded.toList, isValueChar c = true
  registered : ∀ n, registeredLength d.algorithm = some n →
    d.encoded.toList.length = n ∧ ∀ c ∈ d.encoded.toList, isHexChar c = true

/-! ## Names of algorithms -/

theorem not_isJoint_of_isPartChar {c : Char} (h : isPartChar c = true) : isJoint c = false := by
  refine Bool.eq_false_iff.mpr fun hj => ?_
  simp only [isJoint, Bool.or_eq_true, beq_iff_eq] at hj
  rcases hj with ((rfl | rfl) | rfl) | rfl <;> cases h

theorem parts_ne_nil (cs : List Char) : parts cs ≠ [] := by
  cases cs with
  | nil => exact List.cons_ne_nil _ _
  | cons c cs =>
    rw [parts, List.foldr_cons]
    split
    · exact List.cons_ne_nil _ _
    · split <;> exact List.cons_ne_nil _ _

theorem parts_cons {c : Char} {cs p : List Char} {ps : List (List Char)} (h : parts cs = p :: ps) :
    parts (c :: cs) = if isJoint c then [] :: p :: ps else (c :: p) :: ps := by
  rw [parts, List.foldr_cons]
  rw [parts] at h
  rw [h]

/-- Characters in front of the first joint are the first part. -/
theorem parts_append {p : List Char} (h : ∀ c ∈ p, isJoint c = false) {cs first : List Char}
    {more : List (List Char)} (hcs : parts cs = first :: more) :
    parts (p ++ cs) = (p ++ first) :: more := by
  induction p with
  | nil => exact hcs
  | cons c p ih =>
    have ih := ih fun x hx => h x (List.mem_cons_of_mem c hx)
    rw [List.cons_append, parts_cons ih, h c List.mem_cons_self]
    rfl

theorem parts_of_no_joint {p : List Char} (h : ∀ c ∈ p, isJoint c = false) : parts p = [p] := by
  have hparts : parts (p ++ []) = [p ++ []] := parts_append h rfl
  rwa [List.append_nil] at hparts

theorem parts_joined {p : List Char} (h : ∀ c ∈ p, isJoint c = false) {j : Char}
    (hj : isJoint j = true) (cs : List Char) : parts (p ++ j :: cs) = p :: parts cs := by
  obtain ⟨first, more, hcs⟩ := List.exists_cons_of_ne_nil (parts_ne_nil cs)
  have hjoint : parts (j :: cs) = [] :: parts cs := by rw [parts_cons hcs, if_pos hj, hcs]
  rw [parts_append h hjoint, List.append_nil]

theorem checkParts_cons_iff {p : List Char} {ps : List (List Char)} :
    checkParts (p :: ps) = .ok ()
      ↔ (p ≠ [] ∧ ∀ c ∈ p, isPartChar c = true) ∧ checkParts ps = .ok () := by
  rw [checkParts, ← List.all_eq_true]
  by_cases hp : p = []
  · simp [hp]
  by_cases hall : p.all isPartChar = true
  · simp [hp, hall]
  · simp [hp, hall]

/-- The parts that a name is split into are all good if it is the name of an algorithm. -/
theorem checkParts_parts_iff {cs : List Char} :
    checkParts (parts cs) = .ok () ↔ AlgorithmName cs := by
  constructor
  · intro h
    induction hn : cs.length using Nat.strongRecOn generalizing cs with
    | ind n ih =>
      -- the first part goes up to the first joint
      have hfront : ∀ c ∈ cs.takeWhile fun c => !isJoint c, isJoint c = false := fun c hc => by
        simpa using List.all_eq_true.mp List.all_takeWhile c hc
      obtain ⟨p, hp⟩ : ∃ p, p = cs.takeWhile fun c => !isJoint c := ⟨_, rfl⟩
      have hcut := List.takeWhile_append_dropWhile (p := fun c => !isJoint c) (l := cs)
      rw [← hp] at hfront hcut
      cases hback : cs.dropWhile fun c => !isJoint c with
      | nil =>
        rw [hback, List.append_nil] at hcut
        subst hcut
        rw [parts_of_no_joint hfront, checkParts_cons_iff] at h
        exact .part h.1.1 h.1.2
      | cons j back =>
        have hj : isJoint j = true := by
          have := List.head?_dropWhile_not (fun c => !isJoint c) cs
          rw [hback] at this
          simpa using this
        rw [hback] at hcut
        subst hcut
        rw [parts_joined hfront hj, checkParts_cons_iff] at h
        have hlt : back.length < n := by
          rw [List.length_append, List.length_cons] at hn
          omega
        exact .joined h.1.1 h.1.2 hj (ih _ hlt h.2 rfl)
  · intro h
    induction h with
    | part hne h =>
      rw [parts_of_no_joint fun c hc => not_isJoint_of_isPartChar (h c hc), checkParts_cons_iff]
      exact ⟨⟨hne, h⟩, rfl⟩
    | joined hne h hj rest ih =>
      rw [parts_joined (fun c hc => not_isJoint_of_isPartChar (h c hc)) hj, checkParts_cons_iff]
      exact ⟨⟨hne, h⟩, ih⟩

/-- The characters of a name belong to its parts or are joints, and a part comes first. -/
theorem AlgorithmName.chars {cs : List Char} (h : AlgorithmName cs) :
    (∃ c rest, cs = c :: rest ∧ isPartChar c = true) ∧
      ∀ c ∈ cs, isPartChar c = true ∨ isJoint c = true := by
  have hhead : ∀ {p rest : List Char}, p ≠ [] → (∀ c ∈ p, isPartChar c = true) →
      ∃ c more, p ++ rest = c :: more ∧ isPartChar c = true := by
    intro p rest hne hp
    obtain ⟨c, more, rfl⟩ := List.exists_cons_of_ne_nil hne
    exact ⟨c, more ++ rest, rfl, hp c List.mem_cons_self⟩
  induction h with
  | @part p hne h =>
    refine ⟨?_, fun c hc => .inl (h c hc)⟩
    rw [← List.append_nil p]
    exact hhead hne h
  | joined hne h hj rest ih =>
    refine ⟨hhead hne h, fun c hc => ?_⟩
    rcases List.mem_append.mp hc with hc | hc
    · exact .inl (h c hc)
    rcases List.mem_cons.mp hc with rfl | hc
    · exact .inr hj
    · exact ih.2 c hc

/-! ## Values -/

theorem checkValue_eq_ok_iff {algorithm : String} {value : List Char} :
    checkValue algorithm value = .ok () ↔
      value ≠ [] ∧ (∀ c ∈ value, isValueChar c = true) ∧
        ∀ n, registeredLength algorithm = some n →
          value.length = n ∧ ∀ c ∈ value, isHexChar c = true := by
  rw [← List.all_eq_true, ← List.all_eq_true, checkValue]
  by_cases hne : value = []
  · simp [hne]
  by_cases hall : value.all isValueChar = true
  · simp only [hall, Bool.not_true, Bool.false_eq_true, if_false, ne_eq, hne, not_false_iff,
      true_and]
    cases registeredLength algorithm with
    | none => simp
    | some n =>
      by_cases hlen : value.length = n
      · by_cases hhex : value.all isHexChar = true
        · simp [hlen, hhex]
        · simp [hlen, hhex]
      · simp [hlen]
  · simp [hne, hall]

/-! ## Digests -/

theorem colon_not_mem_of_algorithmName {cs : List Char} (h : AlgorithmName cs) : ':' ∉ cs := by
  intro hc
  rcases h.chars.2 ':' hc with hc | hc <;> cases hc

/-- A text is cut at the first colon. -/
theorem cut_of_colon {name : List Char} (h : ':' ∉ name) (value : List Char) :
    (name ++ ':' :: value).takeWhile (· != ':') = name ∧
      (name ++ ':' :: value).dropWhile (· != ':') = ':' :: value := by
  have hp : ∀ c ∈ name, (c != ':') = true := fun c hc => by simpa using ne_of_mem_of_not_mem hc h
  constructor
  · rw [List.takeWhile_append_of_pos hp]
    simp
  · rw [List.dropWhile_append_of_pos hp]
    simp

theorem exists_cut {cs value : List Char} {c : Char} (h : cs.dropWhile (· != ':') = c :: value) :
    ∃ name, ':' ∉ name ∧ cs = name ++ ':' :: value := by
  have hcolon : c = ':' := by
    have := List.head?_dropWhile_not (· != ':') cs
    rw [h] at this
    simpa using this
  refine ⟨cs.takeWhile (· != ':'), fun hc => ?_, ?_⟩
  · have := List.all_eq_true.mp (List.all_takeWhile (p := (· != ':'))) ':' hc
    cases this
  · have hcut := List.takeWhile_append_dropWhile (p := (· != ':')) (l := cs)
    rw [h, hcolon] at hcut
    exact hcut.symm

/-- Parsing checks the name first and then the value. -/
theorem parse_of_colon {text : String} {name value : List Char} (h : ':' ∉ name)
    (htext : text.toList = name ++ ':' :: value) :
    parse text = (checkParts (parts name) >>= fun _ =>
      checkValue (String.ofList name) value >>= fun _ =>
        .ok ⟨String.ofList name, String.ofList value⟩) := by
  unfold parse
  dsimp only
  rw [htext, (cut_of_colon h value).1, (cut_of_colon h value).2]
  rfl

/-- A text is a digest if it is that of a well-formed one. -/
theorem parse_eq_ok_iff {text : String} {d : Digest} :
    parse text = .ok d ↔ text = d.render ∧ d.WellFormed := by
  constructor
  · intro h
    cases hvalue : text.toList.dropWhile (· != ':') with
    | nil =>
      unfold parse at h
      dsimp only at h
      rw [hvalue] at h
      cases h
    | cons c value =>
      obtain ⟨name, hname, hcut⟩ := exists_cut hvalue
      rw [parse_of_colon hname hcut] at h
      cases hparts : checkParts (parts name) with
      | error e =>
        rw [hparts] at h
        cases h
      | ok u =>
        cases hcheck : checkValue (String.ofList name) value with
        | error e =>
          rw [hparts, hcheck] at h
          cases h
        | ok u =>
          rw [hparts, hcheck] at h
          cases h
          obtain ⟨hne, hchars, hregistered⟩ := checkValue_eq_ok_iff.mp hcheck
          refine ⟨?_, ?_, ?_, ?_, ?_⟩
          · refine String.toList_inj.mp ?_
            rw [hcut, render]
            simp
          · rw [String.toList_ofList]
            exact checkParts_parts_iff.mp hparts
          · rwa [String.toList_ofList]
          · rwa [String.toList_ofList]
          · rwa [String.toList_ofList]
  · rintro ⟨rfl, halgorithm, hne, hchars, hregistered⟩
    have htext : d.render.toList = d.algorithm.toList ++ ':' :: d.encoded.toList := by
      rw [render]
      simp
    have hcheck : checkValue d.algorithm d.encoded.toList = .ok () :=
      checkValue_eq_ok_iff.mpr ⟨hne, hchars, hregistered⟩
    rw [parse_of_colon (colon_not_mem_of_algorithmName halgorithm) htext,
      checkParts_parts_iff.mpr halgorithm, String.ofList_toList, String.ofList_toList, hcheck]
    rfl

end Digest
end ContainerLayer
