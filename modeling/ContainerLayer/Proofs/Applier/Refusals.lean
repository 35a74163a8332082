import ContainerLayer.Proofs.Applier.Accounting

/-
What is checked before a layer is applied.

However appliers are nested, the type of the layer is looked at first, then the mounts, and
then the blob is opened.  Only what comes behind that touches the tree, and it is done once, in
the directory that the mounts stand for (`apply_eq`).  So a layer that is refused by one of the
checks leaves the tree alone, and the first check that fails is the one that is reported.
-/

namespace ContainerLayer

theorem MediaType.normalize_normalize (m : MediaType) : m.normalize.normalize = m.normalize := by
  cases m with
  | layer c => rfl
  | nonDistributableLayer c => rfl
  | document d => rfl
  | other t =>
    by_cases h : t = oldZstdLayer
    · simp only [normalize, if_pos h]
    · simp only [normalize, if_neg h]

namespace Mount

theorem isReadOnly_iff {m : Mount} : m.isReadOnly = true ↔ "ro" ∈ m.options :=
  List.contains_iff_mem

/-- The first mount that is not for writing is the one that is named. -/
theorem target_of_readOnly {front back : List Mount} {m : Mount}
    (hfront : ∀ x ∈ front, "ro" ∉ x.options) (hm : "ro" ∈ m.options) :
    target (front ++ m :: back) = .error (.mount m.source .readOnly) := by
  have hfind : (front ++ m :: back).find? isReadOnly = some m := by
    have hnone : front.find? isReadOnly = none :=
      List.find?_eq_none.mpr fun x hx h => hfront x hx (isReadOnly_iff.mp h)
    rw [List.find?_append, hnone, Option.none_or,
      List.find?_cons_of_pos (isReadOnly_iff.mpr hm)]
  unfold target
  rw [hfind]
  cases front <;> rfl

/-- A single mount that binds a directory for writing stands for that directory. -/
theorem target_bind {m : Mount} (hbind : m.isBind = true) (hm : "ro" ∉ m.options) :
    target [m] = .ok m.source := by
  have hfind : [m].find? isReadOnly = none := by
    rw [List.find?_cons_of_neg fun h => hm (isReadOnly_iff.mp h), List.find?_nil]
  unfold target
  rw [hfind]
  exact if_pos hbind

end Mount

namespace Applier

/-- Which directory of a layer is moved to the root; `none` if all of it is applied. -/
def startFor (options : ApplyOptions) : Applier → Option String
  | direct _ => none
  | windows _ start inner => if options.windowsLayer then some start else inner.startFor options

/-- Opens a blob, and passes on the layer that is in it. -/
def withLayer (store : Store) (d : Descriptor) (c : Compression) (t : Tree)
    (use : Layer → Except LayerError Descriptor × Tree) : Except LayerError Descriptor × Tree :=
  match Layer.open? store t d c with
  | .error e => (.error e, t)
  | .ok layer => use layer

/-- Applies a layer to a directory, either all of it or what one of its directories holds. -/
def unpackLayer (start : Option String) (root : PathParts) (t : Tree) (layer : Layer) :
    Except LayerError Descriptor × Tree :=
  match start with
  | none => applyWhole root layer t
  | some start => applyMoved start root layer t

/-- What is done in the directory that mounts stand for: the blob is opened, and applied. -/
def body (a : Applier) (options : ApplyOptions) (d : Descriptor) (c : Compression)
    (root : PathParts) (t : Tree) : Except LayerError Descriptor × Tree :=
  withLayer (a.storeFor options) d c t (unpackLayer (a.startFor options) root t)

/-- The type is checked first, then the mounts are, and then the blob is opened. -/
theorem prepared_eq (store : Store) (d : Descriptor) (mounts : List Mount) (t : Tree)
    (use : PathParts → Layer → Except LayerError Descriptor × Tree) :
    (match prepare store { d with mediaType := d.mediaType.normalize } mounts t with
      | .error e => (Except.error e, t)
      | .ok (root, layer) => use root layer)
      = match d.mediaType.compression? with
        | none => (.error (.unsupportedMediaType d.mediaType.normalize.text), t)
        | some c =>
          match Mount.target mounts with
          | .error e => (.error e, t)
          | .ok source => withLayer store d c t (use (Tree.partsOf source)) := by
  unfold prepare withLayer
  dsimp only
  rw [MediaType.compression?_normalize]
  cases d.mediaType.compression? with
  | none => rfl
  | some c =>
    cases Mount.target mounts with
    | error e => rfl
    | ok source =>
      -- what is opened goes by the digest and the size, which stay as they are
      have hopen : Layer.open? store t { d with mediaType := d.mediaType.normalize } c
          = Layer.open? store t d c := rfl
      simp only [bind, Except.bind, hopen]
      cases Layer.open? store t d c with
      | error e => rfl
      | ok layer => rfl

/-- The type is checked first, and the mounts are then; all that remains is one run of the body. -/
theorem apply_eq (a : Applier) (d : Descriptor) (mounts : List Mount) (options : ApplyOptions)
    (t : Tree) :
    a.apply d mounts options t = match d.mediaType.compression? with
      | none => (.error (.unsupportedMediaType d.mediaType.normalize.text), t)
      | some c =>
        match Mount.target mounts with
        | .error e => (.error e, t)
        | .ok source => a.body options d c (Tree.partsOf source) t := by
  induction a generalizing d with
  | direct store =>
    unfold apply
    exact prepared_eq store d mounts t fun root layer => applyWhole root layer t
  | windows store start inner ih =>
    unfold apply
    dsimp only
    cases hw : options.windowsLayer with
    | false =>
      have hbody : (windows store start inner).body options = inner.body options := by
        funext d c root t
        simp only [body, storeFor, startFor, hw, Bool.false_eq_true, if_false]
      rw [if_pos (by decide), ih, MediaType.compression?_normalize,
        MediaType.normalize_normalize, hbody]
      rfl
    | true =>
      have hbody : (windows store start inner).body options
          = fun d c root t => withLayer store d c t (unpackLayer (some start) root t) := by
        funext d c root t
        simp only [body, storeFor, startFor, hw, if_true]
      rw [hbody]
      exact prepared_eq store d mounts t fun root layer => applyMoved start root layer t

/-- A blob that is not there, or not as long as it should be, is not opened. -/
theorem withLayer_of_open_error {store : Store} {t : Tree} {d : Descriptor} {cause : StoreCause}
    (h : store.open? t d = .error cause) (c : Compression)
    (use : Layer → Except LayerError Descriptor × Tree) :
    withLayer store d c t use = (.error (.contentStore cause), t) := by
  have hopen : Layer.open? store t d c = .error (.contentStore cause) := by
    unfold Layer.open?
    rw [h]
  unfold withLayer
  rw [hopen]

/-- The checks that every applier makes, in their order, whatever comes behind a failing one:
the type has to be that of a layer, there has to be a mount and none only for reading, and the
blob has to be there with its size.  A failed check is the outcome, and the tree is as it was.
For the single mount of a directory the outcome is that of one run of the body, there. -/
theorem apply_refuses (a : Applier) (d : Descriptor) (mounts : List Mount)
    (options : ApplyOptions) (t : Tree) :
    (d.mediaType.normalize.compression? = none →
        a.apply d mounts options t
          = (.error (.unsupportedMediaType d.mediaType.normalize.text), t)) ∧
      ∀ c, d.mediaType.normalize.compression? = some c →
        (mounts = [] → a.apply d mounts options t = (.error (.mount [] .noMounts), t)) ∧
        (∀ front m back, mounts = front ++ m :: back → (∀ x ∈ front, "ro" ∉ x.options) →
          "ro" ∈ m.options →
          a.apply d mounts options t = (.error (.mount m.source .readOnly), t)) ∧
        ∀ m, mounts = [m] → m.isBind = true → "ro" ∉ m.options →
          a.apply d mounts options t = a.body options d c (Tree.partsOf m.source) t ∧
          (∀ k, (a.storeFor options).blobSize t d.digest = .error k →
            a.apply d mounts options t = (.error (.contentStore (.failed k)), t)) ∧
          ∀ size, (a.storeFor options).blobSize t d.digest = .ok size → size ≠ d.size →
            a.apply d mounts options t
              = (.error (.contentStore (.wrongSize d.digest size d.size)), t) := by
  rw [MediaType.compression?_normalize]
  constructor
  · intro hc
    rw [apply_eq, hc]
  intro c hc
  have happly : ∀ {source}, Mount.target mounts = .ok source →
      a.apply d mounts options t = a.body options d c (Tree.partsOf source) t := by
    intro source hsource
    rw [apply_eq, hc]
    dsimp only
    rw [hsource]
  have hrefused : ∀ {e}, Mount.target mounts = .error e →
      a.apply d mounts options t = (.error e, t) := by
    intro e he
    rw [apply_eq, hc]
    dsimp only
    rw [he]
  refine ⟨?_, ?_, ?_⟩
  · rintro rfl
    exact hrefused rfl
  · rintro front m back rfl hfront hm
    exact hrefused (Mount.target_of_readOnly hfront hm)
  · rintro m rfl hbind hm
    have hbody := happly (Mount.target_bind hbind hm)
    have hunopened : ∀ {cause}, (a.storeFor options).open? t d = .error cause →
        a.apply d [m] options t = (.error (.contentStore cause), t) := by
      intro cause hopen
      rw [hbody]
      exact withLayer_of_open_error hopen c _
    refine ⟨hbody, fun k hk => hunopened ?_, fun size hfound hsize => hunopened ?_⟩
    · rw [Store.open?, hk]
    · rw [Store.open?, hfound]
      exact if_neg hsize

/-- A mount only for reading, among others. -/
def readOnlyMounts : List Mount :=
  [Mount.bind (ascii "/root"), { kind := "bind", source := ascii "/other", options := ["ro"] }]

/-- The descriptor of a blob that should be empty, but is not. -/
def misdescribed (m : MediaType) : Descriptor := { storedDescriptor with mediaType := m, size := 0 }

/-- The type is reported although a mount is only for reading and the size is wrong, too, the
mount although the size is wrong, and the size in the end.  The tree is never touched. -/
theorem apply_refuses_misdescribed :
    let apply := (forHost rootStore (direct rootStore) {}).apply
    let windowsLayer : ApplyOptions := { windowsLayer := true }
    apply (misdescribed (.other "text/plain")) readOnlyMounts windowsLayer stored
        = (.error (.unsupportedMediaType "text/plain"), stored) ∧
      apply (misdescribed (.layer .none)) readOnlyMounts windowsLayer stored
        = (.error (.mount (ascii "/other") .readOnly), stored) ∧
      apply (misdescribed (.layer .none)) [Mount.bind (ascii "/root")] windowsLayer stored
        = (.error (.contentStore (.wrongSize storedDescriptor.digest trailing.length 0)),
          stored) := by
  intro apply windowsLayer
  have hsize : rootStore.blobSize stored storedDescriptor.digest = .ok trailing.length :=
    Extract.eq_ok_of_toOption (by decide +kernel)
  refine ⟨?_, ?_, ?_⟩
  · exact (apply_refuses _ (misdescribed (.other "text/plain")) readOnlyMounts windowsLayer
      stored).1 (by decide)
  · exact ((apply_refuses _ (misdescribed (.layer .none)) readOnlyMounts windowsLayer
      stored).2 .none rfl).2.1 [Mount.bind (ascii "/root")] _ [] rfl (by decide) (by decide)
  · exact (((apply_refuses _ (misdescribed (.layer .none)) [Mount.bind (ascii "/root")]
      windowsLayer stored).2 .none rfl).2.2 _ rfl (by decide) (by decide)).2.2 trailing.length
        hsize (by decide +kernel)

end Applier
end ContainerLayer
