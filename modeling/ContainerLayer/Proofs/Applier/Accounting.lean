import ContainerLayer.Applier
import ContainerLayer.Proofs.Compression.Content
import ContainerLayer.Proofs.Digest
import ContainerLayer.Proofs.Extract.History

/-
What a descriptor of an applied layer accounts for.

Every byte that is read of a layer is counted and hashed once, whoever reads it: the
extraction, or a filter that has the layer for its source and hands it back.  A layer
is read to its end before it is described, so the descriptor depends on the
decompressed stream alone (`apply_descriptor`).
-/

namespace ContainerLayer

namespace Layer

/-- What was read of `u₀` so far was counted and hashed, and `u₀` may come to that and what is
still to come. -/
structure Accounts (u₀ : Unpacked) (layer : Layer) : Prop where
  unbroken : layer.inner.inner.Unbroken
  counted : ∃ b, (∀ r, layer.inner.inner.Comes r → u₀.Comes ((b ++ ·) <$> r)) ∧
    layer.count = b.length ∧ layer.inner.hasher = Sha256.start.update b

theorem accounts_ofStream {u : Unpacked} (h : u.Unbroken) : Accounts u (ofStream u) where
  unbroken := h
  counted := ⟨[], fun r hr => (Reader.map_append_nil r).symm ▸ hr, rfl, rfl⟩

/-- One read of a layer, from what it is a reader of. -/
theorem read_eq (n : Nat) (layer : Layer) :
    Reader.read n layer = match layer.inner.inner.read n with
      | (.ok b, u) => (.ok b, ⟨⟨u, layer.inner.hasher.update b⟩, layer.count + b.length⟩)
      | (.error f, u) => (.error f, ⟨⟨u, layer.inner.hasher⟩, layer.count⟩) := by
  show Counted.read n layer = _
  have hinner : Reader.read n layer.inner = Digested.read n layer.inner := rfl
  have hread : Reader.read n layer.inner.inner = layer.inner.inner.read n := rfl
  rw [Counted.read, hinner, Digested.read, hread]
  rcases layer.inner.inner.read n with ⟨_ | _, _⟩
  · rfl
  · rfl

theorem keeps_accounts (u₀ : Unpacked) : Reader.Keeps (Accounts u₀) := by
  intro n layer ⟨hu, b, hcomes, hcount, hhash⟩
  have hkeeps := Unpacked.tells.keeps n layer.inner.inner hu
  cases hread : (layer.inner.inner.read n).1 with
  | error f =>
    rw [read_eq, show layer.inner.inner.read n = (.error f, _) from Prod.ext hread rfl]
    refine ⟨hkeeps, b, fun r hr => hcomes r ?_, hcount, hhash⟩
    exact (Unpacked.tells.of_error n layer.inner.inner f hu trivial hread).2 r hr
  | ok c =>
    rw [read_eq, show layer.inner.inner.read n = (.ok c, _) from Prod.ext hread rfl]
    refine ⟨hkeeps, b ++ c, fun r hr => ?_, ?_, ?_⟩
    · rw [← Reader.map_append]
      exact hcomes _ (Unpacked.tells.of_ok n layer.inner.inner c r hu trivial hread hr)
    · rw [hcount, List.length_append]
    · rw [hhash, Sha256.update_append]

/-- The descriptor of a stream that is not compressed. -/
def describe (stream : Bytes) : Descriptor where
  mediaType := .layer .none
  digest := ⟨"sha256", (Sha256.hash stream).hex⟩
  size := stream.length

/-- Unless a fault is in the way, a layer is read to the end of its content, and everything it
gave is accounted for then. -/
theorem exists_complete_eq {u₀ : Unpacked} {layer : Layer} (h : Accounts u₀ layer)
    (hdrain : (Reader.drainOnto drainSize [] layer).fault = none) :
    ∃ stream, u₀.content? = some stream ∧ layer.complete = .ok (describe stream) := by
  obtain ⟨layer', ⟨hu, b, hcomes, hcount, hhash⟩, hread⟩ :=
    ((keeps_accounts u₀).drainOnto drainSize [] h).2 hdrain
  -- the last read found nothing, so it left count and hasher as they were
  obtain ⟨hend, hrest⟩ : (layer'.inner.inner.read drainSize).1 = .ok [] ∧
      (Reader.drainOnto drainSize [] layer).rest
        = ⟨⟨(layer'.inner.inner.read drainSize).2, layer'.inner.hasher.update []⟩,
            layer'.count + 0⟩ := by
    rw [read_eq] at hread
    split at hread <;> rename_i e <;> obtain ⟨hend, hrest⟩ := Prod.mk.inj hread
    · cases hend
      rw [e]
      exact ⟨rfl, hrest.symm⟩
    · cases hend
  have hall : u₀.Comes (.ok b) := by
    have hnil : ((b ++ ·) <$> .ok [] : Except Fault Bytes) = .ok b :=
      congrArg Except.ok (List.append_nil b)
    rw [← hnil]
    exact hcomes _
      (Unpacked.tells.of_nil drainSize layer'.inner.inner hu trivial (by decide) hend)
  refine ⟨b, hall.content?_eq, ?_⟩
  unfold complete
  dsimp only
  rw [hdrain]
  dsimp only
  rw [descriptor, Digested.digest, hrest]
  dsimp only
  rw [hhash, Sha256.update_nil, Digest.ofSha256_eq (Sha256.length_finish _), hcount]
  rfl

theorem exists_of_complete {u₀ : Unpacked} {layer : Layer} (h : Accounts u₀ layer)
    {d : Descriptor} (hd : layer.complete = .ok d) :
    ∃ stream, u₀.content? = some stream ∧ d = describe stream := by
  have hdrain : (Reader.drainOnto drainSize [] layer).fault = none := by
    cases hfault : (Reader.drainOnto drainSize [] layer).fault with
    | none => rfl
    | some f =>
      unfold complete at hd
      dsimp only at hd
      rw [hfault] at hd
      cases hd
  obtain ⟨stream, hstream, hcomplete⟩ := exists_complete_eq h hdrain
  rw [hcomplete] at hd
  exact ⟨stream, hstream, (Except.ok.inj hd).symm⟩

/-- A layer that was opened gives what its blob decompresses to, unless no read of it succeeds. -/
theorem exists_of_open? {store : Store} {t : Tree} {d : Descriptor} {c : Compression}
    {layer : Layer} (h : open? store t d c = .ok layer) :
    (∃ blob u, store.read t d = .ok blob ∧ Compression.unpacked c blob = .ok u ∧
        layer = ofStream u) ∨
      ∃ f, layer = ofStream (.failing f) := by
  have hread : ∀ {blob}, store.open? t d = .ok (.ok blob) → store.read t d = .ok blob := by
    intro blob e
    unfold Store.read
    rw [e]
    rfl
  unfold open? at h
  split at h
  · cases h
  · cases h
    exact .inr ⟨_, rfl⟩
  · cases h
  · rename_i blob e
    cases h
    exact .inl ⟨blob, _, hread e, rfl, rfl⟩
  · rename_i blob e hc
    split at h
    · cases h
    · rename_i guess u hu
      cases h
      refine .inl ⟨blob, u, hread e, ?_, rfl⟩
      unfold Compression.unpacked
      split
      · exact absurd rfl hc
      · rw [hu]
        rfl

end Layer

namespace MediaType

/-- Both names of a type stand for the same compression. -/
theorem compression?_normalize (m : MediaType) : m.normalize.compression? = m.compression? := by
  cases m with
  | layer c => rfl
  | nonDistributableLayer c => rfl
  | document d => rfl
  | other t =>
    dsimp only [normalize]
    by_cases h : t = oldZstdLayer
    · rw [if_pos h, h]
      decide
    · rw [if_neg h]

end MediaType

namespace Applier

/-- The store that a layer comes from: that of the first applier that does not pass it on. -/
def storeFor (options : ApplyOptions) : Applier → Store
  | direct store => store
  | windows store _ inner => if options.windowsLayer then store else inner.storeFor options

/-- A run on a layer, by whichever way, ends with the layer complete. -/
theorem exists_accounts_of_applyWhole {root : PathParts} {layer : Layer} {t t' : Tree}
    {d : Descriptor} (h : applyWhole root layer t = (.ok d, t')) {u : Unpacked}
    (hu : Layer.Accounts u layer) : ∃ rest, Layer.Accounts u rest ∧ rest.complete = .ok d := by
  unfold applyWhole at h
  dsimp only at h
  split at h
  · cases h
  · exact ⟨_, (Layer.keeps_accounts u).run _ hu, (Prod.mk.inj h).1⟩

theorem exists_accounts_of_applyMoved {start : String} {root : PathParts} {layer : Layer}
    {t t' : Tree} {d : Descriptor} (h : applyMoved start root layer t = (.ok d, t'))
    {u : Unpacked} (hu : Layer.Accounts u layer) :
    ∃ rest, Layer.Accounts u rest ∧ rest.complete = .ok d := by
  unfold applyMoved at h
  dsimp only at h
  split at h
  · cases h
  split at h
  · cases h
  split at h
  · cases h
  · rename_i hfinish
    have hrun := (Filtered.keeps (Layer.keeps_accounts u)).run
      (Extract.applyArchive root t)
      (s := Filtered.start layer (stripDecision (Bytes.ofText start)) ()) hu
    have := Filtered.keeps_finish (Layer.keeps_accounts u) hrun
    rw [hfinish] at this
    exact ⟨_, this, (Prod.mk.inj h).1⟩

/-- A layer that was unpacked is described, whatever the archive in it left unread. -/
theorem applyWhole_of_drained {root : PathParts} {u : Unpacked} {t t' : Tree} {n : Nat}
    {stream : Bytes} (hu : u.Unbroken) (hstream : u.content? = some stream)
    (h : ((Extract.applyArchive root t).run (Layer.ofStream u)).result = (.ok n, t'))
    (hdrain : (Reader.drainOnto Layer.drainSize []
      ((Extract.applyArchive root t).run (Layer.ofStream u)).rest).fault = none) :
    applyWhole root (Layer.ofStream u) t = (.ok (Layer.describe stream), t') := by
  have haccounts := (Layer.keeps_accounts u).run (Extract.applyArchive root t)
    (Layer.accounts_ofStream hu)
  obtain ⟨stream', hstream', hcomplete⟩ := Layer.exists_complete_eq haccounts hdrain
  cases hstream.symm.trans hstream'
  unfold applyWhole
  dsimp only
  rw [h]
  dsimp only
  rw [hcomplete]

/-- The same for a layer of which a part was unpacked, if the filter came to its end. -/
theorem applyMoved_of_drained {start : String} {root : PathParts} {u : Unpacked} {t t' : Tree}
    {n : Nat} {stream : Bytes} (hu : u.Unbroken) (hstream : u.content? = some stream)
    (h : ((Extract.applyArchive root t).run (Filtered.start (Layer.ofStream u)
      (stripDecision (Bytes.ofText start)) ())).result = (.ok n, t'))
    (hdrain : ((Extract.applyArchive root t).run (Filtered.start (Layer.ofStream u)
      (stripDecision (Bytes.ofText start)) ())).rest.drain.fault = none)
    {stats : FilterStats}
    (hfinish : ((Extract.applyArchive root t).run (Filtered.start (Layer.ofStream u)
      (stripDecision (Bytes.ofText start)) ())).rest.finish.1 = .ok stats)
    (hrest : (Reader.drainOnto Layer.drainSize []
      ((Extract.applyArchive root t).run (Filtered.start (Layer.ofStream u)
        (stripDecision (Bytes.ofText start)) ())).rest.finish.2).fault = none) :
    applyMoved start root (Layer.ofStream u) t = (.ok (Layer.describe stream), t') := by
  have hrun := (Filtered.keeps (Layer.keeps_accounts u)).run (Extract.applyArchive root t)
    (s := Filtered.start (Layer.ofStream u) (stripDecision (Bytes.ofText start)) ())
    (Layer.accounts_ofStream hu)
  have haccounts := Filtered.keeps_finish (Layer.keeps_accounts u) hrun
  obtain ⟨stream', hstream', hcomplete⟩ := Layer.exists_complete_eq haccounts hrest
  cases hstream.symm.trans hstream'
  unfold applyMoved
  dsimp only
  rw [h]
  dsimp only
  rw [hdrain]
  dsimp only
  split
  · rename_i e
    rw [e] at hfinish
    cases hfinish
  · rename_i e
    rw [e] at hcomplete
    rw [hcomplete]

theorem exists_layer_of_prepare {store : Store} {d : Descriptor} {mounts : List Mount} {t : Tree}
    {root : PathParts} {layer : Layer} (h : prepare store d mounts t = .ok (root, layer)) :
    ∃ c, d.mediaType.compression? = some c ∧ Layer.open? store t d c = .ok layer := by
  unfold prepare at h
  split at h
  · cases h
  rename_i c hc
  cases hm : Mount.target mounts with
  | error e => simp only [hm, bind, Except.bind] at h; cases h
  | ok target =>
    cases hl : Layer.open? store t d c with
    | error e => simp only [hm, hl, bind, Except.bind] at h; cases h
    | ok layer' =>
      simp only [hm, hl, bind, Except.bind] at h
      cases h
      exact ⟨c, hc, hl⟩

/-- A layer that was opened and is complete in the end is described by its content. -/
theorem exists_content_of_prepare {store : Store} {d r : Descriptor} {mounts : List Mount}
    {t : Tree} {root : PathParts} {layer : Layer}
    (hp : prepare store { d with mediaType := d.mediaType.normalize } mounts t
      = .ok (root, layer))
    (hrest : ∀ u, Layer.Accounts u layer → ∃ rest, Layer.Accounts u rest ∧ rest.complete = .ok r) :
    ∃ blob c stream, store.read t d = .ok blob ∧ d.mediaType.compression? = some c ∧
      c.content? blob = some stream ∧ r = Layer.describe stream := by
  obtain ⟨c, hc, hopen⟩ := exists_layer_of_prepare hp
  rw [MediaType.compression?_normalize] at hc
  rcases Layer.exists_of_open? hopen with ⟨blob, u, hblob, hu, rfl⟩ | ⟨f, rfl⟩
  · obtain ⟨rest, haccounts, hcomplete⟩ :=
      hrest u (Layer.accounts_ofStream (Compression.unbroken_of_unpacked hu))
    obtain ⟨stream, hstream, hr⟩ := Layer.exists_of_complete haccounts hcomplete
    exact ⟨blob, c, stream, hblob, hc, (Compression.content?_eq hu).trans hstream, hr⟩
  · obtain ⟨rest, haccounts, hcomplete⟩ :=
      hrest (.failing f) (Layer.accounts_ofStream (u := .failing f) trivial)
    obtain ⟨stream, hstream, -⟩ := Layer.exists_of_complete haccounts hcomplete
    cases hstream

/-- However a layer is applied, its descriptor describes all that its blob decompresses to. -/
theorem exists_content_of_apply {a : Applier} {d r : Descriptor} {mounts : List Mount}
    {options : ApplyOptions} {t : Tree} (h : (a.apply d mounts options t).1 = .ok r) :
    ∃ blob c stream, (a.storeFor options).read t d = .ok blob ∧
      d.mediaType.compression? = some c ∧ c.content? blob = some stream ∧
      r = Layer.describe stream := by
  induction a generalizing d with
  | direct store =>
    unfold apply at h
    dsimp only at h
    split at h
    · cases h
    · rename_i root layer hp
      exact exists_content_of_prepare hp fun u hu =>
        exists_accounts_of_applyWhole (Prod.ext h rfl) hu
  | windows store start inner ih =>
    unfold apply at h
    dsimp only at h
    unfold storeFor
    cases hw : options.windowsLayer with
    | false =>
      rw [hw] at h
      obtain ⟨blob, c, stream, hblob, hc, hrest⟩ := ih h
      rw [MediaType.compression?_normalize] at hc
      exact ⟨blob, c, stream, hblob, hc, hrest⟩
    | true =>
      rw [hw, if_neg (by decide)] at h
      split at h
      · cases h
      · rename_i root layer hp
        exact exists_content_of_prepare hp fun u hu =>
          exists_accounts_of_applyMoved (Prod.ext h rfl) hu

/-- The descriptor that applying a layer returns is the one of everything that its blob
decompresses to, whatever applier took which part of it to where.  A blob that is not
compressed is its own content.  So two runs on one blob return the same descriptor if both
take it as compressed or both do not. -/
theorem apply_descriptor {a : Applier} {d r : Descriptor} {mounts : List Mount}
    {options : ApplyOptions} {t : Tree} (h : (a.apply d mounts options t).1 = .ok r) :
    ∃ blob c stream, (a.storeFor options).read t d = .ok blob ∧
      d.mediaType.compression? = some c ∧ c.content? blob = some stream ∧
      (c = .none → stream = blob) ∧
      r = { mediaType := .layer .none, digest := ⟨"sha256", (Sha256.hash stream).hex⟩,
            size := stream.length } ∧
      ∀ (a' : Applier) (d' r' : Descriptor) (mounts' : List Mount) (options' : ApplyOptions)
        (t' : Tree) (c' : Compression), (a'.apply d' mounts' options' t').1 = .ok r' →
        (a'.storeFor options').read t' d' = .ok blob → d'.mediaType.compression? = some c' →
        (c' = .none ↔ c = .none) → r' = r := by
  obtain ⟨blob, c, stream, hblob, hc, hstream, hr⟩ := exists_content_of_apply h
  refine ⟨blob, c, stream, hblob, hc, hstream, ?_, hr, ?_⟩
  · intro e
    subst e
    rw [Compression.content?_none] at hstream
    exact (Option.some.inj hstream).symm
  · intro a' d' r' mounts' options' t' c' h' hblob' hc' hsame
    obtain ⟨blob', c'', stream', hblob'', hc'', hstream', hr'⟩ := exists_content_of_apply h'
    rw [hblob'] at hblob''
    rw [hc'] at hc''
    cases hblob''
    cases hc''
    rw [Compression.content?_congr hsame, hstream] at hstream'
    rw [hr', hr, Option.some.inj hstream']

/-- A file below `Files`, the end of the archive, and more bytes behind it. -/
def trailing : Bytes :=
  Extract.emptyMember .regular (ascii "Files/a") [] ++ Tar.trailer ++ ascii "tail"

/-- A store with that blob in it, and a directory to apply it to. -/
def stored : Tree where
  nodes := [
    ([], .directory 0o755),
    ([ascii "root"], .directory 0o755),
    ([ascii "blobs"], .directory 0o755),
    ([ascii "blobs", ascii "sha256"], .directory 0o755),
    ([ascii "blobs", ascii "sha256", ascii "layer"], .file { id := 0, data := trailing })]
  freshId := 1

/-- The store in the root of the tree. -/
def rootStore : Store := { root := ascii "/" }

def storedDescriptor : Descriptor := ⟨.layer .none, ⟨"sha256", "layer"⟩, trailing.length⟩

theorem open_stored : rootStore.open? stored storedDescriptor = .ok (.ok trailing) := by
  have hsize : (rootStore.blobSize stored storedDescriptor.digest).toOption
      = some storedDescriptor.size := by decide +kernel
  unfold Store.open?
  rw [Extract.eq_ok_of_toOption hsize]
  dsimp only
  rw [if_pos rfl]
  exact congrArg Except.ok (Extract.eq_ok_of_toOption (by decide +kernel))

theorem prepare_stored :
    prepare rootStore storedDescriptor [Mount.bind (ascii "/root")] stored
      = .ok ([ascii "root"], Layer.ofStream (.plain (Source.ofBytes trailing))) := by
  have hopen : Layer.open? rootStore stored storedDescriptor .none
      = .ok (Layer.ofStream (.plain (Source.ofBytes trailing))) := by
    unfold Layer.open?
    rw [open_stored]
  show (do
    let target ← Mount.target [Mount.bind (ascii "/root")]
    let layer ← Layer.open? rootStore stored storedDescriptor .none
    return (Tree.partsOf target, layer)) = _
  rw [hopen]
  rfl

/-- The blob is unpacked whole by one applier, and what is below `Files` by the other. -/
theorem apply_stored :
    ((direct rootStore).apply storedDescriptor [Mount.bind (ascii "/root")] {} stored).1
        = .ok (Layer.describe trailing) ∧
      ((windows rootStore "Files/" (direct rootStore)).apply storedDescriptor
        [Mount.bind (ascii "/root")] { windowsLayer := true } stored).1
        = .ok (Layer.describe trailing) := by
  have hstream : (Unpacked.plain (Source.ofBytes trailing)).content? = some trailing :=
    congrArg some (List.append_nil trailing)
  have hwhole : ∀ o, o = (Extract.applyArchive [ascii "root"] stored).run
      (Layer.ofStream (.plain (Source.ofBytes trailing))) →
      o.result.1.toOption = some 1 ∧
        (Reader.drainOnto Layer.drainSize [] o.rest).fault = none := by
    rintro _ rfl
    decide +kernel
  obtain ⟨hresult, hdrain⟩ := hwhole _ rfl
  have hmoved : ∀ o, o = (Extract.applyArchive [ascii "root"] stored).run
      (Filtered.start (Layer.ofStream (.plain (Source.ofBytes trailing)))
        (stripDecision (Bytes.ofText "Files/")) ()) →
      o.result.1.toOption = some 1 ∧ o.rest.drain.fault = none ∧
        o.rest.finish.1.toOption = some ⟨1, 0⟩ ∧
        (Reader.drainOnto Layer.drainSize [] o.rest.finish.2).fault = none := by
    rintro _ rfl
    decide +kernel
  obtain ⟨hresult', hdrain', hfinish, hrest⟩ := hmoved _ rfl
  have hplain : (Unpacked.plain (Source.ofBytes trailing)).Unbroken :=
    Source.onlyData_ofBytes trailing
  have hprepare : prepare rootStore
      { storedDescriptor with mediaType := storedDescriptor.mediaType.normalize }
      [Mount.bind (ascii "/root")] stored
        = .ok ([ascii "root"], Layer.ofStream (.plain (Source.ofBytes trailing))) :=
    prepare_stored
  constructor
  · unfold apply
    dsimp only
    rw [hprepare]
    dsimp only
    exact congrArg Prod.fst (applyWhole_of_drained hplain hstream
      (Prod.ext (Extract.eq_ok_of_toOption hresult) rfl) hdrain)
  · unfold apply
    dsimp only
    rw [if_neg (by decide), hprepare]
    dsimp only
    exact congrArg Prod.fst (applyMoved_of_drained hplain hstream
      (Prod.ext (Extract.eq_ok_of_toOption hresult') rfl) hdrain'
      (Extract.eq_ok_of_toOption hfinish) hrest)

/-- Both ways account for the bytes behind the end of the archive. -/
theorem apply_descriptor_of_trailing :
    ∃ r, ((direct rootStore).apply storedDescriptor [Mount.bind (ascii "/root")] {}
        stored).1 = .ok r ∧
      ((windows rootStore "Files/" (direct rootStore)).apply storedDescriptor
        [Mount.bind (ascii "/root")] { windowsLayer := true } stored).1 = .ok r ∧
      r.size = trailing.length := by
  obtain ⟨hdirect, hwindows⟩ := apply_stored
  obtain ⟨blob, c, stream, hblob, hc, _, hplain, hr, hsame⟩ := apply_descriptor hdirect
  obtain rfl : c = .none := (Option.some.inj hc).symm
  obtain rfl : blob = trailing := by
    have hread : Store.read rootStore stored storedDescriptor = .ok trailing := by
      rw [Store.read, open_stored]
      rfl
    exact Except.ok.inj (hblob.symm.trans hread)
  have hagree := hsame _ _ _ _ _ _ _ hwindows hblob hc Iff.rfl
  refine ⟨_, hdirect, hagree ▸ hwindows, ?_⟩
  rw [hr, hplain rfl]

end Applier
end ContainerLayer
