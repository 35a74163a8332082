import ContainerLayer.Proofs.Applier.Refusals

/-
What the applier for a host leaves to the one inside it.

All that an applier does is settled by the store that it takes a layer from and by what it
applies of it (`apply_congr`), and it makes no difference whether the type of the layer was
normalized before (`apply_normalized`).  So a layer that is passed on is applied just as if the
applier inside had been asked in the first place.
-/

namespace ContainerLayer
namespace Applier

variable {options : ApplyOptions}

/-- Appliers with the same store that apply the same part of a layer do the same. -/
theorem apply_congr {a b : Applier} (hstore : a.storeFor options = b.storeFor options)
    (hstart : a.startFor options = b.startFor options) (d : Descriptor) (mounts : List Mount)
    (t : Tree) : a.apply d mounts options t = b.apply d mounts options t := by
  have hbody : a.body options = b.body options := by
    funext d c root t
    rw [body, body, hstore, hstart]
  rw [apply_eq, apply_eq, hbody]

/-- Each applier normalizes the type on its own, so it may be normalized before. -/
theorem apply_normalized (a : Applier) (d : Descriptor) (mounts : List Mount) (t : Tree) :
    a.apply { d with mediaType := d.mediaType.normalize } mounts options t
      = a.apply d mounts options t := by
  rw [apply_eq, apply_eq, MediaType.compression?_normalize, MediaType.normalize_normalize]
  -- what is opened goes by the digest and the size alone
  rfl

/-- The store and the part of a layer are those of the applier inside, unless the host needs
help with its own layer. -/
theorem forHost_parts {config : Config}
    (h : config.host = .windows ∨ options.windowsLayer = false) (store : Store)
    (inner : Applier) :
    (forHost store inner config).storeFor options = inner.storeFor options ∧
      (forHost store inner config).startFor options = inner.startFor options := by
  unfold forHost
  cases hhost : config.host with
  | windows => exact ⟨rfl, rfl⟩
  | linux =>
    have hplain : options.windowsLayer = false := h.resolve_left (by rw [hhost]; decide)
    simp only [storeFor, startFor, hplain, Bool.false_eq_true, if_false, and_self]

/-- On a host that applies layers for Windows on its own, and for a layer that is none of them,
the applier for the host leaves the same tree and comes to the same descriptor or error as the
applier inside, whatever the type, the mounts, the store and the tree are.  The type may even be
normalized on the way. -/
theorem forHost_apply {config : Config}
    (h : config.host = .windows ∨ options.windowsLayer = false) (store : Store)
    (inner : Applier) (d : Descriptor) (mounts : List Mount) (t : Tree) :
    (forHost store inner config).apply d mounts options t = inner.apply d mounts options t ∧
      inner.apply { d with mediaType := d.mediaType.normalize } mounts options t
        = inner.apply d mounts options t := by
  obtain ⟨hstore, hstart⟩ := forHost_parts h store inner
  exact ⟨apply_congr hstore hstart d mounts t, inner.apply_normalized d mounts t⟩

/-- A type under its older name is that of a layer, and one that is none is refused in the same
words, on both kinds of hosts. -/
theorem forHost_apply_misdescribed :
    let inner := direct rootStore
    let onLinux := forHost rootStore inner { host := .linux }
    let onWindows := forHost rootStore inner { host := .windows }
    let mounts := [Mount.bind (ascii "/root")]
    onLinux.apply (misdescribed (.other MediaType.oldZstdLayer)) mounts {} stored
        = inner.apply (misdescribed (.other MediaType.oldZstdLayer)) mounts {} stored ∧
      onWindows.apply (misdescribed (.other MediaType.oldZstdLayer)) mounts
          { windowsLayer := true } stored
        = inner.apply (misdescribed (.layer .zstd)) mounts { windowsLayer := true } stored ∧
      onLinux.apply (misdescribed (.other "text/plain")) mounts {} stored
        = (.error (.unsupportedMediaType "text/plain"), stored) := by
  intro inner onLinux onWindows mounts
  refine ⟨?_, ?_, ?_⟩
  · exact (forHost_apply (.inr rfl) _ _ _ _ _).1
  · have hhost : ({ host := .windows } : Config).host = .windows := rfl
    refine (forHost_apply (.inl hhost) _ _ _ _ _).1.trans ?_
    exact (forHost_apply (.inl hhost) rootStore _ _ _ _).2.symm
  · rw [(forHost_apply (.inr rfl) _ _ _ _ _).1, apply_eq]
    rfl

end Applier
end ContainerLayer
