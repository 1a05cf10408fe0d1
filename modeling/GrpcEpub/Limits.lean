/-
# `GrpcEpub.Limits` — the caps one call runs under

`limits.rs`: the process ceilings, a caller's options, and `Limits.resolve`,
which takes the lower of the two for every field.  Machine integers are
natural numbers; the two places where a product may leave the type saturate,
as the source's do.
-/
import GrpcEpub.Text

namespace GrpcEpub

def u32Max : Nat := 4294967295

def u64Max : Nat := 18446744073709551615

/-- `usize::MAX` on the 64-bit targets the service is built for. -/
def usizeMax : Nat := 18446744073709551615

/-- `u64::saturating_mul`. -/
def saturatingMul64 (a b : Nat) : Nat := min (a * b) u64Max

def mib : Nat := 1048576

/-- Ceilings the process enforces. -/
structure Limits where
  maxDocumentBytes : Nat
  maxUncompressedBytes : Nat
  maxEntries : Nat
  maxCompressionRatio : Nat
  compressionRatioFloorBytes : Nat
  maxChunkBytes : Nat
  maxConcurrentParses : Nat
  maxBufferedUploadBytes : Nat
deriving DecidableEq, Repr

/-- What a caller asks for.  Zero, or an absent flag, is no preference. -/
structure ParseOptions where
  maxDocumentMib : Nat
  maxUncompressedMib : Nat
  maxEntries : Nat
  maxCompressionRatio : Nat
  includeImages : Option Bool
  includeStylesheets : Option Bool
  includeAllResources : Option Bool
  emitDocument : Bool
  parseNavigation : Option Bool
  parseMediaOverlays : Option Bool
deriving DecidableEq, Repr

/-- One call's settings, already clamped. -/
structure Effective where
  maxDocumentBytes : Nat
  maxUncompressedBytes : Nat
  maxEntries : Nat
  maxCompressionRatio : Nat
  compressionRatioFloorBytes : Nat
  includeImages : Bool
  includeStylesheets : Bool
  includeAllResources : Bool
  emitDocument : Bool
  parseNavigation : Bool
  parseMediaOverlays : Bool
deriving DecidableEq, Repr

/-- The defaults every process starts from. -/
def Limits.default : Limits where
  maxDocumentBytes := 256 * mib
  maxUncompressedBytes := 512 * mib
  maxEntries := 10000
  maxCompressionRatio := 200
  compressionRatioFloorBytes := mib
  maxChunkBytes := 16 * mib
  maxConcurrentParses := 8
  maxBufferedUploadBytes := 2048 * mib

/-- Options that express no preference at all. -/
def ParseOptions.default : ParseOptions where
  maxDocumentMib := 0
  maxUncompressedMib := 0
  maxEntries := 0
  maxCompressionRatio := 0
  includeImages := none
  includeStylesheets := none
  includeAllResources := none
  emitDocument := false
  parseNavigation := none
  parseMediaOverlays := none

/-- Lower `ceiling` to `requested` when the caller named a smaller one. -/
def narrow (requested ceiling unit : Nat) : Nat :=
  if requested = 0 then ceiling else min ceiling (saturatingMul64 requested unit)

/-- The count caps: the same rule, without a unit. -/
def narrowCount (requested ceiling : Nat) : Nat :=
  if requested = 0 then ceiling else min ceiling requested

def Limits.resolve (self : Limits) (options : ParseOptions) : Effective where
  maxDocumentBytes := narrow options.maxDocumentMib self.maxDocumentBytes mib
  maxUncompressedBytes := narrow options.maxUncompressedMib self.maxUncompressedBytes mib
  maxEntries := narrowCount options.maxEntries self.maxEntries
  maxCompressionRatio := narrowCount options.maxCompressionRatio self.maxCompressionRatio
  compressionRatioFloorBytes := self.compressionRatioFloorBytes
  includeImages := options.includeImages.getD true
  includeStylesheets := options.includeStylesheets.getD false
  includeAllResources := options.includeAllResources.getD false
  emitDocument := options.emitDocument
  parseNavigation := options.parseNavigation.getD true
  parseMediaOverlays := options.parseMediaOverlays.getD false

theorem narrow_le_ceiling (requested ceiling unit : Nat) :
    narrow requested ceiling unit ≤ ceiling := by
  unfold narrow
  split
  · exact Nat.le_refl _
  · exact Nat.min_le_left _ _

/-- A named request is never exceeded, whatever its product with the unit does. -/
theorem narrow_le_requested {requested : Nat} (h : requested ≠ 0) (ceiling unit : Nat) :
    narrow requested ceiling unit ≤ requested * unit := by
  unfold narrow saturatingMul64
  rw [if_neg h]
  exact le_trans (Nat.min_le_right _ _) (Nat.min_le_left _ _)

end GrpcEpub
