/-
# `GrpcEpub.Ceilings` — the limits a process is started with

`Limits::from_env` and what `with_metrics` makes of it.  A variable that is not
set, does not parse or is zero is its default.  Of the three ceilings that are
given in MiB one is multiplied out with saturation and two are not: a release
build wraps them, to zero for a power of two that is large enough.  The upload
budget's semaphore is cut to what a semaphore can hold, the parse slots' is not.
-/
import GrpcEpub.Uploads
import GrpcEpub.Fold

namespace GrpcEpub

/-- `std::env::var(name).ok()`, for every name. -/
abbrev Environment := Str → Option Str

/-- `str::parse::<u64>`. -/
def parseU64 (text : Str) : Option Nat :=
  match Document.parseIndex text with
  | some value => if value ≤ u64Max then some value else none
  | none => none

/-- Read a `u64` variable, falling back to `default`. -/
def envU64 (env : Environment) (name : Str) (default : Nat) : Nat :=
  match (env name).bind parseU64 with
  | some 0 | none => default
  | some value => value

/-- `a * b` on `u64`, as a release build multiplies. -/
def wrappingMul64 (a b : Nat) : Nat := a * b % 2 ^ 64

/-- `u32::try_from(value).unwrap_or(u32::MAX)`. -/
def narrowed32 (value : Nat) : Nat := if value ≤ u32Max then value else u32Max

/-! ## Settings

The eight variables as one type: each has its name, its default and its place in `Limits`. -/

/-- What can be set from outside. -/
inductive Setting where
  | documentMib
  | uncompressedMib
  | entries
  | compressionRatio
  | ratioFloorBytes
  | chunkBytes
  | concurrentParses
  | bufferedUploadMib
deriving DecidableEq, Repr

namespace Setting

/-- The variable a setting is read from. -/
def variableName : Setting → Str
  | documentMib => "GRPC_EPUB_MAX_DOCUMENT_MIB"
  | uncompressedMib => "GRPC_EPUB_MAX_UNCOMPRESSED_MIB"
  | entries => "GRPC_EPUB_MAX_ENTRIES"
  | compressionRatio => "GRPC_EPUB_MAX_COMPRESSION_RATIO"
  | ratioFloorBytes => "GRPC_EPUB_COMPRESSION_RATIO_FLOOR_BYTES"
  | chunkBytes => "GRPC_EPUB_MAX_CHUNK_BYTES"
  | concurrentParses => "GRPC_EPUB_MAX_CONCURRENT_PARSES"
  | bufferedUploadMib => "GRPC_EPUB_MAX_BUFFERED_UPLOAD_MIB"

/-- The field it sets. -/
def ceiling : Setting → Limits → Nat
  | documentMib => Limits.maxDocumentBytes
  | uncompressedMib => Limits.maxUncompressedBytes
  | entries => Limits.maxEntries
  | compressionRatio => Limits.maxCompressionRatio
  | ratioFloorBytes => Limits.compressionRatioFloorBytes
  | chunkBytes => Limits.maxChunkBytes
  | concurrentParses => Limits.maxConcurrentParses
  | bufferedUploadMib => Limits.maxBufferedUploadBytes

end Setting

namespace Limits

variable (env : Environment)

/-- `max_document_mib`. -/
def documentMib : Nat := envU64 env Setting.documentMib.variableName 256

/-- `max_concurrent_parses`. -/
def concurrentParses : Nat :=
  let parses := envU64 env Setting.concurrentParses.variableName Limits.default.maxConcurrentParses
  if parses ≤ usizeMax then parses else Limits.default.maxConcurrentParses

/-- `max_buffered_upload_mib`, which follows the two it is derived from unless it is set. -/
def bufferedUploadMib : Nat :=
  max (envU64 env Setting.bufferedUploadMib.variableName
    (saturatingMul64 (documentMib env) (concurrentParses env))) (documentMib env)

/-- The process limits from `GRPC_EPUB_*`. -/
def fromEnv : Limits where
  maxDocumentBytes := wrappingMul64 (documentMib env) mib
  maxUncompressedBytes := wrappingMul64 (envU64 env Setting.uncompressedMib.variableName 512) mib
  maxEntries := narrowed32 (envU64 env Setting.entries.variableName Limits.default.maxEntries)
  maxCompressionRatio := narrowed32
    (envU64 env Setting.compressionRatio.variableName Limits.default.maxCompressionRatio)
  compressionRatioFloorBytes :=
    envU64 env Setting.ratioFloorBytes.variableName Limits.default.compressionRatioFloorBytes
  maxChunkBytes := envU64 env Setting.chunkBytes.variableName Limits.default.maxChunkBytes
  maxConcurrentParses := concurrentParses env
  maxBufferedUploadBytes := saturatingMul64 (bufferedUploadMib env) mib

end Limits

/-! ## The two semaphores

`with_metrics` makes one for the parse slots and one for the budget, and making a semaphore of
too many permits panics. -/

/-- `Semaphore::new`, which panics above `MAX_PERMITS`. -/
def newSemaphore (permits : Nat) : Except Panic Nat :=
  if permits ≤ maxPermits then .ok permits else .error .assertion

namespace Limits

variable (env : Environment)

theorem fromEnv_documentBytes_le : (fromEnv env).maxDocumentBytes ≤ u64Max :=
  Nat.le_of_lt_succ (Nat.mod_lt _ (Nat.two_pow_pos 64))

/-- The service of a process, before its semaphores are made. -/
def service : EpubGrpc := ⟨fromEnv env, fromEnv_documentBytes_le env⟩

/-- The permits of the parse slots and of the upload budget, as `with_metrics` makes them. -/
def withMetrics : Except Panic (Nat × Nat) := do
  let parseSlots ← newSemaphore (service env).kept.maxConcurrentParses
  let uploadBudget ← newSemaphore (service env).uploadPermits
  return (parseSlots, uploadBudget)

/-! ## What is read

The bounds on a variable that come from its type alone. -/

end Limits

theorem parseU64_le {text : Str} {value : Nat} (h : parseU64 text = some value) :
    value ≤ u64Max := by
  unfold parseU64 at h
  split at h
  · split at h
    · rename_i hle
      exact Option.some.inj h ▸ hle
    · cases h
  · cases h

variable {env env' : Environment} {name : Str} {default : Nat}

/-- What is read is the default, or a number that was written there. -/
theorem envU64_cases (env : Environment) (name : Str) (default : Nat) :
    envU64 env name default = default ∨
      (envU64 env name default ≠ 0 ∧ envU64 env name default ≤ u64Max) := by
  unfold envU64
  cases hread : (env name).bind parseU64 with
  | none => exact .inl rfl
  | some value =>
      obtain ⟨text, -, htext⟩ := Option.bind_eq_some_iff.mp hread
      cases value with
      | zero => exact .inl rfl
      | succ n => exact .inr ⟨Nat.succ_ne_zero n, parseU64_le htext⟩

theorem envU64_ne_zero (h : default ≠ 0) : envU64 env name default ≠ 0 := by
  rcases envU64_cases env name default with heq | hread
  · rw [heq]
    exact h
  · exact hread.1

theorem envU64_le (h : default ≤ u64Max) : envU64 env name default ≤ u64Max := by
  rcases envU64_cases env name default with heq | hread
  · rw [heq]
    exact h
  · exact hread.2

theorem envU64_congr (h : env' name = env name) :
    envU64 env' name default = envU64 env name default := by
  rw [envU64, h, envU64]

theorem narrowed32_eq (value : Nat) : narrowed32 value = min value u32Max := by
  unfold narrowed32
  split <;> omega

theorem saturatingMul64_mono {a a' b b' : Nat} (ha : a ≤ a') (hb : b ≤ b') :
    saturatingMul64 a b ≤ saturatingMul64 a' b' :=
  min_le_min_right _ (Nat.mul_le_mul ha hb)

/-- Wrapping and saturating part where the product leaves the type: a multiple of the unit is
not the largest number there is. -/
theorem wrappingMul64_mib_iff (a : Nat) :
    wrappingMul64 a mib = saturatingMul64 a mib ↔ a ≤ u64Max / mib := by
  unfold wrappingMul64 saturatingMul64 mib u64Max
  omega

namespace Limits

theorem concurrentParses_eq : concurrentParses env =
    envU64 env Setting.concurrentParses.variableName Limits.default.maxConcurrentParses :=
  if_pos (envU64_le (by decide))

theorem documentMib_ne_zero : documentMib env ≠ 0 := envU64_ne_zero (by decide)

end Limits

/-! ## What the ceilings are meant to be

`value` is what a variable says, and `Exact` that the ceilings say the same. -/

namespace Setting

/-- The value a setting has once its variable has been read. -/
def value (env : Environment) : Setting → Nat
  | documentMib => Limits.documentMib env
  | uncompressedMib => envU64 env uncompressedMib.variableName 512
  | entries => envU64 env entries.variableName Limits.default.maxEntries
  | compressionRatio =>
      envU64 env compressionRatio.variableName Limits.default.maxCompressionRatio
  | ratioFloorBytes =>
      envU64 env ratioFloorBytes.variableName Limits.default.compressionRatioFloorBytes
  | chunkBytes => envU64 env chunkBytes.variableName Limits.default.maxChunkBytes
  | concurrentParses =>
      envU64 env concurrentParses.variableName Limits.default.maxConcurrentParses
  | bufferedUploadMib => envU64 env bufferedUploadMib.variableName
      (saturatingMul64 (Limits.documentMib env) (Limits.concurrentParses env))

end Setting

namespace Limits

/-- The arithmetic does not wrap: every ceiling is what its variable says, or the largest
value there is, and the service starts. -/
structure Exact (env : Environment) : Prop where
  document : (fromEnv env).maxDocumentBytes =
    saturatingMul64 (Setting.documentMib.value env) mib
  uncompressed : (fromEnv env).maxUncompressedBytes =
    saturatingMul64 (Setting.uncompressedMib.value env) mib
  buffered : (fromEnv env).maxBufferedUploadBytes = saturatingMul64
    (max (Setting.bufferedUploadMib.value env) (Setting.documentMib.value env)) mib
  nonzero : ∀ setting : Setting, setting.ceiling (fromEnv env) ≠ 0
  covers : (fromEnv env).maxDocumentBytes ≤ (fromEnv env).maxBufferedUploadBytes
  monotone : ∀ (setting : Setting) (env' : Environment),
    (∀ name ≠ setting.variableName, env' name = env name) →
      setting.value env' ≤ setting.value env →
        setting.ceiling (fromEnv env') ≤ setting.ceiling (fromEnv env)
  starts : ∃ permits, withMetrics env = .ok permits ∧
    permits.1 = (fromEnv env).maxConcurrentParses ∧ permits.1 ≤ maxPermits ∧ permits.2 ≤ maxPermits

/-! ## The three ceilings in MiB

Whether a product wraps is a bound on the number in front of it. -/

theorem fromEnv_document : (fromEnv env).maxDocumentBytes =
    wrappingMul64 (Setting.documentMib.value env) mib := by
  rw [fromEnv, Setting.value]

theorem fromEnv_uncompressed : (fromEnv env).maxUncompressedBytes =
    wrappingMul64 (Setting.uncompressedMib.value env) mib := by
  rw [fromEnv, Setting.value]

theorem fromEnv_buffered : (fromEnv env).maxBufferedUploadBytes = saturatingMul64
    (max (Setting.bufferedUploadMib.value env) (Setting.documentMib.value env)) mib := by
  rw [fromEnv, Setting.value, Setting.value, bufferedUploadMib]

/-- One MiB ceiling without saturation, over a lower value of its variable. -/
theorem wrappingMul64_mono {a b : Nat} (hb : b ≤ u64Max / mib) (hab : a ≤ b) :
    wrappingMul64 a mib ≤ wrappingMul64 b mib := by
  rw [(wrappingMul64_mib_iff a).mpr (hab.trans hb), (wrappingMul64_mib_iff b).mpr hb]
  exact saturatingMul64_mono hab (Nat.le_refl _)

theorem narrowed32_mono {a b : Nat} (h : a ≤ b) : narrowed32 a ≤ narrowed32 b := by
  rw [narrowed32_eq, narrowed32_eq]
  exact min_le_min_right _ h

theorem saturated_ne_zero {a : Nat} (h : a ≠ 0) : saturatingMul64 a mib ≠ 0 := by
  unfold saturatingMul64 mib u64Max
  omega

theorem narrowed32_ne_zero {a : Nat} (h : a ≠ 0) : narrowed32 a ≠ 0 := by
  rw [narrowed32_eq]
  unfold u32Max
  omega

/-- As long as no product wraps, no ceiling is zero. -/
theorem ceiling_ne_zero (hdocument : Setting.documentMib.value env ≤ u64Max / mib)
    (huncompressed : Setting.uncompressedMib.value env ≤ u64Max / mib) (setting : Setting) :
    setting.ceiling (fromEnv env) ≠ 0 := by
  cases setting with
  | documentMib =>
      rw [Setting.ceiling, fromEnv_document, (wrappingMul64_mib_iff _).mpr hdocument]
      exact saturated_ne_zero documentMib_ne_zero
  | uncompressedMib =>
      rw [Setting.ceiling, fromEnv_uncompressed, (wrappingMul64_mib_iff _).mpr huncompressed]
      exact saturated_ne_zero (envU64_ne_zero (by decide))
  | entries => exact narrowed32_ne_zero (envU64_ne_zero (by decide))
  | compressionRatio => exact narrowed32_ne_zero (envU64_ne_zero (by decide))
  | ratioFloorBytes => exact envU64_ne_zero (by decide)
  | chunkBytes => exact envU64_ne_zero (by decide)
  | concurrentParses =>
      change concurrentParses env ≠ 0
      rw [concurrentParses_eq]
      exact envU64_ne_zero (by decide)
  | bufferedUploadMib =>
      have hpositive : Setting.documentMib.value env ≠ 0 := documentMib_ne_zero
      rw [Setting.ceiling, fromEnv_buffered]
      exact saturated_ne_zero (by omega)

/-- As long as no product wraps, a lower setting gives no higher ceiling. -/
theorem ceiling_mono (hdocument : Setting.documentMib.value env ≤ u64Max / mib)
    (huncompressed : Setting.uncompressedMib.value env ≤ u64Max / mib) {setting : Setting}
    (hsame : ∀ name ≠ setting.variableName, env' name = env name)
    (hle : setting.value env' ≤ setting.value env) :
    setting.ceiling (fromEnv env') ≤ setting.ceiling (fromEnv env) := by
  cases setting with
  | documentMib =>
      rw [Setting.ceiling, fromEnv_document, fromEnv_document]
      exact wrappingMul64_mono hdocument hle
  | uncompressedMib =>
      rw [Setting.ceiling, fromEnv_uncompressed, fromEnv_uncompressed]
      exact wrappingMul64_mono huncompressed hle
  | entries => exact narrowed32_mono hle
  | compressionRatio => exact narrowed32_mono hle
  | ratioFloorBytes => exact hle
  | chunkBytes => exact hle
  | concurrentParses =>
      change concurrentParses env' ≤ concurrentParses env
      rw [concurrentParses_eq, concurrentParses_eq]
      exact hle
  | bufferedUploadMib =>
      have hdocuments : Setting.documentMib.value env' = Setting.documentMib.value env :=
        envU64_congr (hsame _ (by decide +kernel))
      rw [Setting.ceiling, fromEnv_buffered, fromEnv_buffered]
      exact saturatingMul64_mono (max_le_max hle hdocuments.le) (Nat.le_refl _)

theorem withMetrics_eq (hparses : Setting.concurrentParses.value env ≤ maxPermits) :
    withMetrics env = .ok (concurrentParses env, (service env).uploadPermits) := by
  have hslots : (service env).kept.maxConcurrentParses ≤ maxPermits :=
    concurrentParses_eq.le.trans hparses
  have hbudget : (service env).uploadPermits ≤ maxPermits := Nat.min_le_right _ _
  unfold withMetrics newSemaphore
  rw [if_pos hbudget, if_pos hslots]
  rfl

/-- The three values that are not saturated are the ones that can be too large. -/
theorem exact_iff (env : Environment) : Exact env ↔
    Setting.documentMib.value env ≤ u64Max / mib ∧
      Setting.uncompressedMib.value env ≤ u64Max / mib ∧
        Setting.concurrentParses.value env ≤ maxPermits := by
  constructor
  · intro h
    refine ⟨?_, ?_, ?_⟩
    · rw [← wrappingMul64_mib_iff, ← fromEnv_document, h.document]
    · rw [← wrappingMul64_mib_iff, ← fromEnv_uncompressed, h.uncompressed]
    · obtain ⟨permits, -, hslots, hle, -⟩ := h.starts
      rw [hslots] at hle
      exact concurrentParses_eq.symm.le.trans hle
  · rintro ⟨hdocument, huncompressed, hparses⟩
    have hdocuments := @fromEnv_document env
    have huncompresseds := @fromEnv_uncompressed env
    rw [(wrappingMul64_mib_iff _).mpr hdocument] at hdocuments
    rw [(wrappingMul64_mib_iff _).mpr huncompressed] at huncompresseds
    have hcovers : (fromEnv env).maxDocumentBytes ≤ (fromEnv env).maxBufferedUploadBytes := by
      rw [hdocuments, fromEnv_buffered]
      exact saturatingMul64_mono (Nat.le_max_right _ _) (Nat.le_refl _)
    exact ⟨hdocuments, huncompresseds, fromEnv_buffered, ceiling_ne_zero hdocument huncompressed,
      hcovers, fun _ _ => ceiling_mono hdocument huncompressed, _, withMetrics_eq hparses, rfl,
      concurrentParses_eq.le.trans hparses, Nat.min_le_right _ _⟩

end Limits

/-- Sixteen exbibytes, which is one MiB too many. -/
def Sample.boundless : Environment := fun name =>
  if name = Setting.documentMib.variableName then some "17592186044416" else none

/-- The largest documents asked for, and none admitted. -/
theorem boundless_wraps : (Limits.fromEnv Sample.boundless).maxDocumentBytes = 0 ∧
    (Limits.fromEnv Sample.boundless).maxBufferedUploadBytes = u64Max ∧
      ¬ Limits.Exact Sample.boundless := by
  have hzero : (Limits.fromEnv Sample.boundless).maxDocumentBytes = 0 := by decide +kernel
  exact ⟨hzero, by decide +kernel, fun h => h.nonzero .documentMib hzero⟩

end GrpcEpub
