/-
# `GrpcEpub.Addresses` — every entry has a reference

A reference spells a name byte by byte: an unreserved byte or a separator may
stand for itself, and any byte may be escaped.  What is spelt correctly is read
back, whatever characters the name holds, because none of the bytes the reader
cuts at (`:`, `#`, a plus sign) stands in the spelling.  The reference has a
length limit of its own, which `entries_addressable` has to mention: an escape
takes three bytes for one.
-/
import GrpcEpub.Escapes
import GrpcEpub.Lookup
import GrpcEpub.Normal

namespace GrpcEpub.Href

/-! ## Spelling

Byte by byte, so a character of several bytes may be escaped in part or altogether. -/

/-- The unreserved bytes of RFC 3986, and the separator. -/
def isPlain (b : UInt8) : Bool :=
  let c := Char.ofNat b.toNat
  isAsciiAlphabetic c || ('0' ≤ c && c ≤ '9') || c == '-' || c == '.' || c == '_' || c == '~' ||
    c == '/'

/-- `Spells reference name`, on bytes. -/
inductive Spells : Bytes → Bytes → Prop where
  | nil : Spells [] []
  | plain {b : UInt8} {reference name : Bytes} : isPlain b = true → Spells reference name →
      Spells (b :: reference) (b :: name)
  | escape {b1 b2 byte : UInt8} {reference name : Bytes} : Digits b1 b2 byte →
      Spells reference name → Spells (0x25 :: b1 :: b2 :: reference) (byte :: name)

def hexChar (v : Nat) : Char := Char.ofNat (if v < 10 then 0x30 + v else 0x37 + v)

def encodeByte (b : UInt8) : Str :=
  if isPlain b then [Char.ofNat b.toNat]
  else ['%', hexChar (b.toNat / 16), hexChar (b.toNat % 16)]

/-- The spelling with every byte escaped that has to be. -/
def percentEncode (name : Str) : Str := (Utf8.encode name).flatMap encodeByte

theorem isPlain_ofNat : ∀ n < 256, isPlain (UInt8.ofNat n) = true → n < 0x80 := by
  decide +kernel

theorem isPlain_lt {b : UInt8} (h : isPlain b = true) : b.toNat < 0x80 :=
  isPlain_ofNat b.toNat b.toNat_lt (by rwa [UInt8.ofNat_toNat])

theorem encode_ascii : ∀ n < 0x80, Utf8.encode [Char.ofNat n] = [UInt8.ofNat n] := by decide

/-- The byte of a hexadecimal digit. -/
def hexByte (v : Nat) : UInt8 := UInt8.ofNat (if v < 10 then 0x30 + v else 0x37 + v)

theorem hexByte_spec : ∀ v < 16, Utf8.encode [hexChar v] = [hexByte v] ∧
    hexDigit (hexByte v) = some v := by decide

theorem encode_append (s t : Str) : Utf8.encode (s ++ t) = Utf8.encode s ++ Utf8.encode t :=
  List.flatMap_append

/-- One byte, as it stands or escaped, in front of a spelling. -/
theorem spells_encodeByte (b : UInt8) {reference name : Bytes} (h : Spells reference name) :
    Spells (Utf8.encode (encodeByte b) ++ reference) (b :: name) := by
  unfold encodeByte
  split
  · rename_i hplain
    rw [encode_ascii _ (isPlain_lt hplain), UInt8.ofNat_toNat]
    exact .plain hplain h
  · have hlt := b.toNat_lt
    obtain ⟨hhigh, hhighDigit⟩ := hexByte_spec (b.toNat / 16) (by omega)
    obtain ⟨hlow, hlowDigit⟩ := hexByte_spec (b.toNat % 16) (by omega)
    have hbytes : Utf8.encode ['%', hexChar (b.toNat / 16), hexChar (b.toNat % 16)] =
        [0x25, hexByte (b.toNat / 16), hexByte (b.toNat % 16)] := by
      rw [show ∀ x y z : Char, [x, y, z] = [x] ++ [y] ++ [z] from fun _ _ _ => rfl, encode_append,
        encode_append, hhigh, hlow]
      rfl
    rw [hbytes]
    refine .escape ⟨_, _, hhighDigit, hlowDigit, ?_⟩ h
    rw [Nat.div_add_mod', UInt8.ofNat_toNat]

theorem spells_percentEncode (name : Str) :
    Spells (Utf8.encode (percentEncode name)) (Utf8.encode name) := by
  unfold percentEncode
  induction Utf8.encode name with
  | nil => exact .nil
  | cons b rest ih =>
      rw [List.flatMap_cons, encode_append]
      exact spells_encodeByte b ih

/-! ## Reading a spelling

The decoder meets no `%` that the spelling has not put there, and no `+` behind one. -/

namespace Spells

variable {reference name : Bytes}

/-- A byte that neither stands for itself nor is part of an escape is not there. -/
theorem not_mem {b : UInt8} (hplain : isPlain b = false) (hdigit : hexDigit b = none)
    (hpercent : b ≠ 0x25) (h : Spells reference name) : b ∉ reference := by
  induction h with
  | nil => exact List.not_mem_nil
  | plain hfirst _ ih =>
      refine fun hmem => (List.mem_cons.mp hmem).elim (fun heq => ?_) ih
      rw [heq, hfirst] at hplain
      cases hplain
  | escape hdigits _ ih =>
      obtain ⟨hi, lo, h1, h2, -⟩ := hdigits
      have habsent : ∀ {d : UInt8} {v : Nat}, hexDigit d = some v → b ≠ d := by
        rintro d v hd rfl
        rw [hdigit] at hd
        cases hd
      simp only [List.mem_cons, not_or]
      exact ⟨hpercent, habsent h1, habsent h2, ih⟩

theorem unescapes (h : Spells reference name) : Unescapes reference name := by
  induction h with
  | nil => exact .nil
  | plain hfirst _ ih =>
      refine .plain (not_escape_of_ne ?_) ih
      rintro rfl
      exact absurd hfirst (by decide)
  | escape hdigits _ ih => exact .escape hdigits ih

theorem not_signed (h : Spells reference name) : ¬ SignedEscape reference := by
  rintro ⟨earlier, digit, later, rfl, -⟩
  exact h.not_mem (b := 0x2B) (by decide) (by decide) (by decide) (by simp)

end Spells

section Reference

variable {h rest : Str}

/-- A spelling is read back. -/
theorem percentDecode_spells (hspells : Spells (Utf8.encode h) (Utf8.encode rest)) :
    percentDecode h = rest := by
  rw [percentDecode_eq, percentDecodeBytes_of_unescapes hspells.unescapes hspells.not_signed,
    Utf8.decodeLossy_encode]

theorem not_mem_spells {b : UInt8} (hb : 0 < b.toNat ∧ b.toNat < 0x80) (hplain : isPlain b = false)
    (hdigit : hexDigit b = none) (hpercent : b ≠ 0x25)
    (hspells : Spells (Utf8.encode h) (Utf8.encode rest)) : Char.ofNat b.toNat ∉ h := fun hmem =>
  hspells.not_mem hplain hdigit hpercent ((Utf8.mem_encode_iff hb h).mpr hmem)

/-- A spelling has no scheme and no fragment. -/
theorem resolve_spells {dir : Str} (hspells : Spells (Utf8.encode h) (Utf8.encode rest)) :
    resolve dir h =
      if maxPathBytes < h.len then .error .tooLong else (normalize dir rest).map .entry := by
  have hcolon : ':' ∉ h :=
    not_mem_spells (b := 0x3A) (by decide) (by decide) (by decide) (by decide) hspells
  have hhash : '#' ∉ h :=
    not_mem_spells (b := 0x23) (by decide) (by decide) (by decide) (by decide) hspells
  have huri : ¬ isAbsoluteUri h = true := by
    rw [isAbsoluteUri, if_neg hcolon]
    exact Bool.false_ne_true
  rw [resolve_eq, if_neg huri, Str.before_of_not_mem hhash, percentDecode_spells hspells]

end Reference

/-! ## Every entry

A canonical name of a manageable length has a spelling that `resolve` takes back to it. -/

theorem Canonical.rest {dir rest : Str} (h : Canonical (under dir rest)) : Canonical rest := by
  unfold under at h
  split at h
  · exact h
  · have hsegments : ∀ segment ∈ rest.splitOn '/', Clean segment := fun segment hsegment =>
      Canonical.clean h (by
        rw [List.splitOn_append_cons_self]
        exact List.mem_append_right _ hsegment)
    have hcanonical := canonical_joinSlash (List.splitOn_ne_nil '/' rest) hsegments (by
      have hshort := h.short
      rw [Str.len_append, Str.len_cons] at hshort
      rw [weight_splitOn]
      omega)
    rwa [joinSlash, List.intercalate_splitOn] at hcanonical

theorem len_under (dir rest : Str) (hdir : dir ≠ []) :
    (under dir rest).len = rest.len + dir.len + 1 := by
  have hslash : Char.utf8Size '/' = 1 := by decide
  rw [under, if_neg hdir, Str.len_append, Str.len_cons, hslash]
  omega

/-- A name an entry can have, in any directory above it. -/
theorem normalize_entry {dir rest : Str} (hdir : BaseDir dir)
    (hname : checkEntryName (under dir rest) = .ok (some (under dir rest))) :
    normalize dir rest = .ok (under dir rest) := by
  have hself : normalize [] (under dir rest) = .ok (under dir rest) := by
    unfold checkEntryName at hname
    cases hnormal : normalize [] (under dir rest) with
    | error e => simp [hnormal] at hname
    | ok out =>
        rw [hnormal] at hname
        split at hname
        · cases hname
        · exact congrArg Except.ok (Option.some.inj (Except.ok.inj hname))
  have hcanonical := normalize_canonical (.inl rfl) hself
  have hlen := (normalize_self_iff hcanonical).mp hself
  refine normalize_under hdir (Canonical.rest hcanonical) ?_
  by_cases hroot : dir = []
  · rw [under, if_pos hroot] at hlen
    rw [hroot, Str.len_nil]
    omega
  · rw [len_under dir rest hroot] at hlen
    omega

/-- Every entry is addressable: a spelling of its name, or of what is left of it
below a directory, resolves to it and is found, unless the spelling itself is
longer than a reference may be. -/
theorem entries_addressable {dir rest h : Str} (hdir : BaseDir dir)
    (hname : checkEntryName (under dir rest) = .ok (some (under dir rest)))
    (hspells : Spells (Utf8.encode h) (Utf8.encode rest)) :
    (h.len ≤ maxPathBytes → resolve dir h = .ok (.entry (under dir rest))) ∧
    (maxPathBytes < h.len → resolve dir h = .error .tooLong) ∧
    ∀ (entries : List EntryInfo) (entry : EntryInfo), entry ∈ entries →
      entry.name = under dir rest → ∃ position found,
        Extract.lookup (Extract.indexOf entries) (under dir rest) dir h = some position ∧
        entries[position]? = some found ∧ found.name = under dir rest := by
  rw [resolve_spells hspells, normalize_entry hdir hname]
  refine ⟨fun hshort => if_neg (Nat.not_lt.mpr hshort), fun hlong => if_pos hlong, ?_⟩
  intro entries entry hentry hentryName
  obtain ⟨position, hposition⟩ := Option.isSome_iff_exists.mp (Extract.indexOf_isSome hentry)
  rw [hentryName] at hposition
  obtain ⟨found, hfound, hfoundName⟩ := Extract.indexOf_get hposition
  refine ⟨position, found, ?_, hfound, hfoundName⟩
  rw [Extract.lookup, hposition]

theorem entries_addressable_question :
    resolve "OEBPS" (percentEncode "50% #1: é?.xhtml") =
      .ok (.entry "OEBPS/50% #1: é?.xhtml".toList) :=
  (@entries_addressable "OEBPS".toList "50% #1: é?.xhtml".toList _ (.inr canonical_oebps)
    (by decide) (spells_percentEncode _)).1 (by decide)

/-- A name well below the limit whose spelling is above it. -/
theorem long_spelling_refused :
    checkEntryName (List.replicate 200 'é') = .ok (some (List.replicate 200 'é')) ∧
      resolve [] (percentEncode (List.replicate 200 'é')) = .error .tooLong := by
  decide +kernel

end GrpcEpub.Href
