/-
# `GrpcEpub.Escapes` — which escapes an href may be written with

RFC 3986 has one escape, a `%` and two hexadecimal digits; everything else in a
reference stands for itself.  `Unescapes` is that reading, on bytes.

`percent_decode` hands the two bytes to the integer parser of the standard
library, and that parser also takes a plus sign in front of one digit.  So `%+5`
is read as one byte, where the documentation has an invalid escape left alone:
`percent_decode_escapes` says that this is the only difference.
-/
import GrpcEpub.Href

namespace GrpcEpub.Href

/-! ## The reading the documentation gives

As a relation between bytes, with a case for an escape and one for everything else. -/

/-- Two hexadecimal digits, and the byte they denote. -/
def Digits (b1 b2 byte : UInt8) : Prop :=
  ∃ hi lo, hexDigit b1 = some hi ∧ hexDigit b2 = some lo ∧ byte = UInt8.ofNat (hi * 16 + lo)

/-- The bytes an escape begins: a `%` and two digits. -/
def Escape (bytes : Bytes) : Prop :=
  ∃ b1 b2 rest byte, bytes = 0x25 :: b1 :: b2 :: rest ∧ Digits b1 b2 byte

/-- `Unescapes bytes out`: from left to right, each escape is the byte it
denotes and every other byte is itself. -/
inductive Unescapes : Bytes → Bytes → Prop where
  | nil : Unescapes [] []
  | escape {b1 b2 byte : UInt8} {rest out : Bytes} : Digits b1 b2 byte → Unescapes rest out →
      Unescapes (0x25 :: b1 :: b2 :: rest) (byte :: out)
  | plain {b : UInt8} {rest out : Bytes} : ¬ Escape (b :: rest) → Unescapes rest out →
      Unescapes (b :: rest) (b :: out)

/-- A `%`, a plus sign and one hexadecimal digit, somewhere. -/
def SignedEscape (bytes : Bytes) : Prop :=
  ∃ earlier digit later, bytes = earlier ++ 0x25 :: 0x2B :: digit :: later ∧
    (hexDigit digit).isSome

/-! ## Single escapes

Two hexadecimal digits are one byte, in one way. -/

/-- Two hexadecimal digits are what the integer parser reads, without a sign. -/
theorem digits_iff {b1 b2 byte : UInt8} :
    Digits b1 b2 byte ↔ b1.toNat ≠ 0x2B ∧ fromStrRadix16 b1 b2 = some byte := by
  have hplus : b1.toNat = 0x2B → hexDigit b1 = none := by
    intro h
    simp [hexDigit, h]
  unfold Digits fromStrRadix16
  constructor
  · rintro ⟨hi, lo, h1, h2, rfl⟩
    have hne : b1.toNat ≠ 0x2B := fun h => by simp [hplus h] at h1
    exact ⟨hne, by rw [if_neg hne, h1, h2]⟩
  · rintro ⟨hne, h⟩
    rw [if_neg hne] at h
    cases h1 : hexDigit b1 with
    | none => simp [h1] at h
    | some hi =>
        cases h2 : hexDigit b2 with
        | none => simp [h1, h2] at h
        | some lo => exact ⟨hi, lo, rfl, rfl, by simpa [h1, h2] using h.symm⟩

theorem not_escape_of_ne {b : UInt8} {rest : Bytes} (h : b ≠ 0x25) : ¬ Escape (b :: rest) := by
  rintro ⟨b1, b2, later, byte, heq, -⟩
  exact h (List.cons.inj heq).1

theorem hexDigit_ne {b : UInt8} {v : Nat} (h : hexDigit b = some v) : b ≠ 0x25 := by
  intro hb
  have hnone : hexDigit 0x25 = none := by decide
  rw [hb, hnone] at h
  cases h

theorem Digits.unique {b1 b2 byte byte' : UInt8} (h : Digits b1 b2 byte)
    (h' : Digits b1 b2 byte') : byte = byte' :=
  Option.some.inj ((digits_iff.mp h).2.symm.trans (digits_iff.mp h').2)

/-! ## The reading is a function

Every list of bytes has exactly one reading. -/

/-- By induction on the bytes: an escape is not plain, and nothing plain is an escape. -/
theorem Unescapes.unique {bytes out out' : Bytes} (h : Unescapes bytes out)
    (h' : Unescapes bytes out') : out = out' := by
  induction h generalizing out' with
  | nil =>
      cases h'
      rfl
  | escape hdigits _ ih =>
      cases h' with
      | escape hdigits' hrest => rw [hdigits.unique hdigits', ih hrest]
      | plain hnone _ => exact absurd ⟨_, _, _, _, rfl, hdigits⟩ hnone
  | plain hnone _ ih =>
      cases h' with
      | escape hdigits _ => exact absurd ⟨_, _, _, _, rfl, hdigits⟩ hnone
      | plain _ hrest => rw [ih hrest]

/-- Every byte is plain, or starts an escape. -/
theorem Unescapes.total (bytes : Bytes) : ∃ out, Unescapes bytes out := by
  induction hlen : bytes.length using Nat.strong_induction_on generalizing bytes with
  | _ n ih =>
      subst hlen
      by_cases hescape : Escape bytes
      · obtain ⟨b1, b2, rest, byte, rfl, hdigits⟩ := hescape
        obtain ⟨out, hout⟩ := ih rest.length (by simp; omega) rest rfl
        exact ⟨byte :: out, .escape hdigits hout⟩
      · cases bytes with
        | nil => exact ⟨[], .nil⟩
        | cons b rest =>
            obtain ⟨out, hout⟩ := ih rest.length (by simp) rest rfl
            exact ⟨b :: out, .plain hescape hout⟩

theorem Unescapes.of_ne {b : UInt8} {rest out : Bytes} (hb : b ≠ 0x25)
    (h : Unescapes (b :: rest) out) : ∃ later, out = b :: later ∧ Unescapes rest later := by
  cases h with
  | escape _ _ => exact absurd rfl hb
  | plain _ hrest => exact ⟨_, rfl, hrest⟩

/-! ## The loop

`Parsed` is what the loop does, by the same cases; where the two relations part is where a plus
sign and a digit stand behind a `%`. -/

/-- What the loop reads as an escape: two bytes the integer parser takes. -/
def Parsed (bytes : Bytes) : Prop :=
  ∃ b1 b2 rest byte, bytes = 0x25 :: b1 :: b2 :: rest ∧ fromStrRadix16 b1 b2 = some byte

theorem percentDecodeBytes_parsed {b1 b2 byte : UInt8} (rest : Bytes)
    (h : fromStrRadix16 b1 b2 = some byte) :
    percentDecodeBytes (0x25 :: b1 :: b2 :: rest) = byte :: percentDecodeBytes rest := by
  rw [percentDecodeBytes, if_pos (show (0x25 : UInt8).toNat = 0x25 from rfl), h]

/-- What starts no escape stands for itself. -/
theorem percentDecodeBytes_plain {b : UInt8} {rest : Bytes} (h : ¬ Parsed (b :: rest)) :
    percentDecodeBytes (b :: rest) = b :: percentDecodeBytes rest := by
  match rest, h with
  | [], _ => rfl
  | [_], _ => rfl
  | b1 :: b2 :: later, h =>
      rw [percentDecodeBytes]
      split
      · rename_i hb
        obtain rfl : b = 0x25 := UInt8.toNat_inj.mp hb
        split
        · rename_i byte hparsed
          exact absurd ⟨b1, b2, later, byte, rfl, hparsed⟩ h
        · rfl
      · rfl

/-- An escape is parsed; what is parsed and no escape is signed. -/
theorem parsed_cases {b1 b2 byte : UInt8} (h : fromStrRadix16 b1 b2 = some byte) :
    Digits b1 b2 byte ∨ (b1 = 0x2B ∧ ∃ v, hexDigit b2 = some v ∧ byte = UInt8.ofNat v) := by
  by_cases hsign : b1.toNat = 0x2B
  · rw [fromStrRadix16, if_pos hsign] at h
    obtain ⟨v, hv, hbyte⟩ := Option.map_eq_some_iff.mp h
    exact .inr ⟨UInt8.toNat_inj.mp hsign, v, hv, hbyte.symm⟩
  · exact .inl (digits_iff.mpr ⟨hsign, h⟩)

theorem SignedEscape.cons {bytes : Bytes} (h : SignedEscape bytes) (b : UInt8) :
    SignedEscape (b :: bytes) := by
  obtain ⟨earlier, digit, later, rfl, hdigit⟩ := h
  exact ⟨b :: earlier, digit, later, rfl, hdigit⟩

theorem SignedEscape.uncons {b : UInt8} {rest : Bytes} (h : SignedEscape (b :: rest)) :
    (b = 0x25 ∧ ∃ digit later, rest = 0x2B :: digit :: later ∧ (hexDigit digit).isSome) ∨
      SignedEscape rest := by
  obtain ⟨earlier, digit, later, heq, hdigit⟩ := h
  cases earlier with
  | nil => exact .inl ⟨(List.cons.inj heq).1, digit, later, (List.cons.inj heq).2, hdigit⟩
  | cons _ earlier => exact .inr ⟨earlier, digit, later, (List.cons.inj heq).2, hdigit⟩

/-- Without a signed escape the loop is the documented reading. -/
theorem percentDecodeBytes_of_unescapes {bytes out : Bytes} (h : Unescapes bytes out)
    (hsigned : ¬ SignedEscape bytes) : percentDecodeBytes bytes = out := by
  induction h with
  | nil => rfl
  | escape hdigits _ ih =>
      rw [percentDecodeBytes_parsed _ (digits_iff.mp hdigits).2,
        ih fun hrest => hsigned ((hrest.cons _).cons _ |>.cons _)]
  | @plain b rest out hnone _ ih =>
      have hplain : ¬ Parsed (b :: rest) := by
        rintro ⟨b1, b2, later, byte, heq, hparsed⟩
        rcases parsed_cases hparsed with hdigits | ⟨rfl, v, hv, -⟩
        · exact hnone ⟨b1, b2, later, byte, heq, hdigits⟩
        · exact hsigned ⟨[], b2, later, heq, hv ▸ rfl⟩
      rw [percentDecodeBytes_plain hplain, ih fun hrest => hsigned (hrest.cons b)]

theorem hexDigit_plus : hexDigit 0x2B = none := by decide

theorem hexDigit_lt {b : UInt8} {v : Nat} (h : hexDigit b = some v) : v < 16 := by
  unfold hexDigit at h
  dsimp only at h
  split_ifs at h <;> cases h <;> omega

theorem ofNat_ne_percent {v : Nat} (h : v < 16) : UInt8.ofNat v ≠ 0x25 := by
  intro heq
  have hval : v % 256 = 37 := congrArg UInt8.toNat heq
  omega

theorem not_escape_signed (rest : Bytes) : ¬ Escape (0x25 :: 0x2B :: rest) := by
  rintro ⟨b1, b2, later, byte, heq, hi, lo, h1, -⟩
  obtain ⟨rfl, -⟩ := List.cons.inj (List.cons.inj heq).2
  rw [hexDigit_plus] at h1
  cases h1

/-- The documented reading leaves a signed escape as it stands. -/
theorem Unescapes.signed {digit : UInt8} {v : Nat} {rest out : Bytes}
    (hdigit : hexDigit digit = some v) (h : Unescapes (0x25 :: 0x2B :: digit :: rest) out) :
    ∃ later, out = 0x25 :: 0x2B :: digit :: later ∧ Unescapes rest later := by
  cases h with
  | escape hdigits _ => exact absurd ⟨_, _, _, _, rfl, hdigits⟩ (not_escape_signed (digit :: rest))
  | plain _ hrest =>
      obtain ⟨_, rfl, htail⟩ := hrest.of_ne (by decide)
      obtain ⟨later, rfl, hlater⟩ := htail.of_ne (hexDigit_ne hdigit)
      exact ⟨later, rfl, hlater⟩

/-- A signed escape behind a proper one is behind its digits. -/
theorem SignedEscape.behind {b1 b2 byte : UInt8} {rest : Bytes} (hdigits : Digits b1 b2 byte)
    (h : SignedEscape (0x25 :: b1 :: b2 :: rest)) : SignedEscape rest := by
  obtain ⟨hi, lo, h1, h2, -⟩ := hdigits
  rcases h.uncons with ⟨-, digit, later, heq, -⟩ | h
  · obtain ⟨rfl, -⟩ := List.cons.inj heq
    rw [hexDigit_plus] at h1
    cases h1
  · have hsecond := h.uncons.resolve_left fun hb => hexDigit_ne h1 hb.1
    exact hsecond.uncons.resolve_left fun hb => hexDigit_ne h2 hb.1

theorem SignedEscape.parsed {b : UInt8} {rest : Bytes} (h : SignedEscape (b :: rest)) :
    Parsed (b :: rest) ∨ SignedEscape rest := by
  rcases h.uncons with ⟨rfl, digit, later, rfl, hdigit⟩ | h
  · obtain ⟨v, hv⟩ := Option.isSome_iff_exists.mp hdigit
    refine .inl ⟨0x2B, digit, later, UInt8.ofNat v, rfl, ?_⟩
    rw [fromStrRadix16, if_pos (show (0x2B : UInt8).toNat = 0x2B from rfl), hv]
    rfl
  · exact .inr h

/-- A signed escape costs a `%` that the documented reading keeps. -/
theorem count_percentDecodeBytes {bytes out : Bytes} (h : Unescapes bytes out) :
    (percentDecodeBytes bytes).count 0x25 ≤ out.count 0x25 ∧
    (SignedEscape bytes → (percentDecodeBytes bytes).count 0x25 < out.count 0x25) := by
  -- The two readings advance by different steps, so the induction is on how much is left.
  induction hlen : bytes.length using Nat.strong_induction_on generalizing bytes out with
  | _ n ih =>
      subst hlen
      by_cases hparsed : Parsed bytes
      · obtain ⟨b1, b2, rest, byte, rfl, hparsed⟩ := hparsed
        rw [percentDecodeBytes_parsed rest hparsed]
        rcases parsed_cases hparsed with hdigits | ⟨rfl, v, hv, rfl⟩
        · cases h with
          | plain hnone _ => exact absurd ⟨b1, b2, rest, byte, rfl, hdigits⟩ hnone
          | @escape _ _ byte' _ out hdigits' hrest =>
              obtain rfl := hdigits.unique hdigits'
              obtain ⟨hle, hlt⟩ := ih rest.length (by simp; omega) hrest rfl
              rw [List.count_cons, List.count_cons]
              exact ⟨Nat.add_le_add_right hle _, fun hsigned =>
                Nat.add_lt_add_right (hlt (hsigned.behind hdigits)) _⟩
        · obtain ⟨later, rfl, hrest⟩ := h.signed hv
          have hle := (ih rest.length (by simp; omega) hrest rfl).1
          rw [List.count_cons_of_ne (ofNat_ne_percent (hexDigit_lt hv)), List.count_cons_self,
            List.count_cons_of_ne (by decide), List.count_cons_of_ne (hexDigit_ne hv)]
          exact ⟨by omega, fun _ => by omega⟩
      · cases h with
        | nil =>
            refine ⟨le_rfl, fun hsigned => ?_⟩
            obtain ⟨earlier, digit, later, heq, -⟩ := hsigned
            cases earlier <;> cases heq
        | escape hdigits _ =>
            exact absurd ⟨_, _, _, _, rfl, (digits_iff.mp hdigits).2⟩ hparsed
        | @plain b rest out _ hrest =>
            obtain ⟨hle, hlt⟩ := ih rest.length (by simp) hrest rfl
            rw [percentDecodeBytes_plain hparsed, List.count_cons, List.count_cons]
            exact ⟨Nat.add_le_add_right hle _, fun hsigned =>
              Nat.add_lt_add_right (hlt (hsigned.parsed.resolve_left hparsed)) _⟩

/-! ## The whole function

On a text whose bytes are read back as characters. -/

/-- The test for a `%` only saves the copy. -/
theorem percentDecode_eq (s : Str) :
    percentDecode s = Utf8.decodeLossy (percentDecodeBytes (Utf8.encode s)) := by
  unfold percentDecode
  split
  · rfl
  · rename_i hnone
    have hcopy : ∀ bytes : Bytes, (0x25 : UInt8) ∉ bytes → percentDecodeBytes bytes = bytes := by
      intro bytes
      induction bytes with
      | nil => intro _; rfl
      | cons b rest ih =>
          intro hmem
          have hplain : ¬ Parsed (b :: rest) := by
            rintro ⟨b1, b2, later, byte, heq, -⟩
            exact hmem (heq ▸ List.mem_cons_self)
          rw [percentDecodeBytes_plain hplain, ih fun h => hmem (List.mem_cons_of_mem _ h)]
    have hbytes : (0x25 : UInt8) ∉ Utf8.encode s := fun hmem =>
      hnone ((Utf8.mem_encode_iff (by decide) s).mp hmem)
    rw [hcopy _ hbytes, Utf8.decodeLossy_encode]

/-- `percent_decode` is the documented reading exactly where no `%` stands in
front of a plus sign and a hexadecimal digit. -/
theorem percent_decode_escapes (s : Str) :
    (∃ out, Unescapes (Utf8.encode s) out ∧ percentDecode s = Utf8.decodeLossy out) ↔
      ¬ SignedEscape (Utf8.encode s) := by
  constructor
  · rintro ⟨out, hout, hread⟩ hsigned
    have hlost := (count_percentDecodeBytes hout).2 hsigned
    rw [← Utf8.count_decodeLossy (by decide), ← Utf8.count_decodeLossy (by decide),
      ← percentDecode_eq, hread] at hlost
    exact lt_irrefl _ hlost
  · intro hsigned
    obtain ⟨out, hout⟩ := Unescapes.total (Utf8.encode s)
    exact ⟨out, hout, by rw [percentDecode_eq, percentDecodeBytes_of_unescapes hout hsigned]⟩

/-- `%+5` is read as the byte five; the documentation leaves it as it stands. -/
theorem signed_escape_read :
    ¬ ∃ out, Unescapes (Utf8.encode "%+5".toList) out ∧
      percentDecode "%+5" = Utf8.decodeLossy out := by
  rintro ⟨out, hout, hread⟩
  have hplain : Unescapes (Utf8.encode "%+5".toList) (Utf8.encode "%+5".toList) := by
    exact .plain (not_escape_signed _) (.plain (not_escape_of_ne (by decide))
      (.plain (not_escape_of_ne (by decide)) .nil))
  rw [hout.unique hplain] at hread
  exact absurd hread (by decide)

end GrpcEpub.Href
