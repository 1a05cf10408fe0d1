/-
# `GrpcEpub.Text` — strings, bytes and maps as the service handles them

A `str` is a list of characters and a `[u8]` a list of bytes.  Lengths that
the source compares against a byte limit are byte lengths, so `Str.len`
counts UTF-8 octets and never characters.  A `HashMap` is only ever looked
up, inserted into and removed from, so an association list with distinct
keys is the same thing.
-/
import Mathlib.Data.List.AList
import Mathlib.Data.List.Sort
import Mathlib.Tactic

namespace GrpcEpub

abbrev Bytes := List UInt8

abbrev Str := List Char

instance : Coe String Str := ⟨String.toList⟩

/-- Membership in a list of strings is decided by comparing them. -/
instance lawfulBEqStr : LawfulBEq Str := inferInstance

namespace Str

/-- `str::len`: the number of UTF-8 bytes. -/
def len (s : Str) : Nat := (s.map Char.utf8Size).sum

@[simp] theorem len_nil : len [] = 0 := rfl

@[simp] theorem len_cons (c : Char) (s : Str) : len (c :: s) = c.utf8Size + len s := by
  simp [len]

@[simp] theorem len_append (s t : Str) : len (s ++ t) = len s + len t := by
  simp [len]

/-- `char::is_whitespace`: the Unicode `White_Space` property. -/
def isWhitespace (c : Char) : Bool :=
  let v := c.toNat
  (0x09 ≤ v && v ≤ 0x0D) || v == 0x20 || v == 0x85 || v == 0xA0 || v == 0x1680 ||
    (0x2000 ≤ v && v ≤ 0x200A) || v == 0x2028 || v == 0x2029 || v == 0x202F ||
    v == 0x205F || v == 0x3000

/-- `str::trim`. -/
def trim (s : Str) : Str :=
  ((s.dropWhile isWhitespace).reverse.dropWhile isWhitespace).reverse

/-- `str::split_whitespace`: the maximal runs of non-whitespace. -/
def splitWhitespace (s : Str) : List Str :=
  (s.splitOnP isWhitespace).filter (· ≠ [])

/-- `str::to_ascii_lowercase`. -/
def toAsciiLowercase (s : Str) : Str := s.map Char.toLower

/-- `str::to_ascii_uppercase`. -/
def toAsciiUppercase (s : Str) : Str := s.map Char.toUpper

/-- `str::eq_ignore_ascii_case`. -/
def eqIgnoreAsciiCase (s t : Str) : Bool := s.toAsciiLowercase == t.toAsciiLowercase

/-- `str::starts_with`. -/
def startsWith (s pat : Str) : Bool := pat.isPrefixOf s

/-- `str::contains` on a string pattern. -/
def contains (s pat : Str) : Bool := s.tails.any pat.isPrefixOf

/-- `str::strip_suffix`. -/
def stripSuffix (s pat : Str) : Option Str :=
  if pat.isSuffixOf s then some (s.take (s.length - pat.length)) else none

/-- `s.split(c).next()`: everything before the first `c`, all of `s` when there is none. -/
def before (c : Char) (s : Str) : Str := s.takeWhile (· ≠ c)

/-- `str::split_once`. -/
def splitOnce (c : Char) (s : Str) : Option (Str × Str) :=
  if c ∈ s then some (s.before c, (s.dropWhile (· ≠ c)).drop 1) else none

/-! Cutting at a character. -/

theorem before_of_not_mem {c : Char} {s : Str} (hc : c ∉ s) : s.before c = s := by
  have hall : ∀ d ∈ s, decide (d ≠ c) = true := fun d hd => decide_eq_true fun heq => hc (heq ▸ hd)
  have htake := @List.takeWhile_append_of_pos _ (fun d => decide (d ≠ c)) s [] hall
  rwa [List.append_nil, List.takeWhile_nil, List.append_nil] at htake

theorem splitOnce_none {c : Char} {s : Str} (h : c ∉ s) : s.splitOnce c = none := if_neg h

theorem splitOnce_append {c : Char} {s t : Str} (h : c ∉ s) :
    splitOnce c (s ++ c :: t) = some (s, t) := by
  have hall : ∀ d ∈ s, decide (d ≠ c) = true := fun d hd => decide_eq_true fun heq => h (heq ▸ hd)
  unfold splitOnce before
  rw [if_pos (List.mem_append_right _ List.mem_cons_self), List.takeWhile_append_of_pos hall,
    List.dropWhile_append_of_pos hall, List.takeWhile_cons_of_neg (by simp),
    List.dropWhile_cons_of_neg (by simp), List.append_nil, List.drop_one, List.tail_cons]

/-- `split_once` cuts at the first `c`. -/
theorem splitOnce_eq_some {c : Char} {s a b : Str} :
    s.splitOnce c = some (a, b) ↔ c ∉ a ∧ s = a ++ c :: b := by
  constructor
  · intro h
    by_cases hmem : c ∈ s
    · obtain ⟨earlier, later, rfl, hearlier⟩ := List.eq_append_cons_of_mem hmem
      rw [splitOnce_append hearlier] at h
      cases h
      exact ⟨hearlier, rfl⟩
    · rw [splitOnce_none hmem] at h
      cases h
  · rintro ⟨ha, rfl⟩
    exact splitOnce_append ha

end Str

/-- A `HashMap` whose iteration order is never observed. -/
abbrev HashMap (κ ν : Type) := AList (fun _ : κ => ν)

namespace HashMap

variable {κ ν : Type} [DecidableEq κ]

/-- `HashMap::get`. -/
def get (m : HashMap κ ν) (k : κ) : Option ν := AList.lookup k m

/-- `HashMap::entry(k).or_insert(v)`: the first value for a key stays. -/
def orInsert (m : HashMap κ ν) (k : κ) (v : ν) : HashMap κ ν :=
  if (m.get k).isSome then m else AList.insert k v m

@[simp] theorem get_empty (k : κ) : get (∅ : HashMap κ ν) k = none := rfl

theorem get_insert (m : HashMap κ ν) (k k' : κ) (v : ν) :
    get (AList.insert k v m) k' = if k' = k then some v else m.get k' := by
  by_cases h : k' = k
  · subst h; simp [get]
  · simp [get, AList.lookup_insert_ne h, h]

theorem get_erase (m : HashMap κ ν) (k k' : κ) :
    get (AList.erase k m) k' = if k' = k then none else m.get k' := by
  by_cases h : k' = k
  · subst h; simp [get]
  · simp [get, AList.lookup_erase_ne h, h]

theorem get_orInsert (m : HashMap κ ν) (k k' : κ) (v : ν) :
    get (orInsert m k v) k' = if k' = k ∧ m.get k = none then some v else m.get k' := by
  unfold orInsert
  cases hk : m.get k with
  | some w => simp
  | none => simp [get_insert]

end HashMap

end GrpcEpub
