/-
# `GrpcEpub.Paths` — what `normalize` lets through

Whatever an href or an entry name says, the path that comes out of `normalize`
names a file below the root: `Canonical`.  The loop over segments keeps clean
segments only, and what it keeps is never longer than what it was given.

A path is `Canonical` when none of its segments is empty, `.` or `..`, when it has no NUL and no
backslash, and when it keeps to `MAX_PATH_BYTES`; it then names something below the root in one
way only.  `BaseDir` is the same with the empty directory allowed, since that is where an href
of a package document in the root starts from.
-/
import GrpcEpub.Href

namespace GrpcEpub

/-- A canonical root-relative archive path. -/
structure Canonical (path : Str) : Prop where
  nonempty : path ≠ []
  short : path.len ≤ maxPathBytes
  noNul : '\x00' ∉ path
  noBackslash : '\\' ∉ path
  relative : path.head? ≠ some '/'
  segments : ∀ segment ∈ path.splitOn '/', segment ∉ ([[], ['.'], ['.', '.']] : List Str)

namespace Href

/-! ## Segments

A list of clean segments and its text are the same thing, `/` being the one character that no
segment has.  `weight` counts the bytes of a list of segments with a slash behind each. -/

/-- A segment of a canonical path. -/
structure Clean (segment : Str) : Prop where
  named : segment ∉ ([[], ['.'], ['.', '.']] : List Str)
  noSlash : '/' ∉ segment
  noNul : '\x00' ∉ segment
  noBackslash : '\\' ∉ segment

/-- The bytes segments take, with a separator after each. -/
def weight (segments : List Str) : Nat := (segments.map fun segment => segment.len + 1).sum

@[simp] theorem weight_nil : weight [] = 0 := rfl

@[simp] theorem weight_cons (segment : Str) (rest : List Str) :
    weight (segment :: rest) = segment.len + 1 + weight rest := rfl

@[simp] theorem weight_append (xs ys : List Str) : weight (xs ++ ys) = weight xs + weight ys := by
  simp [weight]

theorem weight_dropLast_le (segments : List Str) : weight segments.dropLast ≤ weight segments := by
  rcases List.eq_nil_or_concat segments with rfl | ⟨init, last, rfl⟩
  · simp
  · simp

/-- A segment is made of characters of the path other than the separator. -/
theorem mem_of_mem_splitOn {a c : Char} : ∀ {xs segment : Str},
    segment ∈ xs.splitOn a → c ∈ segment → c ∈ xs ∧ c ≠ a
  | [], segment, hsegment, hc => by
      obtain rfl : segment = [] := by simpa using hsegment
      cases hc
  | x :: xs, segment, hsegment, hc => by
      rw [List.splitOn_cons_eq_if_modifyHead] at hsegment
      split at hsegment
      · rcases List.mem_cons.mp hsegment with rfl | hrest
        · cases hc
        · obtain ⟨hmem, hne⟩ := mem_of_mem_splitOn hrest hc
          exact ⟨List.mem_cons_of_mem _ hmem, hne⟩
      · rename_i hx
        cases hsplit : xs.splitOn a with
        | nil => exact absurd hsplit (List.splitOn_ne_nil a xs)
        | cons first others =>
            have htail : ∀ s ∈ first :: others, c ∈ s → c ∈ xs ∧ c ≠ a := fun s hs =>
              mem_of_mem_splitOn (by rwa [hsplit])
            rw [hsplit, List.modifyHead_cons] at hsegment
            rcases List.mem_cons.mp hsegment with rfl | hrest
            · rcases List.mem_cons.mp hc with rfl | hc
              · exact ⟨List.mem_cons_self, by simpa using hx⟩
              · obtain ⟨hmem, hne⟩ := htail first List.mem_cons_self hc
                exact ⟨List.mem_cons_of_mem _ hmem, hne⟩
            · obtain ⟨hmem, hne⟩ := htail segment (List.mem_cons_of_mem _ hrest) hc
              exact ⟨List.mem_cons_of_mem _ hmem, hne⟩

/-- A joined path is made of its segments and of slashes. -/
theorem mem_joinSlash {c : Char} : ∀ {segments : List Str}, c ∈ joinSlash segments →
    c = '/' ∨ ∃ segment ∈ segments, c ∈ segment
  | [], h => by simp [joinSlash] at h
  | [segment], h => .inr ⟨segment, List.mem_cons_self, by simpa [joinSlash] using h⟩
  | first :: second :: rest, h => by
      rw [joinSlash, List.intercalate_cons_cons, List.append_assoc] at h
      rcases List.mem_append.mp h with hfirst | hrest
      · exact .inr ⟨first, List.mem_cons_self, hfirst⟩
      · rcases List.mem_append.mp hrest with hslash | hrest
        · exact .inl (List.mem_singleton.mp hslash)
        · rcases mem_joinSlash hrest with rfl | ⟨segment, hmem, hc⟩
          · exact .inl rfl
          · exact .inr ⟨segment, List.mem_cons_of_mem _ hmem, hc⟩

theorem len_joinSlash : ∀ {segments : List Str}, segments ≠ [] →
    (joinSlash segments).len + 1 = weight segments
  | [], h => absurd rfl h
  | [segment], _ => by simp [joinSlash]
  | first :: second :: rest, _ => by
      have ih := len_joinSlash (List.cons_ne_nil second rest)
      have hslash : Char.utf8Size '/' = 1 := by decide
      rw [joinSlash] at ih ⊢
      rw [List.intercalate_cons_cons, List.append_assoc, Str.len_append, Str.len_append,
        Str.len_cons, Str.len_nil, hslash, weight_cons, ← ih]
      omega

theorem weight_splitOn (path : Str) : weight (path.splitOn '/') = path.len + 1 := by
  rw [← len_joinSlash (List.splitOn_ne_nil _ _), joinSlash, List.intercalate_splitOn]

/-- Clean segments joined are a canonical path, unless they are too long. -/
theorem canonical_joinSlash {segments : List Str} (hne : segments ≠ [])
    (hclean : ∀ segment ∈ segments, Clean segment)
    (hshort : weight segments ≤ maxPathBytes + 1) : Canonical (joinSlash segments) := by
  have hsplit : (joinSlash segments).splitOn '/' = segments :=
    List.splitOn_intercalate '/' (fun s hs => (hclean s hs).noSlash) hne
  have hchar : ∀ c, c ≠ '/' → (∀ s ∈ segments, c ∉ s) → c ∉ joinSlash segments := by
    intro c hslash hnone hc
    rcases mem_joinSlash hc with rfl | ⟨segment, hmem, hc⟩
    · exact hslash rfl
    · exact hnone segment hmem hc
  have hlen := len_joinSlash hne
  have hsegments : ∀ s ∈ (joinSlash segments).splitOn '/',
      s ∉ ([[], ['.'], ['.', '.']] : List Str) := by
    rw [hsplit]
    exact fun s hs => (hclean s hs).named
  refine ⟨?_, by omega, ?_, ?_, ?_, hsegments⟩
  · intro hempty
    rw [hempty] at hsegments
    exact hsegments [] (by simp) (by simp)
  · exact hchar _ (by decide) fun s hs => (hclean s hs).noNul
  · exact hchar _ (by decide) fun s hs => (hclean s hs).noBackslash
  · intro hhead
    obtain ⟨rest, hrest⟩ : ∃ rest, joinSlash segments = '/' :: rest := by
      cases hjoin : joinSlash segments with
      | nil => simp [hjoin] at hhead
      | cons c rest => exact ⟨rest, by simpa [hjoin] using hhead⟩
    rw [hrest, List.splitOn_cons_eq_if_modifyHead] at hsegments
    exact hsegments [] (by simp) (by simp)

theorem Canonical.clean {path segment : Str} (h : Canonical path)
    (hsegment : segment ∈ path.splitOn '/') : Clean segment where
  named := h.segments segment hsegment
  noSlash := fun hc => (mem_of_mem_splitOn hsegment hc).2 rfl
  noNul := fun hc => h.noNul (mem_of_mem_splitOn hsegment hc).1
  noBackslash := fun hc => h.noBackslash (mem_of_mem_splitOn hsegment hc).1

/-! ## `normalize`

The loop keeps a list of clean segments, starting from those of the base directory. -/

@[simp] theorem len_slashes (path : Str) : (slashes path).len = path.len := by
  have hsize : ∀ c : Char, (if c = '\\' then '/' else c).utf8Size = c.utf8Size := by
    intro c
    split
    · subst c
      decide
    · rfl
  simp only [slashes, Str.len, List.map_map]
  exact congrArg List.sum (List.map_congr_left fun c _ => hsize c)

theorem mem_slashes {path : Str} {c : Char} (h : c ∈ slashes path) :
    c ≠ '\\' ∧ (c = '/' ∨ c ∈ path) := by
  obtain ⟨d, hd, rfl⟩ := List.mem_map.mp h
  split
  · exact ⟨by decide, .inl rfl⟩
  · rename_i hne
    exact ⟨hne, .inr hd⟩

/-- The loop keeps clean segments, and no more bytes than it is given. -/
theorem walkSegments_ok : ∀ {path segments out : List Str},
    (∀ segment ∈ segments, Clean segment) →
    (∀ segment ∈ path, '/' ∉ segment ∧ '\x00' ∉ segment ∧ '\\' ∉ segment) →
    walkSegments segments path = .ok out →
    (∀ segment ∈ out, Clean segment) ∧ weight out ≤ weight segments + weight path
  | [], segments, out, hclean, _, h => by
      cases h
      exact ⟨hclean, by simp⟩
  | segment :: rest, segments, out, hclean, hpath, h => by
      obtain ⟨hsegment, hrest⟩ := List.forall_mem_cons.mp hpath
      unfold walkSegments at h
      split at h
      · obtain ⟨hout, hweight⟩ := walkSegments_ok hclean hrest h
        exact ⟨hout, by rw [weight_cons]; omega⟩
      · rename_i hskip
        split at h
        · split at h
          · cases h
          · obtain ⟨hout, hweight⟩ := walkSegments_ok
              (fun s hs => hclean s (List.dropLast_subset _ hs)) hrest h
            have hpop := weight_dropLast_le segments
            exact ⟨hout, by rw [weight_cons]; omega⟩
        · rename_i hparent
          have hkept : Clean segment := by
            refine ⟨?_, hsegment.1, hsegment.2.1, hsegment.2.2⟩
            simp only [List.mem_cons, List.not_mem_nil, or_false, not_or] at hskip ⊢
            exact ⟨hskip.1, hskip.2, hparent⟩
          have hall : ∀ s ∈ segments ++ [segment], Clean s := by
            intro s hs
            rcases List.mem_append.mp hs with hs | hs
            · exact hclean s hs
            · exact List.mem_singleton.mp hs ▸ hkept
          obtain ⟨hout, hweight⟩ := walkSegments_ok hall hrest h
          refine ⟨hout, ?_⟩
          rw [weight_append, weight_cons, weight_nil] at hweight
          rw [weight_cons]
          omega

/-- A directory hrefs are resolved against: the root, or a canonical path. -/
def BaseDir (dir : Str) : Prop := dir = [] ∨ Canonical dir

theorem BaseDir.segments {dir : Str} (h : BaseDir dir) :
    (∀ segment ∈ baseSegments dir, Clean segment) ∧ weight (baseSegments dir) ≤ dir.len + 1 := by
  unfold baseSegments
  rcases h with rfl | h
  · simp
  · rw [if_neg h.nonempty, weight_splitOn]
    exact ⟨fun segment => Canonical.clean h, le_rfl⟩

/-- Whatever comes out of `normalize` is canonical. -/
theorem normalize_canonical {baseDir path out : Str} (hbase : BaseDir baseDir)
    (h : normalize baseDir path = .ok out) : Canonical out := by
  unfold normalize at h
  split at h
  · cases h
  · split at h
    · cases h
    · rename_i hlen
      split at h
      · cases h
      · rename_i hnul
        split at h
        · cases h
        · split at h
          · cases h
          · rename_i segments hwalk
            split at h
            · cases h
            · rename_i hne
              cases h
              have hpath : ∀ segment ∈ (slashes path).splitOn '/',
                  '/' ∉ segment ∧ '\x00' ∉ segment ∧ '\\' ∉ segment := by
                intro segment hsegment
                refine ⟨fun hc => (mem_of_mem_splitOn hsegment hc).2 rfl, fun hc => ?_, fun hc => ?_⟩
                · rcases (mem_slashes (mem_of_mem_splitOn hsegment hc).1).2 with heq | hc
                  · exact absurd heq (by decide)
                  · exact hnul hc
                · exact (mem_slashes (mem_of_mem_splitOn hsegment hc).1).1 rfl
              obtain ⟨hclean, hweight⟩ := walkSegments_ok hbase.segments.1 hpath hwalk
              refine canonical_joinSlash hne hclean ?_
              have hbaseWeight := hbase.segments.2
              rw [weight_splitOn, len_slashes] at hweight
              omega

/-- An href that resolves to a file resolves to a canonical path. -/
theorem resolve_canonical {baseDir href path : Str} (hbase : BaseDir baseDir)
    (h : resolve baseDir href = .ok (.entry path)) : Canonical path := by
  unfold resolve at h
  split at h
  · cases h
  · split at h
    · cases h
    · split at h
      · cases h
      · rename_i out hnormalize
        cases h
        exact normalize_canonical hbase hnormalize

/-! ## `parent_dir`

What is in front of the last slash of a canonical path. -/

/-- A path has no parent, or is its parent and a last segment. -/
theorem parentDir_eq (path : Str) :
    parentDir path = [] ∨ ∃ last, path = parentDir path ++ '/' :: last := by
  unfold parentDir
  cases hdrop : path.reverse.dropWhile (fun c => decide (c ≠ '/')) with
  | nil => exact .inl rfl
  | cons c rest =>
      obtain rfl : c = '/' := by
        have hhead := List.head?_dropWhile_not (fun c => decide (c ≠ '/')) path.reverse
        rw [hdrop] at hhead
        simpa using hhead
      refine .inr ⟨(path.reverse.takeWhile (fun c => decide (c ≠ '/'))).reverse, ?_⟩
      calc path = (path.reverse.takeWhile (fun c => decide (c ≠ '/')) ++ '/' :: rest).reverse := by
            rw [← hdrop, List.takeWhile_append_dropWhile, List.reverse_reverse]
        _ = rest.reverse ++ '/' :: (path.reverse.takeWhile (fun c => decide (c ≠ '/'))).reverse := by
            rw [List.reverse_append, List.reverse_cons, List.append_assoc, List.singleton_append]

/-- The directory of a canonical path is a base directory. -/
theorem Canonical.parentDir {path : Str} (h : Canonical path) : BaseDir (parentDir path) := by
  rcases parentDir_eq path with hroot | ⟨last, hpath⟩
  · exact .inl hroot
  · by_cases hempty : Href.parentDir path = []
    · exact .inl hempty
    · refine .inr ?_
      generalize Href.parentDir path = dir at hpath hempty
      subst hpath
      have hsegments : ∀ segment ∈ dir.splitOn '/', Clean segment := fun segment hsegment =>
        Canonical.clean h (by rw [List.splitOn_append_cons_self]; exact List.mem_append_left _ hsegment)
      have hcanonical := canonical_joinSlash (List.splitOn_ne_nil '/' dir) hsegments (by
        have hshort := h.short
        rw [Str.len_append] at hshort
        rw [weight_splitOn]
        omega)
      rwa [joinSlash, List.intercalate_splitOn] at hcanonical

end Href

end GrpcEpub
