/-
# `GrpcEpub.Normal` — where a reference leads

A path is a walk: its segments, with `/` and `\` both separating, go down by a
name, up by one, or stay.  `destination` is where the walk over the base's
segments and then the path's ends, and `normalize_eq` says that the loop of
`normalize` finds exactly that, after the refusals that look at the path as a
whole.

A canonical path leads to itself unless it is as long as a path may be: the
length test counts a separator in front of it even where there is none.
-/
import GrpcEpub.Lib.Walk
import GrpcEpub.Paths

namespace GrpcEpub.Href

/-! ## Segments as moves

The stack of the loop is the stack of the walk, in the other order. -/

/-- What a segment tells the walk. -/
def segmentMove (segment : Str) : Move Str :=
  if segment = [] ∨ segment = ['.'] then .stay
  else if segment = ['.', '.'] then .up
  else .down segment

def isSeparator (c : Char) : Bool := c == '/' || c == '\\'

/-- The segments of a path, with both separators. -/
def pathSegments (path : Str) : List Str := path.splitOnP isSeparator

/-- Where the base and then the path lead, from the root. -/
def destination (baseDir path : Str) : Option (List Str) :=
  (Move.walk [] ((baseSegments baseDir ++ pathSegments path).map segmentMove)).map List.reverse

/-- A path under a directory. -/
def under (dir rest : Str) : Str := if dir = [] then rest else dir ++ '/' :: rest

/-- Both separators separate. -/
theorem splitOn_slashes (path : Str) : (slashes path).splitOn '/' = pathSegments path := by
  induction path with
  | nil => rfl
  | cons c rest ih =>
      have hrest : List.splitOn '/' (rest.map fun c => if c = '\\' then '/' else c) =
          pathSegments rest := ih
      have hcons : pathSegments (c :: rest) = if isSeparator c then [] :: pathSegments rest
          else (pathSegments rest).modifyHead (List.cons c) :=
        List.splitOnP_cons_eq_if_modifyHead _ _
      rw [slashes, List.map_cons, List.splitOn_cons_eq_if_modifyHead, hrest, hcons]
      by_cases hback : c = '\\'
      · subst hback
        rfl
      · by_cases hslash : c = '/'
        · subst hslash
          rfl
        · simp [isSeparator, hback, hslash]

/-- The loop is the walk, its stack the other way round. -/
theorem walkSegments_eq (path segments : List Str) :
    walkSegments segments path =
      match Move.walk segments.reverse (path.map segmentMove) with
      | none => .error .traversal
      | some out => .ok out.reverse := by
  induction path generalizing segments with
  | nil =>
      rw [walkSegments, List.map_nil, Move.walk_nil]
      simp
  | cons segment rest ih =>
      rw [walkSegments, List.map_cons]
      by_cases hstay : segment = [] ∨ segment = ['.']
      · rw [if_pos hstay, segmentMove, if_pos hstay, Move.walk_stay, ih]
      · rw [if_neg hstay, segmentMove, if_neg hstay]
        by_cases hup : segment = ['.', '.']
        · rw [if_pos hup, if_pos hup]
          rcases List.eq_nil_or_concat segments with rfl | ⟨init, last, rfl⟩
          · rfl
          · rw [if_neg (by simp), ih, List.concat_eq_append, List.dropLast_concat,
              List.reverse_append, List.reverse_singleton, List.singleton_append, Move.walk_up]
        · rw [if_neg hup, if_neg hup, ih, List.reverse_append, List.reverse_singleton,
            List.singleton_append, Move.walk_down]

theorem segmentMove_clean {segment : Str}
    (h : segment ∉ ([[], ['.'], ['.', '.']] : List Str)) : segmentMove segment = .down segment := by
  simp only [List.mem_cons, List.not_mem_nil, or_false, not_or] at h
  rw [segmentMove, if_neg (not_or.mpr ⟨h.1, h.2.1⟩), if_neg h.2.2]

theorem map_segmentMove_clean {segments : List Str}
    (h : ∀ segment ∈ segments, segment ∉ ([[], ['.'], ['.', '.']] : List Str)) :
    segments.map segmentMove = segments.map .down :=
  List.map_congr_left fun segment hsegment => segmentMove_clean (h segment hsegment)

/-- The base is walked down, so the path starts on its segments. -/
theorem destination_eq {baseDir : Str} (hbase : BaseDir baseDir) (path : Str) :
    destination baseDir path =
      (Move.walk (baseSegments baseDir).reverse ((pathSegments path).map segmentMove)).map
        List.reverse := by
  have hclean := map_segmentMove_clean fun segment hsegment =>
    (hbase.segments.1 segment hsegment).named
  rw [destination, List.map_append, Move.walk_append, hclean, Move.walk_downs, List.append_nil]
  rfl

/-! ## `normalize`

The refusals that look at the path as a whole, and then the walk. -/

/-- What `normalize` lets through to its loop. -/
structure Admitted (baseDir path : Str) : Prop where
  nonempty : path ≠ []
  short : path.len + baseDir.len + 1 ≤ maxPathBytes
  noNul : '\x00' ∉ path
  relative : ∀ c, path.head? = some c → isSeparator c = false

theorem head?_slashes (path : Str) :
    (slashes path).head? = some '/' ↔ ∃ c, path.head? = some c ∧ isSeparator c = true := by
  cases path with
  | nil => simp [slashes]
  | cons c rest =>
      by_cases hback : c = '\\'
      · simp [slashes, isSeparator, hback]
      · simp [slashes, isSeparator, hback]

/-- The loop is the walk, behind the refusals. -/
theorem normalize_eq {baseDir path : Str} (hbase : BaseDir baseDir) (h : Admitted baseDir path) :
    normalize baseDir path =
      match destination baseDir path with
      | none => .error .traversal
      | some segments => if segments = [] then .error .empty else .ok (joinSlash segments) := by
  have hhead : (slashes path).head? ≠ some '/' := by
    intro heq
    obtain ⟨c, hc, hsep⟩ := (head?_slashes path).mp heq
    rw [h.relative c hc] at hsep
    cases hsep
  rw [normalize, if_neg h.nonempty, if_neg (Nat.not_lt.mpr h.short), if_neg h.noNul, if_neg hhead,
    splitOn_slashes, walkSegments_eq, destination_eq hbase]
  cases Move.walk (baseSegments baseDir).reverse ((pathSegments path).map segmentMove) <;> rfl

/-- The refusals in front of the loop are none of the loop's. -/
theorem normalize_refused {baseDir path : Str} (h : ¬ Admitted baseDir path) :
    ∃ e, normalize baseDir path = .error e ∧ e ≠ .traversal := by
  unfold normalize
  by_cases hempty : path = []
  · exact ⟨.empty, if_pos hempty, nofun⟩
  by_cases hlong : maxPathBytes < path.len + baseDir.len + 1
  · exact ⟨.tooLong, (if_neg hempty).trans (if_pos hlong), nofun⟩
  by_cases hnul : '\x00' ∈ path
  · exact ⟨_, (if_neg hempty).trans ((if_neg hlong).trans (if_pos hnul)), nofun⟩
  by_cases hhead : (slashes path).head? = some '/'
  · exact ⟨.absolute,
      (if_neg hempty).trans ((if_neg hlong).trans ((if_neg hnul).trans (if_pos hhead))), nofun⟩
  · refine absurd ⟨hempty, Nat.not_lt.mp hlong, hnul, fun c hc => ?_⟩ h
    exact Bool.eq_false_iff.mpr fun hsep => hhead ((head?_slashes path).mpr ⟨c, hc, hsep⟩)

/-- What is accepted, and where it leads. -/
theorem normalize_ok_iff {baseDir path out : Str} (hbase : BaseDir baseDir) :
    normalize baseDir path = .ok out ↔ Admitted baseDir path ∧
      ∃ segments, segments ≠ [] ∧ destination baseDir path = some segments ∧
        out = joinSlash segments := by
  by_cases h : Admitted baseDir path
  · rw [normalize_eq hbase h]
    cases destination baseDir path with
    | none => simp
    | some segments =>
        by_cases hne : segments = []
        · simp [hne]
        · simp [hne, h, eq_comm]
  · obtain ⟨e, he, -⟩ := normalize_refused h
    simp [he, h]

/-- What is refused because it would leave the root. -/
theorem normalize_traversal_iff {baseDir path : Str} (hbase : BaseDir baseDir) :
    normalize baseDir path = .error .traversal ↔
      Admitted baseDir path ∧ destination baseDir path = none := by
  by_cases h : Admitted baseDir path
  · rw [normalize_eq hbase h]
    cases destination baseDir path with
    | none => simp [h]
    | some segments =>
        by_cases hne : segments = []
        · simp [hne]
        · simp [hne]
  · obtain ⟨e, he, hne⟩ := normalize_refused h
    simp [he, h, hne]

/-! ## Confinement

Where a walk ends that has not left the root. -/

/-- A path inside the archive, and the one the walk leads to. -/
structure Confined (baseDir path out : Str) : Prop where
  canonical : Canonical out
  walked : ∃ segments, destination baseDir path = some segments ∧ out = joinSlash segments

theorem normalize_confined {baseDir path out : Str} (hbase : BaseDir baseDir)
    (h : normalize baseDir path = .ok out) : Confined baseDir path out := by
  obtain ⟨-, segments, -, hwalk, hout⟩ := (normalize_ok_iff hbase).mp h
  exact ⟨normalize_canonical hbase h, segments, hwalk, hout⟩

theorem resolve_eq (baseDir href : Str) :
    resolve baseDir href =
      if maxPathBytes < href.len then .error .tooLong
      else if isAbsoluteUri href then .ok (.remote href)
      else (normalize baseDir (percentDecode (href.before '#'))).map .entry := by
  unfold resolve
  split
  · rfl
  · split
    · rfl
    · cases normalize baseDir (percentDecode (href.before '#')) <;> rfl

/-- Whatever a reference says, it leads to a path inside the archive, out of it
to a URI nobody opens, or nowhere; and the only reason to call it a traversal is
that its walk goes up from the root. -/
theorem references_confined {baseDir : Str} (hbase : BaseDir baseDir) (s : Str) :
    (∀ out, normalize baseDir s = .ok out → Confined baseDir s out) ∧
    (normalize baseDir s = .error .traversal ↔
      Admitted baseDir s ∧ destination baseDir s = none) ∧
    (∀ target, resolve baseDir s = .ok target →
      (target = .remote s ∧ isAbsoluteUri s = true) ∨
      ∃ out, target = .entry out ∧ Confined baseDir (percentDecode (s.before '#')) out) ∧
    (resolve baseDir s = .error .traversal ↔
      s.len ≤ maxPathBytes ∧ isAbsoluteUri s = false ∧
      Admitted baseDir (percentDecode (s.before '#')) ∧
      destination baseDir (percentDecode (s.before '#')) = none) := by
  refine ⟨fun out => normalize_confined hbase, normalize_traversal_iff hbase, ?_, ?_⟩
  · intro target htarget
    rw [resolve_eq] at htarget
    split at htarget
    · cases htarget
    · split at htarget
      · rename_i huri
        cases htarget
        exact .inl ⟨rfl, huri⟩
      · cases hnormal : normalize baseDir (percentDecode (s.before '#')) with
        | error e =>
            rw [hnormal] at htarget
            cases htarget
        | ok out =>
            rw [hnormal] at htarget
            cases htarget
            exact .inr ⟨out, rfl, normalize_confined hbase hnormal⟩
  · rw [← normalize_traversal_iff hbase, resolve_eq]
    by_cases hlong : maxPathBytes < s.len
    · simp [hlong, Nat.not_le.mpr hlong]
    · by_cases huri : isAbsoluteUri s = true
      · simp [hlong, huri]
      · rw [if_neg hlong, if_neg huri]
        cases normalize baseDir (percentDecode (s.before '#')) with
        | error e =>
            simp [Except.map, Nat.not_lt.mp hlong, huri]
        | ok out => simp [Except.map]

theorem canonical_oebps : Canonical "OEBPS".toList :=
  normalize_canonical (.inl rfl) (show normalize [] "OEBPS" = .ok "OEBPS".toList by decide)

theorem references_confined_cover :
    resolve "OEBPS" "x/..\\%2e%2e/cover.jpg#top" = .ok (.entry "cover.jpg".toList) ∧
      Canonical "cover.jpg".toList := by
  have hresolve : resolve "OEBPS" "x/..\\%2e%2e/cover.jpg#top" =
      .ok (.entry "cover.jpg".toList) := by decide
  refine ⟨hresolve, ?_⟩
  rcases (references_confined (.inr canonical_oebps) "x/..\\%2e%2e/cover.jpg#top").2.2.1 _
    hresolve with ⟨hremote, -⟩ | ⟨out, hout, hconfined⟩
  · cases hremote
  · cases hout
    exact hconfined.canonical

/-! ## Canonical paths lead to themselves

Their segments only go down. -/

theorem Canonical.slashes {path : Str} (h : Canonical path) : slashes path = path := by
  have hsame : ∀ c ∈ path, (if c = '\\' then '/' else c) = c := by
    intro c hc
    have hne : c ≠ '\\' := fun heq => h.noBackslash (heq ▸ hc)
    exact if_neg hne
  rw [Href.slashes, List.map_congr_left hsame, List.map_id']

theorem Canonical.pathSegments {path : Str} (h : Canonical path) :
    pathSegments path = path.splitOn '/' := by
  rw [← splitOn_slashes, Canonical.slashes h]

theorem joinSlash_under {dir : Str} (rest : Str) :
    joinSlash (baseSegments dir ++ rest.splitOn '/') = under dir rest := by
  by_cases hdir : dir = []
  · rw [baseSegments, under, if_pos hdir, if_pos hdir, List.nil_append, joinSlash,
      List.intercalate_splitOn]
  · rw [baseSegments, under, if_neg hdir, if_neg hdir, ← List.splitOn_append_cons_self, joinSlash,
      List.intercalate_splitOn]

/-- A canonical path leads to where it says, below any directory. -/
theorem normalize_under {dir rest : Str} (hdir : BaseDir dir) (hrest : Canonical rest)
    (hshort : rest.len + dir.len + 1 ≤ maxPathBytes) : normalize dir rest = .ok (under dir rest) := by
  have hadmitted : Admitted dir rest := by
    refine ⟨hrest.nonempty, hshort, hrest.noNul, fun c hc => ?_⟩
    have hslash : c ≠ '/' := fun heq => hrest.relative (heq ▸ hc)
    have hback : c ≠ '\\' := fun heq => hrest.noBackslash (heq ▸ List.mem_of_mem_head? hc)
    simp [isSeparator, hslash, hback]
  have hwalk : destination dir rest = some (baseSegments dir ++ rest.splitOn '/') := by
    rw [destination_eq hdir, Canonical.pathSegments hrest, map_segmentMove_clean hrest.segments,
      Move.walk_downs]
    simp
  have hne : baseSegments dir ++ rest.splitOn '/' ≠ [] := by
    simp [List.splitOn_ne_nil]
  refine (normalize_ok_iff hdir).mpr ⟨hadmitted, _, hne, hwalk, (joinSlash_under rest).symm⟩

/-- A canonical path is its own normal form unless it is as long as one may be. -/
theorem normalize_self_iff {path : Str} (h : Canonical path) :
    normalize [] path = .ok path ↔ path.len < maxPathBytes := by
  constructor
  · intro hself
    have hshort := ((normalize_ok_iff (.inl rfl)).mp hself).1.short
    rw [Str.len_nil] at hshort
    omega
  · intro hlen
    exact normalize_under (.inl rfl) h (by rw [Str.len_nil]; omega)

theorem Canonical.getLast? {path : Str} (h : Canonical path) :
    ¬ (path.getLast? = some '/' ∨ path.getLast? = some '\\') := by
  rintro (hlast | hlast)
  · obtain ⟨init, rfl⟩ := List.getLast?_eq_some_iff.mp hlast
    refine h.segments [] ?_ List.mem_cons_self
    rw [List.splitOn_append_cons_self]
    exact List.mem_append_right _ List.mem_cons_self
  · exact h.noBackslash (List.mem_of_mem_getLast? hlast)

/-- An entry may have a canonical name that is short enough. -/
theorem checkEntryName_self_iff {path : Str} (h : Canonical path) :
    checkEntryName path = .ok (some path) ↔ path.len < maxPathBytes := by
  rw [← normalize_self_iff h, checkEntryName, if_neg (Canonical.getLast? h)]
  cases normalize [] path <;> simp

/-! ## Idempotence

What is normalized once is canonical; twice is the same unless it is too long. -/

theorem weight_pathSegments (path : Str) : weight (pathSegments path) = path.len + 1 := by
  rw [← splitOn_slashes, weight_splitOn, len_slashes]

theorem weight_baseSegments {dir : Str} (h : dir ≠ []) :
    weight (baseSegments dir) = dir.len + 1 := by
  rw [baseSegments, if_neg h, weight_splitOn]

/-- The bytes a segment takes, with a separator after it. -/
def segmentWeight (segment : Str) : Nat := segment.len + 1

theorem brings_segmentMove (segment : Str) :
    Move.brings segmentWeight (segmentMove segment) ≤ segmentWeight segment ∧
    (segment ∈ ([[], ['.'], ['.', '.']] : List Str) →
      Move.brings segmentWeight (segmentMove segment) < segmentWeight segment) := by
  by_cases hnamed : segment ∈ ([[], ['.'], ['.', '.']] : List Str)
  · have hlost : Move.brings segmentWeight (segmentMove segment) = 0 := by
      simp only [List.mem_cons, List.not_mem_nil, or_false] at hnamed
      rcases hnamed with rfl | rfl | rfl <;> rfl
    rw [hlost]
    exact ⟨Nat.zero_le _, fun _ => Nat.succ_pos _⟩
  · rw [segmentMove_clean hnamed]
    exact ⟨le_rfl, fun h => absurd h hnamed⟩

/-- The input takes all the bytes there are, and nothing in it falls away. -/
structure Filled (baseDir path : Str) : Prop where
  below : baseDir ≠ []
  full : path.len + baseDir.len + 1 = maxPathBytes
  named : ∀ segment ∈ pathSegments path, segment ∉ ([[], ['.'], ['.', '.']] : List Str)

/-- A path that was not cut to the limit is shorter than it. -/
theorem len_lt_of_not_filled {baseDir path out : Str} (hbase : BaseDir baseDir)
    (h : normalize baseDir path = .ok out) (hfilled : ¬ Filled baseDir path) :
    out.len < maxPathBytes := by
  obtain ⟨hadmitted, segments, hne, hwalk, rfl⟩ := (normalize_ok_iff hbase).mp h
  rw [destination_eq hbase] at hwalk
  obtain ⟨stack, hstack, rfl⟩ := Option.map_eq_some_iff.mp hwalk
  have hcost := Move.walk_cost segmentWeight hstack
  have hout : Move.load segmentWeight stack = (joinSlash stack.reverse).len + 1 := by
    rw [len_joinSlash hne, weight, List.map_reverse, List.sum_reverse]
    rfl
  have hload : Move.load segmentWeight (baseSegments baseDir).reverse =
      weight (baseSegments baseDir) := by
    rw [Move.load, List.map_reverse, List.sum_reverse]
    rfl
  have hpath : weight (pathSegments path) = path.len + 1 := weight_pathSegments path
  rw [List.map_map, hout, hload] at hcost
  have hle : ((pathSegments path).map (Move.brings segmentWeight ∘ segmentMove)).sum ≤
      weight (pathSegments path) :=
    List.sum_le_sum fun segment _ => (brings_segmentMove segment).1
  have hshort := hadmitted.short
  by_cases hroot : baseDir = []
  · have hnone : weight (baseSegments baseDir) = 0 := by
      rw [hroot]
      rfl
    have hzero : baseDir.len = 0 := by
      rw [hroot]
      rfl
    omega
  · have hbaseWeight := weight_baseSegments hroot
    by_cases hfull : path.len + baseDir.len + 1 = maxPathBytes
    · have hdropped : ∃ segment ∈ pathSegments path,
          segment ∈ ([[], ['.'], ['.', '.']] : List Str) := by
        by_contra hnone
        exact hfilled ⟨hroot, hfull, fun segment hsegment hbad => hnone ⟨segment, hsegment, hbad⟩⟩
      obtain ⟨segment, hsegment, hbad⟩ := hdropped
      have hlt : ((pathSegments path).map (Move.brings segmentWeight ∘ segmentMove)).sum <
          weight (pathSegments path) :=
        List.sum_lt_sum _ _ (fun segment _ => (brings_segmentMove segment).1)
          ⟨segment, hsegment, (brings_segmentMove segment).2 hbad⟩
      omega
    · omega

theorem len_of_filled {baseDir path out : Str} (hbase : BaseDir baseDir)
    (h : normalize baseDir path = .ok out) (hfilled : Filled baseDir path) :
    out.len = maxPathBytes := by
  obtain ⟨-, segments, hne, hwalk, rfl⟩ := (normalize_ok_iff hbase).mp h
  rw [destination_eq hbase, map_segmentMove_clean hfilled.named, Move.walk_downs] at hwalk
  obtain rfl : baseSegments baseDir ++ pathSegments path = segments := by simpa using hwalk
  have hlen := len_joinSlash hne
  rw [weight_append, weight_baseSegments hfilled.below, weight_pathSegments] at hlen
  have hfull := hfilled.full
  omega

/-- A path that was normalized is its own normal form, and a name an entry can
have, unless base and path fill the limit to the last byte. -/
theorem normalize_idempotent_iff {baseDir path out : Str} (hbase : BaseDir baseDir)
    (h : normalize baseDir path = .ok out) :
    (normalize [] out = .ok out ∧ checkEntryName out = .ok (some out)) ↔
      ¬ Filled baseDir path := by
  have hcanonical := normalize_canonical hbase h
  rw [normalize_self_iff hcanonical, checkEntryName_self_iff hcanonical, and_self]
  constructor
  · intro hlen hfilled
    rw [len_of_filled hbase h hfilled] at hlen
    exact lt_irrefl _ hlen
  · exact len_lt_of_not_filled hbase h

theorem normalize_idempotent_chapter :
    normalize [] "OEBPS/a.xhtml" = .ok "OEBPS/a.xhtml".toList ∧
      checkEntryName "OEBPS/a.xhtml" = .ok (some "OEBPS/a.xhtml".toList) :=
  (normalize_idempotent_iff (.inr canonical_oebps)
    (show normalize "OEBPS" "x/../a.xhtml" = .ok "OEBPS/a.xhtml".toList by decide)).mpr
    fun hfilled => absurd hfilled.full (by decide)

/-- One byte below the limit with its base, and at the limit once joined: a path
no entry can have. -/
theorem filled_path_refused :
    normalize "a" (List.replicate 1022 'x') = .ok ("a/".toList ++ List.replicate 1022 'x') ∧
      normalize [] ("a/".toList ++ List.replicate 1022 'x') = .error .tooLong ∧
      checkEntryName ("a/".toList ++ List.replicate 1022 'x') = .error .tooLong := by
  decide +kernel

end GrpcEpub.Href
