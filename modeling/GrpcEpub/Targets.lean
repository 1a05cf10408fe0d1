/-
# `GrpcEpub.Targets` — a path and its fragment in one string

The navigation document and the overlays keep a reference as one string, the
resolved path and the fragment with a `#` between them, and the outline cuts it
at the first `#` again.  A resolved path may hold a `#` of its own: `%23` is one,
and so is one in the name of a directory.  `Marked` is that case, and the cut is
right in every other.
-/
import GrpcEpub.Fold
import GrpcEpub.Normal
import GrpcEpub.Outline
import GrpcEpub.Smil

namespace GrpcEpub

open Href

/-- A reference with a path part, and the entry that resolves to. -/
structure Refers (baseDir raw path fragment target : Str) : Prop where
  named : path ≠ []
  unmarked : '#' ∉ path
  parts : (raw = path ∧ fragment = []) ∨ raw = path ++ '#' :: fragment
  resolves : resolve baseDir path = .ok (.entry target)

/-- The string cut at its first `#`. -/
structure SplitsInto (href target fragment : Str) : Prop where
  cut : (href.splitOnce '#').getD (href, []) = (target, fragment)
  marked : '#' ∈ href ↔ fragment ≠ []

/-- The walk over the base and the decoded path keeps a name with a `#` in it. -/
def Marked (baseDir path : Str) : Prop :=
  ∃ segments, destination baseDir (percentDecode path) = some segments ∧
    ∃ segment ∈ segments, '#' ∈ segment

/-- No other target of a reference without such a name has this string. -/
def Alone (href target fragment : Str) : Prop :=
  ∀ baseDir raw path fragment' target', BaseDir baseDir →
    Refers baseDir raw path fragment' target' → ¬ Marked baseDir path →
    Nav.resolveWithFragment baseDir raw = some href → target' = target ∧ fragment' = fragment

/-! ## The string that is built

A reference is resolved and its fragment put behind it, by the two functions alike. -/

section Refers

variable {baseDir raw path fragment target : Str}

theorem Refers.split (h : Refers baseDir raw path fragment target) :
    (raw.splitOnce '#').getD (raw, []) = (path, fragment) := by
  rcases h.parts with ⟨rfl, rfl⟩ | rfl
  · rw [Str.splitOnce_none h.unmarked]
    rfl
  · rw [Str.splitOnce_append h.unmarked]
    rfl

theorem Refers.nav (h : Refers baseDir raw path fragment target) :
    Nav.resolveWithFragment baseDir raw = some (Nav.withFragment target fragment) := by
  unfold Nav.resolveWithFragment
  rw [h.split]
  simp only [if_neg h.named, h.resolves]
  exact (apply_ite some _ _ _).symm

theorem Refers.smil (h : Refers baseDir raw path fragment target) :
    Smil.resolveSrc baseDir raw = Nav.withFragment target fragment := by
  unfold Smil.resolveSrc
  rw [h.split]
  simp only [if_neg h.named, h.resolves]
  rfl

theorem mem_joinSlash_of_mem {c : Char} {segment : Str} : ∀ {segments : List Str},
    segment ∈ segments → c ∈ segment → c ∈ joinSlash segments
  | [first], hsegment, hc => by
      obtain rfl := List.mem_singleton.mp hsegment
      simpa [joinSlash] using hc
  | first :: second :: rest, hsegment, hc => by
      rw [joinSlash, List.intercalate_cons_cons, List.append_assoc]
      rcases List.mem_cons.mp hsegment with rfl | hsegment
      · exact List.mem_append_left _ hc
      · exact List.mem_append_right _ (List.mem_append_right _ (mem_joinSlash_of_mem hsegment hc))

/-- A reference is resolved by its decoded path. -/
theorem Refers.normalize (h : Refers baseDir raw path fragment target) :
    normalize baseDir (percentDecode path) = .ok target := by
  have hresolves := h.resolves
  rw [resolve_eq, Str.before_of_not_mem h.unmarked] at hresolves
  split at hresolves
  · cases hresolves
  · split at hresolves
    · cases hresolves
    · cases hnormal : Href.normalize baseDir (percentDecode path) with
      | error e => simp [hnormal, Except.map] at hresolves
      | ok out =>
          rw [hnormal] at hresolves
          cases hresolves
          rfl

theorem Refers.marked_iff (hbase : BaseDir baseDir)
    (h : Refers baseDir raw path fragment target) : '#' ∈ target ↔ Marked baseDir path := by
  obtain ⟨-, segments, -, hwalk, rfl⟩ := (normalize_ok_iff hbase).mp h.normalize
  constructor
  · intro hmem
    rcases mem_joinSlash hmem with hslash | hsegment
    · exact absurd hslash (by decide)
    · exact ⟨segments, hwalk, hsegment⟩
  · rintro ⟨segments', hwalk', segment, hsegment, hc⟩
    obtain rfl : segments = segments' := Option.some.inj (hwalk.symm.trans hwalk')
    exact mem_joinSlash_of_mem hsegment hc

end Refers

/-! ## Cutting it again

At the first `#`, which is the fragment's unless the path has one. -/

/-- The cut finds the fragment exactly when the path has no `#`. -/
theorem splitsInto_withFragment {target fragment : Str} :
    SplitsInto (Nav.withFragment target fragment) target fragment ↔ '#' ∉ target := by
  constructor
  · intro h hmem
    have hcut := h.cut
    obtain ⟨earlier, later, rfl, hearlier⟩ := List.eq_append_cons_of_mem hmem
    -- The cut is at the target's own mark, whatever follows.
    have hshort : ∀ tail, (Str.splitOnce '#' (earlier ++ '#' :: tail)).getD
        (earlier ++ '#' :: tail, []) ≠ (earlier ++ '#' :: later, fragment) := by
      intro tail heq
      rw [Str.splitOnce_append hearlier] at heq
      have hlen := congrArg (fun parts => parts.1.length) heq
      simp at hlen
    unfold Nav.withFragment at hcut
    split at hcut
    · exact hshort later hcut
    · rw [List.append_assoc, List.cons_append] at hcut
      exact hshort _ hcut
  · intro hmem
    unfold Nav.withFragment
    split
    · rename_i hfragment
      subst hfragment
      exact ⟨by rw [Str.splitOnce_none hmem]; rfl, by simp [hmem]⟩
    · rename_i hfragment
      exact ⟨by rw [Str.splitOnce_append hmem]; rfl, by simp [hfragment]⟩

theorem before_withFragment {target fragment : Str} (h : '#' ∉ target) :
    (Nav.withFragment target fragment).before '#' = target := by
  unfold Nav.withFragment
  split
  · exact Str.before_of_not_mem h
  · have hcut := Str.splitOnce_append (t := fragment) h
    rw [Str.splitOnce, if_pos (List.mem_append_right _ List.mem_cons_self)] at hcut
    exact congrArg Prod.fst (Option.some.inj hcut)

theorem withFragment_ne_nil {target : Str} (fragment : Str) (h : target ≠ []) :
    Nav.withFragment target fragment ≠ [] := by
  unfold Nav.withFragment
  split
  · exact h
  · exact List.append_ne_nil_of_left_ne_nil h _

/-- What is written apart is read apart: the string a reference becomes is cut
back into its target and its fragment exactly where the target holds no `#`, and
then the outline looks that target up and no other target has the string. -/
theorem targets_told_apart {baseDir raw path fragment target : Str} (hbase : BaseDir baseDir)
    (h : Refers baseDir raw path fragment target) :
    (∃ href, Nav.resolveWithFragment baseDir raw = some href ∧
      Smil.resolveSrc baseDir raw = href ∧ SplitsInto href target fragment ∧
      (∀ chapters, Fold.chapterTarget href chapters =
        (chapters.get target).map fun ref => { ref, range := none }) ∧
      Alone href target fragment) ↔ ¬ Marked baseDir path := by
  rw [← h.marked_iff hbase]
  constructor
  · rintro ⟨href, hnav, -, hsplits, -⟩
    rw [h.nav] at hnav
    cases hnav
    exact splitsInto_withFragment.mp hsplits
  · intro hmark
    have hsplits := (@splitsInto_withFragment target fragment).mpr hmark
    refine ⟨_, h.nav, h.smil, hsplits, fun chapters => ?_, ?_⟩
    · have hne := (resolve_canonical hbase h.resolves).nonempty
      rw [Fold.chapterTarget, if_neg (withFragment_ne_nil fragment hne), before_withFragment hmark]
    · intro baseDir' raw' path' fragment' target' hbase' h' hmark' hnav'
      rw [h'.nav] at hnav'
      have hsplits' := (@splitsInto_withFragment target' fragment').mpr
        (mt (h'.marked_iff hbase').mp hmark')
      rw [Option.some.inj hnav'] at hsplits'
      exact Prod.mk.inj (hsplits'.cut.symm.trans hsplits.cut)

theorem targets_told_apart_part : ∃ href,
    Nav.resolveWithFragment "OEBPS" "chap%201.xhtml#part2" = some href ∧
      SplitsInto href "OEBPS/chap 1.xhtml" "part2" := by
  have hrefers : Refers "OEBPS" "chap%201.xhtml#part2" "chap%201.xhtml" "part2"
      "OEBPS/chap 1.xhtml" := ⟨by decide, by decide, .inr (by decide), by decide⟩
  have hplain : '#' ∉ "OEBPS/chap 1.xhtml".toList := by decide
  obtain ⟨href, hnav, -, hsplits, -⟩ := (targets_told_apart (.inr canonical_oebps) hrefers).mpr
    (mt (hrefers.marked_iff (.inr canonical_oebps)).mpr hplain)
  exact ⟨href, hnav, hsplits⟩

/-- A `%23` in one reference, a fragment in the other, and one string for both. -/
theorem marked_target_collides :
    resolve [] "a%23b.xhtml" = .ok (.entry "a#b.xhtml".toList) ∧
      Nav.resolveWithFragment [] "a%23b.xhtml" = some "a#b.xhtml".toList ∧
      Str.splitOnce '#' "a#b.xhtml" = some ("a".toList, "b.xhtml".toList) ∧
      resolve [] "a" = .ok (.entry "a".toList) ∧
      Nav.resolveWithFragment [] "a#b.xhtml" = some "a#b.xhtml".toList := by decide

end GrpcEpub
