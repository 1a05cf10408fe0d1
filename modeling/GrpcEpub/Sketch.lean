/-
# `GrpcEpub.Sketch` — what a Document keeps of the stream

The fold is compared with a sketch of itself that has no links and no metadata:
the chapters' names, the pictures with their covers, the children of the body,
and the last table of contents.  Each event does to the fold what it does to the
sketch, and what a whole run leaves in the sketch is read off the events.

Two decisions of the fold are made a second time elsewhere: which media types
are images, and how a tree of entries is put in a line.
-/
import GrpcEpub.Extract
import GrpcEpub.Fragment

namespace GrpcEpub

/-! ## Which media types are images

The fold looks at how the trimmed type begins, and `classify` at the base type. -/

namespace Str

/-- Lower case is ASCII only where the letter was. -/
theorem utf8Size_of_toLower {c : Char} (h : c.toLower.utf8Size = 1) : c.utf8Size = 1 := by
  unfold Char.toLower at h
  split at h
  · rename_i hupper
    rw [Char.utf8Size_eq_one_iff, UInt32.le_iff_toNat_le]
    have hle := UInt32.le_iff_toNat_le.mp hupper.2
    exact hle.trans (by decide)
  · exact h

/-- No letter is whitespace, in either case. -/
theorem isWhitespace_toLower {c : Char} (h : isWhitespace c = false) :
    isWhitespace c.toLower = false := by
  unfold Char.toLower
  split
  · rename_i hupper
    have hlow : 65 ≤ c.val.toNat := UInt32.le_iff_toNat_le.mp hupper.1
    have hhigh : c.val.toNat ≤ 90 := UInt32.le_iff_toNat_le.mp hupper.2
    have hlower : (c.val + ('a'.val - 'A'.val)).toNat = c.val.toNat + 32 := by
      rw [UInt32.toNat_add, show ('a'.val - 'A'.val).toNat = 32 from rfl]
      exact Nat.mod_eq_of_lt (show c.val.toNat + 32 < 2 ^ 32 by omega)
    simp only [isWhitespace, Char.toNat, hlower]
    simp only [Bool.or_eq_false_iff, Bool.and_eq_false_iff, decide_eq_false_iff_not,
      beq_eq_false_iff_ne]
    omega
  · exact h

/-- A text in ASCII lower case has as many bytes as characters. -/
theorem len_of_toAsciiLowercase {s : Str} (h : ∀ c ∈ toAsciiLowercase s, c.utf8Size = 1) :
    len s = s.length := by
  induction s with
  | nil => rfl
  | cons c s ih =>
      have hfirst := utf8Size_of_toLower (h c.toLower (List.mem_map_of_mem List.mem_cons_self))
      rw [len_cons, hfirst, ih fun d hd => h d (List.mem_cons_of_mem _ hd), List.length_cons,
        Nat.add_comm]

/-- Trimming takes off the end of a text that starts with a letter of its own. -/
theorem trim_eq {c : Char} (hc : isWhitespace c = false) (s : Str) :
    trim (c :: s) = c :: (s.reverse.dropWhile isWhitespace).reverse := by
  unfold trim
  rw [List.dropWhile_cons_of_neg (by simp [hc]), List.reverse_cons, List.dropWhile_append]
  split
  · rename_i hempty
    rw [List.isEmpty_iff.mp hempty, List.dropWhile_cons_of_neg (by simp [hc])]
    rfl
  · rw [List.reverse_append]
    rfl

/-- What a trimmed text starts with is not whitespace. -/
theorem head_trim {s : Str} {c : Char} {rest : Str} (h : trim s = c :: rest) :
    isWhitespace c = false := by
  have hhead : ∀ d t, s.dropWhile isWhitespace = d :: t → isWhitespace d = false := by
    intro d t hd
    have hne : s.dropWhile isWhitespace ≠ [] := by
      rw [hd]
      exact List.cons_ne_nil _ _
    have hnot := List.head_dropWhile_not isWhitespace hne
    simpa only [hd, List.head_cons, Bool.not_eq_true] using hnot
  cases hdrop : s.dropWhile isWhitespace with
  | nil =>
      rw [trim, hdrop] at h
      cases h
  | cons d t =>
      have hd := hhead d t hdrop
      have htrim : trim s = trim (d :: t) := by
        rw [trim, trim, hdrop, List.dropWhile_cons_of_neg (by simp [hd])]
      rw [htrim, trim_eq hd] at h
      exact (List.cons.inj h).1 ▸ hd

/-- Trimming only shortens such a text. -/
theorem trim_prefix {s : Str} (h : ∀ c rest, s = c :: rest → isWhitespace c = false) :
    trim s <+: s := by
  cases s with
  | nil => exact List.prefix_rfl
  | cons c rest =>
      rw [trim_eq (h c rest rfl)]
      refine List.cons_prefix_cons.mpr ⟨rfl, ?_⟩
      have hsuffix := List.reverse_prefix.mpr (List.dropWhile_suffix isWhitespace (l := rest.reverse))
      rwa [List.reverse_reverse] at hsuffix

/-- A word at the start survives trimming. -/
theorem prefix_trim {c : Char} {word : Str} (hc : isWhitespace c = false)
    (hlast : word.reverse.dropWhile isWhitespace = word.reverse) (rest : Str) :
    c :: word <+: trim (c :: (word ++ rest)) := by
  rw [trim_eq hc, List.reverse_append, List.dropWhile_append, hlast]
  refine List.cons_prefix_cons.mpr ⟨rfl, ?_⟩
  split
  · rw [List.reverse_reverse]
  · rw [List.reverse_append, List.reverse_reverse]
    exact List.prefix_append _ _

end Str

/-- `image/`. -/
def imageType : Str := "image/"

theorem toAsciiLowercase_imageType : Str.toAsciiLowercase "image/" = imageType := rfl

/-- The fold looks at the first six bytes. -/
theorem Fold.isImage_iff (mediaType : Str) :
    Fold.isImage mediaType = true ↔ imageType <+: Str.toAsciiLowercase mediaType.trim := by
  unfold Fold.isImage Str.eqIgnoreAsciiCase
  rw [toAsciiLowercase_imageType]
  constructor
  · intro h
    split at h
    · rename_i start rest hsplit
      rw [(Datetime.splitAt_ok hsplit).1]
      refine ⟨Str.toAsciiLowercase rest, ?_⟩
      rw [← eq_of_beq h]
      exact List.map_append.symm
    · cases h
  · rintro ⟨rest, hrest⟩
    obtain ⟨start, tail, hsplit, hstart, -⟩ := List.map_eq_append_iff.mp hrest.symm
    have hlower : Str.toAsciiLowercase start = imageType := hstart
    have hlength : start.length = 6 := (List.length_map Char.toLower).symm.trans
      (congrArg List.length hstart)
    have hlen : Str.len start = 6 := by
      have hall : imageType.all (fun c => c.utf8Size == 1) = true := by decide
      rw [Str.len_of_toAsciiLowercase, hlength]
      rw [hlower]
      exact fun c hc => eq_of_beq (List.all_eq_true.mp hall c hc)
    rw [hsplit, ← hlen, Datetime.splitAt_append]
    exact beq_iff_eq.mpr hlower

namespace Extract

/-- The classifier looks at what stands before the parameters. -/
theorem baseType_image (mediaType : Str) :
    imageType <+: baseType mediaType ↔ imageType <+: Str.toAsciiLowercase mediaType.trim := by
  have hbefore : (Str.toAsciiLowercase mediaType.trim).before ';' <+:
      Str.toAsciiLowercase mediaType.trim := List.takeWhile_prefix _
  constructor
  · intro h
    refine h.trans (List.IsPrefix.trans (Str.trim_prefix ?_) hbefore)
    intro c rest hstart
    rw [hstart] at hbefore
    obtain ⟨tail, htail⟩ := hbefore
    cases htrim : mediaType.trim with
    | nil => rw [htrim] at htail; cases htail
    | cons d text =>
        rw [htrim] at htail
        obtain rfl : c = d.toLower := (List.cons.inj htail).1
        exact Str.isWhitespace_toLower (Str.head_trim htrim)
  · rintro ⟨rest, hrest⟩
    have hcut : (Str.toAsciiLowercase mediaType.trim).before ';' =
        'i' :: ("mage/".toList ++ Str.before ';' rest) := by
      rw [← hrest]
      rfl
    rw [baseType, hcut]
    exact Str.prefix_trim (by decide) (by decide) _

/-- A choice of the one kind passes over the other. -/
theorem of_other {c : Prop} [Decidable c] {kind kind' rest : ResourceKind} (hne : kind ≠ kind')
    (h : (if c then kind else rest) = kind') : rest = kind' := by
  by_cases hc : c
  · rw [if_pos hc] at h
    exact absurd h hne
  · rwa [if_neg hc] at h

/-- The classification of `extract.rs`: an image is what starts as one. -/
theorem classify_image (mediaType : Str) :
    classify mediaType = .image ↔ imageType <+: baseType mediaType := by
  have hlist : ∀ types : List Str, types.all (·.head? ≠ some 'i') = true →
      imageType <+: baseType mediaType → baseType mediaType ∉ types := by
    rintro types htypes ⟨rest, hrest⟩ hmem
    have hhead := List.all_eq_true.mp htypes _ hmem
    rw [← hrest] at hhead
    exact absurd rfl (of_decide_eq_true hhead)
  unfold classify Str.startsWith
  dsimp only
  constructor
  · intro h
    have hlate := of_other (by decide) (of_other (by decide) (of_other (by decide)
      (of_other (by decide) h)))
    by_contra hno
    have himage : ¬ "image/".toList.isPrefixOf (baseType mediaType) = true :=
      mt List.isPrefixOf_iff_prefix.mp hno
    rw [if_neg himage] at hlate
    have hother := of_other (by decide) (of_other (by decide) (of_other (by decide)
      (of_other (by decide) hlate)))
    cases hother
  · intro h
    have himage : "image/".toList.isPrefixOf (baseType mediaType) = true :=
      List.isPrefixOf_iff_prefix.mpr h
    have hempty : baseType mediaType ≠ [] := fun heq => hlist [[]] rfl h (heq ▸ List.mem_cons_self)
    have hcss : baseType mediaType ≠ "text/css".toList := fun heq =>
      hlist ["text/css"] (by decide) h (heq ▸ List.mem_cons_self)
    rw [if_neg hempty, if_neg hcss, if_neg (hlist _ (by decide) h), if_neg (hlist _ (by decide) h),
      if_pos himage]

end Extract

/-- The two rules for images are one. -/
theorem isImage_iff_classify (mediaType : Str) :
    Fold.isImage mediaType = true ↔ Extract.classify mediaType = .image := by
  rw [Fold.isImage_iff, Extract.classify_image, Extract.baseType_image]

/-! ## The sketch

What an event does to it, and that it is what the fold does. -/

/-- What is left of a picture: where its bytes are, and its `epub.cover`. -/
structure Shown where
  uri : Str
  cover : Option Value

/-- A fold without links and metadata. -/
structure Sketch where
  groups : List (Option Str)
  pictures : List (Option Shown)
  children : List Str
  coverHref : Str
  toc : List NavPoint
  /-- What earlier projections have left. -/
  outline : List OutlineEntry

namespace Sketch

/-- The picture of the archive entry `href`. -/
def shown (coverHref href : Str) : Shown where
  uri := "epub:".toList ++ href
  cover := if coverHref ≠ [] ∧ href = coverHref then some (.bool true) else none

/-- One more picture, below a parent that the sketch does not keep. -/
def addPicture (href : Str) (self : Sketch) : Sketch :=
  { self with pictures := self.pictures ++ [some (shown self.coverHref href)] }

/-- What one event does. -/
def step {δ : Type} (self : Sketch) (event : Event δ) : Sketch :=
  match event with
  | .info info => { self with coverHref := info.coverHref }
  | .chapter chapter =>
      let self := { self with
        groups := self.groups ++ [some chapter.href]
        children := self.children ++ [Document.groupRef self.groups.length] }
      if Fold.isImage chapter.mediaType then self.addPicture chapter.href else self
  | .resource resource =>
      if resource.kind = .image then
        { self with
          children := self.children ++ [Document.pictureRef self.pictures.length] }.addPicture
            resource.href
      else self
  | .navigation navigation => { self with toc := navigation.toc }
  | .mediaOverlay _ | .status _ | .document _ => self

end Sketch

/-- What is left of a picture, when it has an image and says something of itself. -/
def PictureItem.shown (picture : PictureItem) : Option Shown := do
  let image ← picture.image
  let metadata ← picture.metadata
  return { uri := image.uri, cover := metadata.customFields.get "epub.cover" }

namespace Document

/-- The children of the body. -/
def bodyChildren (document : Document) : List Str :=
  (document.body.map fun body => body.children.map RefItem.ref).getD []

variable {document : Document}

theorem pushGroup_groups (group : GroupItem) :
    (document.pushGroup group).groups = document.groups ++ [group] := rfl

theorem pushGroup_pictures (group : GroupItem) :
    (document.pushGroup group).pictures = document.pictures := rfl

theorem bodyChildren_pushGroup (h : document.Named) (group : GroupItem) :
    (document.pushGroup group).bodyChildren = document.bodyChildren ++ [group.selfRef] := by
  obtain ⟨body, hbody, -⟩ := h.body
  rw [pushGroup, linkChild, modifyGroup_bodyRef]
  simp [bodyChildren, hbody, GroupItem.push]

theorem bodyChildren_pushPicture (h : document.Named) (picture : PictureItem) :
    (document.pushPicture bodyRef picture).bodyChildren =
      document.bodyChildren ++ [picture.selfRef] := by
  obtain ⟨body, hbody, -⟩ := h.body
  rw [pushPicture, linkChild, modifyGroup_bodyRef]
  simp [bodyChildren, hbody, GroupItem.push]

/-- A picture in a chapter's group changes nothing but that group. -/
theorem pushPicture_groupRef {i : Nat} (hi : i < document.groups.length) (picture : PictureItem) :
    document.pushPicture (groupRef i) picture =
      { document with
        pictures := document.pictures ++ [picture]
        groups := document.groups.modify i (.push picture.selfRef) } := by
  have hlength : i < { document with pictures := document.pictures ++ [picture] }.groups.length := hi
  rw [pushPicture, linkChild, Named.modify_group hlength]

/-- Changing what a group says leaves alone what the change keeps. -/
theorem map_modify {β : Type} (f : GroupItem → β) (groups : List GroupItem) (i : Nat)
    (change : GroupItem → GroupItem) (hchange : ∀ group, f (change group) = f group) :
    (groups.modify i change).map f = groups.map f := by
  refine List.ext_getElem (by simp) ?_
  intro j hj hj'
  simp only [List.getElem_map, List.getElem_modify]
  split
  · exact hchange _
  · rfl

/-- The two documents have the same links, names and outline. -/
structure Kept (document document' : Document) : Prop where
  links : SameLinks document document'
  names : document'.groups.map GroupItem.name = document.groups.map GroupItem.name
  outline : document'.outline = document.outline

namespace Kept

variable {document' document'' : Document}

theorem trans (h : Kept document document') (h' : Kept document' document'') :
    Kept document document'' where
  links := h.links.trans h'.links
  names := h'.names.trans h.names
  outline := h'.outline.trans h.outline

theorem bodyChildren (h : Kept document document') :
    document'.bodyChildren = document.bodyChildren := by
  have hchildren := congrArg (Option.map Arena.Node.children) h.links.body
  rw [Option.map_map, Option.map_map] at hchildren
  exact congrArg (·.getD []) hchildren

end Kept

/-- Changing what a group says about itself, but for its name. -/
theorem kept_modifyGroup (h : document.Named) (ref : Str) (change : GroupItem → GroupItem)
    (hnode : ∀ group, (change group).node = group.node)
    (hname : ∀ group, (change group).name = group.name) :
    Kept document (document.modifyGroup ref change) := by
  refine ⟨h.same_modifyGroup ref change hnode, ?_, ?_⟩
  · unfold modifyGroup
    split
    · rfl
    · split
      · exact map_modify GroupItem.name _ _ change hname
      · rfl
  · unfold modifyGroup
    split
    · rfl
    · split <;> rfl

end Document

namespace DocumentFold

open Document

/-- The sketch of a fold. -/
def sketch (self : DocumentFold) : Sketch where
  groups := self.document.groups.map GroupItem.name
  pictures := self.document.pictures.map PictureItem.shown
  children := self.document.bodyChildren
  coverHref := self.coverHref
  toc := self.outline
  outline := self.document.outline

variable {self : DocumentFold}

/-- Fields that say nothing of a cover say it when they are told to. -/
theorem get_cover {fields : Fields} (h : fields.get "epub.cover" = none) {c : Prop} [Decidable c] :
    HashMap.get (if c then AList.insert "epub.cover".toList (.bool true) fields else fields)
      "epub.cover" = if c then some (.bool true) else none := by
  by_cases hc : c
  · rw [if_pos hc, if_pos hc, HashMap.get_insert, if_pos rfl]
  · rw [if_neg hc, if_neg hc, h]

theorem shown_pictureItem (ref href manifestId mediaType : Str) :
    (self.pictureItem ref href manifestId mediaType).shown =
      some (Sketch.shown self.coverHref href) := by
  have hhref : ("epub.cover" : Str) ≠ "epub.href".toList := by decide
  have hid : ("epub.cover" : Str) ≠ "epub.manifest_id".toList := by decide
  have hfields : HashMap.get (AList.insert "epub.manifest_id".toList (.string manifestId)
      (AList.insert "epub.href".toList (.string href) (∅ : Fields))) "epub.cover" = none := by
    rw [HashMap.get_insert, if_neg hid, HashMap.get_insert, if_neg hhref, HashMap.get_empty]
  exact congrArg (fun cover => some (Shown.mk ("epub:".toList ++ href) cover)) (get_cover hfields)

theorem sketch_describe (h : self.document.Sound) (info : EpubInfo) (sourceMeta : DocumentMeta) :
    (self.describe info sourceMeta).sketch = { self.sketch with coverHref := info.coverHref } := by
  obtain ⟨body, hbody, -⟩ := h.named.body
  simp only [sketch, describe, modifyGroup_bodyRef, bodyChildren, hbody]
  rfl

/-- A picture below the body is listed there. -/
theorem sketch_addPicture_body (h : self.document.Sound) (href manifestId mediaType : Str) :
    (self.addPicture bodyRef href manifestId mediaType).sketch =
      { self.sketch with
        children := self.sketch.children ++ [pictureRef self.sketch.pictures.length] }.addPicture
          href := by
  have hchildren := bodyChildren_pushPicture h.named
    (self.pictureItem bodyRef href manifestId mediaType)
  have hpictures : (self.document.pictures ++ [self.pictureItem bodyRef href manifestId
      mediaType]).map PictureItem.shown = self.document.pictures.map PictureItem.shown ++
        [some (Sketch.shown self.coverHref href)] := by
    rw [List.map_append, List.map_singleton, shown_pictureItem]
  simp only [sketch, addPicture, Sketch.addPicture, hchildren, List.length_map]
  rw [← hpictures]
  rfl

/-- A picture in a chapter's group is not. -/
theorem sketch_addPicture_group {i : Nat} (hi : i < self.document.groups.length)
    (href manifestId mediaType : Str) :
    (self.addPicture (groupRef i) href manifestId mediaType).sketch = self.sketch.addPicture href := by
  have hpush := pushPicture_groupRef hi (self.pictureItem (groupRef i) href manifestId mediaType)
  simp only [sketch, addPicture, Sketch.addPicture, hpush, bodyChildren, List.map_append,
    List.map_singleton, shown_pictureItem]
  rw [map_modify GroupItem.name _ i (.push _) fun group => rfl]

/-- A chapter is one more group under the body. -/
theorem sketch_chapter {δ : Type} (h : self.document.Sound) (chapter : Chapter) :
    (self.chapter chapter).sketch = self.sketch.step (.chapter chapter : Event δ) := by
  have hchildren := bodyChildren_pushGroup h.named (self.chapterGroup chapter)
  have hpushed : { self with document := self.document.pushGroup (self.chapterGroup chapter) }.sketch =
      { self.sketch with
        groups := self.sketch.groups ++ [some chapter.href]
        children := self.sketch.children ++ [groupRef self.sketch.groups.length] } := by
    simp only [sketch, hchildren, pushGroup_groups, pushGroup_pictures, List.map_append,
      List.map_singleton, List.length_map]
    rfl
  unfold DocumentFold.chapter Sketch.step
  dsimp only
  split
  · have hlast : self.document.groups.length <
        { self with
          document := self.document.pushGroup (self.chapterGroup chapter) }.document.groups.length := by
      rw [pushGroup_groups, List.length_append]
      exact Nat.lt_succ_self _
    have hpicture := sketch_addPicture_group hlast chapter.href chapter.idref chapter.mediaType
    rw [hpushed] at hpicture
    exact hpicture
  · exact hpushed

/-- Each event does to the fold what it does to the sketch. -/
theorem sketch_consume {δ : Type} {event : Event δ} {self' : DocumentFold}
    (h : self.document.Sound) (hconsume : self.consume event = .ok self') :
    self'.sketch = self.sketch.step event := by
  cases event with
  | info info =>
      obtain ⟨sourceMeta, -, hinfo⟩ := Except.bind_ok hconsume
      obtain rfl := Except.ok.inj hinfo
      exact sketch_describe h info sourceMeta
  | chapter chapter =>
      obtain rfl := Except.ok.inj hconsume
      exact sketch_chapter h chapter
  | resource resource =>
      obtain rfl := Except.ok.inj hconsume
      unfold Sketch.step
      dsimp only
      split
      · exact sketch_addPicture_body h ..
      · rfl
  | navigation navigation =>
      obtain rfl := Except.ok.inj hconsume
      rfl
  | mediaOverlay overlay =>
      obtain rfl := Except.ok.inj hconsume
      rfl
  | document document =>
      obtain rfl := Except.ok.inj hconsume
      rfl
  | status status =>
      obtain rfl := Except.ok.inj hconsume
      rfl

/-- Fold a list of events in. -/
def consumeAll {δ : Type} (events : List (Event δ)) (self : DocumentFold) :
    Except Panic DocumentFold :=
  events.foldlM (fun self event => self.consume event) self

/-- By induction on the events, with the fold sound in between. -/
theorem sketch_consumeAll {δ : Type} (events : List (Event δ)) {self' : DocumentFold}
    (h : self.document.Sound) (hconsume : self.consumeAll events = .ok self') :
    self'.document.Sound ∧ self'.sketch = events.foldl Sketch.step self.sketch := by
  unfold consumeAll at hconsume
  induction events generalizing self with
  | nil =>
      obtain rfl := Except.ok.inj hconsume
      exact ⟨h, rfl⟩
  | cons event rest ih =>
      rw [List.foldlM_cons] at hconsume
      obtain ⟨next, hnext, hrest⟩ := Except.bind_ok hconsume
      obtain ⟨hsound, hsketch⟩ := ih (sound_consume h hnext) hrest
      exact ⟨hsound, by rw [hsketch, sketch_consume h hnext, List.foldl_cons]⟩

theorem kept_attachCues {document : Document} (h : document.Named) (chapters : HashMap Str Str)
    (overlay : MediaOverlay) : Kept document (attachCues chapters document overlay) := by
  unfold attachCues
  split
  · exact ⟨.refl document, rfl, rfl⟩
  · exact kept_modifyGroup h _ _ (fun group => rfl) fun group => rfl

theorem kept_narrate (narrationMs : Real64) (document : Document) :
    Kept document (narrate narrationMs document) := by
  unfold narrate
  split
  · exact ⟨⟨rfl, rfl, rfl, rfl, rfl, rfl⟩, rfl, rfl⟩
  · exact ⟨.refl document, rfl, rfl⟩

theorem kept_overlays (chapters : HashMap Str Str) (overlays : List MediaOverlay)
    {document : Document} (h : document.Named) :
    Kept document (overlays.foldl (attachCues chapters) document) := by
  induction overlays generalizing document with
  | nil => exact ⟨.refl document, rfl, rfl⟩
  | cons overlay rest ih =>
      have hfirst := kept_attachCues h chapters overlay
      exact hfirst.trans (ih (h.of_same hfirst.links))

/-- Taking the document projects what was held, and changes nothing of the sketch. -/
theorem sketch_take (h : self.document.Sound) :
    self.take.1.groups.map GroupItem.name = self.sketch.groups ∧
      self.take.1.pictures.map PictureItem.shown = self.sketch.pictures ∧
      self.take.1.bodyChildren = self.sketch.children ∧
      self.take.1.outline =
        outlineWalkAll self.chapterRefs self.sketch.toc self.sketch.outline := by
  have hnamed : self.projectOutline.document.Named :=
    h.named.of_same ⟨rfl, rfl, rfl, rfl, rfl, rfl⟩
  have hkept : Kept self.projectOutline.document self.take.1 :=
    (kept_overlays self.chapterRefs self.overlays hnamed).trans (kept_narrate _ _)
  exact ⟨hkept.names, congrArg (List.map PictureItem.shown) hkept.links.pictures,
    hkept.bodyChildren, hkept.outline⟩

end DocumentFold

/-! ## Trees in a line

The two walks over a table of contents put it in the same order. -/

/-- One entry of an outline. -/
def outlineEntry (chapters : HashMap Str Str) (point : NavPoint) : OutlineEntry where
  title := point.label
  level := if point.depth < 2 ^ 31 then point.depth else 2 ^ 31 - 1
  pageNo := none
  target := Fold.chapterTarget point.href chapters

mutual
theorem outlineWalk_eq (chapters : HashMap Str Str) : ∀ (point : NavPoint) (points : List NavPoint),
    DocumentFold.outlineWalk chapters point (points.map (outlineEntry chapters)) =
      (point.walk points).map (outlineEntry chapters)
  | .mk label href depth children, points => by
      rw [DocumentFold.outlineWalk, NavPoint.walk, ← outlineWalkAll_eq chapters children,
        List.map_append]
      rfl
theorem outlineWalkAll_eq (chapters : HashMap Str Str) : ∀ (rest points : List NavPoint),
    DocumentFold.outlineWalkAll chapters rest (points.map (outlineEntry chapters)) =
      (NavPoint.walkAll rest points).map (outlineEntry chapters)
  | [], points => by
      rw [DocumentFold.outlineWalkAll, NavPoint.walkAll]
  | point :: rest, points => by
      rw [DocumentFold.outlineWalkAll, NavPoint.walkAll, outlineWalk_eq chapters point,
        outlineWalkAll_eq chapters rest]
end

/-! ## What a run leaves

The sketch of a sequence of events that begins with info, read off the events. -/

section Events

variable {δ : Type}

def Event.chapter? : Event δ → Option Chapter
  | .chapter c => some c
  | _ => none

def Event.navigation? : Event δ → Option Navigation
  | .navigation tree => some tree
  | _ => none

/-- The images among the events, each with the cover that is known when it goes by. -/
def images : Str → List (Event δ) → List (Str × Str)
  | _, [] => []
  | _, .info info :: rest => images info.coverHref rest
  | cover, .chapter chapter :: rest =>
      (if Extract.classify chapter.mediaType = .image then [(cover, chapter.href)] else []) ++
        images cover rest
  | cover, .resource resource :: rest =>
      (if resource.kind = .image then [(cover, resource.href)] else []) ++ images cover rest
  | cover, _ :: rest => images cover rest

/-- The items that go on the body, in arrival order, after so many groups and
pictures. -/
def arrivals : Nat → Nat → List (Event δ) → List Str
  | _, _, [] => []
  | groups, pictures, .chapter chapter :: rest =>
      Document.groupRef groups :: arrivals (groups + 1)
        (if Extract.classify chapter.mediaType = .image then pictures + 1 else pictures) rest
  | groups, pictures, .resource resource :: rest =>
      if resource.kind = .image then
        Document.pictureRef pictures :: arrivals groups (pictures + 1) rest
      else arrivals groups pictures rest
  | groups, pictures, _ :: rest => arrivals groups pictures rest

/-- The table of contents of the last navigation event. -/
def lastToc (events : List (Event δ)) : Option (List NavPoint) :=
  ((events.filterMap Event.navigation?).getLast?).map Navigation.toc

theorem lastToc_navigation (navigation : Navigation) (rest : List (Event δ)) :
    lastToc (.navigation navigation :: rest) = some ((lastToc rest).getD navigation.toc) := by
  have hfilter : (Event.navigation navigation :: rest).filterMap Event.navigation? =
      navigation :: rest.filterMap Event.navigation? := rfl
  rw [lastToc, lastToc, hfilter, List.getLast?_cons]
  cases (rest.filterMap Event.navigation?).getLast? <;> rfl

/-- What a run leaves in the sketch, read off the events. -/
structure Sketch.After (before after : Sketch) (events : List (Event δ)) : Prop where
  groups : after.groups = before.groups ++ (events.filterMap Event.chapter?).map (some ·.href)
  pictures : after.pictures = before.pictures ++
    (images before.coverHref events).map fun image => some (Sketch.shown image.1 image.2)
  children : after.children = before.children ++
    arrivals before.groups.length before.pictures.length events
  toc : after.toc = (lastToc events).getD before.toc
  outline : after.outline = before.outline

/-- What a stream of events leaves in a sketch. -/
theorem Sketch.foldl_step (events : List (Event δ)) (self : Sketch) :
    self.After (events.foldl Sketch.step self) events := by
  induction events generalizing self with
  | nil => exact ⟨by simp, by simp [images], by simp [arrivals], rfl, rfl⟩
  | cons event rest ih =>
      obtain ⟨hgroups, hpictures, hchildren, htoc, houtline⟩ := ih (self.step event)
      rw [List.foldl_cons]
      cases event with
      | info info => exact ⟨hgroups, hpictures, hchildren, htoc, houtline⟩
      | navigation navigation =>
          exact ⟨hgroups, hpictures, hchildren, by rw [lastToc_navigation]; exact htoc, houtline⟩
      | mediaOverlay overlay => exact ⟨hgroups, hpictures, hchildren, htoc, houtline⟩
      | document document => exact ⟨hgroups, hpictures, hchildren, htoc, houtline⟩
      | status status => exact ⟨hgroups, hpictures, hchildren, htoc, houtline⟩
      | chapter chapter =>
          have hfilter : (Event.chapter chapter :: rest).filterMap Event.chapter? =
              chapter :: rest.filterMap Event.chapter? := rfl
          by_cases himage : Extract.classify chapter.mediaType = .image
          · simp only [Sketch.step, if_pos ((isImage_iff_classify _).mpr himage), addPicture] at *
            refine ⟨?_, ?_, ?_, htoc, houtline⟩
            · rw [hgroups, hfilter, List.map_cons, ← List.append_cons]
            · rw [hpictures, images, if_pos himage, List.singleton_append, List.map_cons,
                ← List.append_cons]
            · rw [hchildren, arrivals, if_pos himage, ← List.append_cons, List.length_append,
                List.length_append]
              rfl
          · simp only [Sketch.step, if_neg (mt (isImage_iff_classify _).mp himage)] at *
            refine ⟨?_, ?_, ?_, htoc, houtline⟩
            · rw [hgroups, hfilter, List.map_cons, ← List.append_cons]
            · rw [hpictures, images, if_neg himage, List.nil_append]
            · rw [hchildren, arrivals, if_neg himage, ← List.append_cons, List.length_append]
              rfl
      | resource resource =>
          by_cases himage : resource.kind = .image
          · simp only [Sketch.step, if_pos himage, addPicture] at *
            refine ⟨hgroups, ?_, ?_, htoc, houtline⟩
            · rw [hpictures, images, if_pos himage, List.singleton_append, List.map_cons,
                ← List.append_cons]
            · rw [hchildren, arrivals, if_pos himage, ← List.append_cons, List.length_append]
              rfl
          · simp only [Sketch.step, if_neg himage] at *
            refine ⟨hgroups, ?_, ?_, htoc, houtline⟩
            · rw [hpictures, images, if_neg himage, List.nil_append]
            · rw [hchildren, arrivals, if_neg himage]

/-- A Document says of the stream what the stream says. -/
structure Faithful (events : List (Event δ)) (document : Document) : Prop where
  groups : document.groups.map GroupItem.name = (events.filterMap Event.chapter?).map (some ·.href)
  pictures : document.pictures.map PictureItem.shown =
    (images [] events).map fun (cover, href) => some {
      uri := "epub:".toList ++ href
      cover := if cover ≠ [] ∧ href = cover then some (.bool true) else none }
  children : document.body.map (fun body => body.children.map RefItem.ref) =
    some (arrivals 0 0 events)
  noOutline : (events.filterMap Event.navigation?).getLast? = none → document.outline = []
  outline : ∀ navigation, (events.filterMap Event.navigation?).getLast? = some navigation →
    (∀ point ∈ navigation.flatten, point.depth < 2 ^ 31) →
    document.outline.map (fun entry => (entry.title, entry.level)) =
      navigation.flatten.map fun point => (point.label, (point.depth : Int))

end Events

/-- The Document taken at the end of a stream is a faithful projection of it,
and the images it shows are those that the classifier calls images. -/
theorem document_faithful {δ : Type} (version : Str) (hash : UInt64) (events : List (Event δ))
    {fold : DocumentFold}
    (h : ((DocumentFold.new version).setSourceHash hash).consumeAll events = .ok fold) :
    Faithful events fold.take.1 ∧
      ∀ mediaType, Fold.isImage mediaType = true ↔ Extract.classify mediaType = .image := by
  refine ⟨?_, isImage_iff_classify⟩
  obtain ⟨hsound, hsketch⟩ := DocumentFold.sketch_consumeAll events .skeleton h
  obtain ⟨hgroups, hpictures, hchildren, houtline⟩ := DocumentFold.sketch_take hsound
  obtain ⟨hgroups', hpictures', hchildren', htoc', houtline'⟩ := Sketch.foldl_step events
    ((DocumentFold.new version).setSourceHash hash).sketch
  rw [← hsketch] at hgroups' hpictures' hchildren' htoc' houtline'
  have hentries : fold.take.1.outline =
      (NavPoint.walkAll ((lastToc events).getD []) []).map (outlineEntry fold.chapterRefs) := by
    rw [houtline, htoc', houtline']
    exact outlineWalkAll_eq fold.chapterRefs _ []
  refine ⟨hgroups.trans hgroups', hpictures.trans hpictures', ?_, fun hnone => ?_,
    fun navigation hlast hdepth => ?_⟩
  · obtain ⟨body, hbody, -⟩ := (DocumentFold.sound_take hsound).named.body
    have hbodyChildren := hchildren.trans hchildren'
    rw [Document.bodyChildren, hbody] at hbodyChildren
    rw [hbody]
    exact congrArg some hbodyChildren
  · rw [hentries, lastToc, hnone]
    rfl
  · rw [hentries, lastToc, hlast, List.map_map]
    refine List.map_congr_left ?_
    intro point hpoint
    exact Prod.ext rfl (if_pos (hdepth point hpoint))

/-- A comic of one page, which is its cover. -/
def comicInfo : EpubInfo where
  title := "Comic"
  creators := []
  contributors := []
  language := "en"
  identifiers := []
  uniqueIdentifier := []
  publisher := []
  description := []
  date := []
  subjects := []
  spineItemCount := 1
  opfHref := "p.opf"
  epubVersion := "3.0"
  coverHref := "p1.png"
  metadata := []
  modified := []
  navHref := []
  ncxHref := []

def comicContents : Navigation where
  sourceHref := "nav.xhtml"
  toc := [.mk "One" "p1.png" 0 []]
  fromNcx := false

def comic : List (Event Unit) := [.info comicInfo, .navigation comicContents, .chapter comicPage]

theorem document_faithful_comic : ∃ fold,
    ((DocumentFold.new "1").setSourceHash 7).consumeAll comic = .ok fold ∧
      Faithful comic fold.take.1 ∧
      fold.take.1.outline.map (fun entry => (entry.title, entry.level)) = [("One".toList, 0)] := by
  obtain ⟨fold, hfold⟩ : ∃ fold,
      ((DocumentFold.new "1").setSourceHash 7).consumeAll comic = .ok fold := ⟨_, rfl⟩
  have hfaithful := (document_faithful "1" 7 comic hfold).1
  refine ⟨fold, hfold, hfaithful, hfaithful.outline comicContents rfl fun point hpoint => ?_⟩
  obtain rfl := List.mem_singleton.mp hpoint
  exact Nat.two_pow_pos 31

end GrpcEpub
