import Mathlib.Data.List.DropRight
import Strongbox.Engine.Range
import Strongbox.Path

/-!
# Normalized paths

A text that was trimmed neither begins nor ends with what is trimmed, so that trimming it again
changes nothing.  A path that was normalized is therefore normal.  A normalized path below the
root is its first segment with a slash in front, or it lies below that.  The main statements are
`Text.trimEnds_trimEnds`, `Path.isLocation_normalize` and `Path.IsLocation.first?_eq_some_iff`.
-/

set_option autoImplicit false

namespace Strongbox

namespace Text

variable {α : Type} (p : α → Bool) (xs : List α)

/-- A trimmed list has nothing to drop in front. -/
theorem dropWhile_trimEnds : (trimEnds p xs).dropWhile p = trimEnds p xs := by
  rw [List.dropWhile_eq_self_iff]
  intro hpos
  have hbegins : trimEnds p xs <+: xs.dropWhile p := List.rdropWhile_prefix p _
  rw [List.IsPrefix.getElem hbegins hpos]
  exact List.dropWhile_get_zero_not p xs _

/-- Trimmed once, a list is trimmed. -/
theorem trimEnds_trimEnds : trimEnds p (trimEnds p xs) = trimEnds p xs := by
  have hend : trimEnds p xs = (xs.dropWhile p).rdropWhile p := rfl
  calc trimEnds p (trimEnds p xs)
      = ((trimEnds p xs).dropWhile p).rdropWhile p := rfl
    _ = (trimEnds p xs).rdropWhile p := by rw [dropWhile_trimEnds]
    _ = trimEnds p xs := by rw [hend, List.rdropWhile_idempotent]

end Text

namespace Path

/-- A normal path is a slash and the trimmed text. -/
theorem toList_normalize (raw : String) :
    (normalize raw).toList = '/' :: trimSlashes raw.toList := by
  simp [normalize]

/-- A slash in front is trimmed away. -/
theorem trimSlashes_cons (cs : List Char) : trimSlashes ('/' :: cs) = trimSlashes cs := by
  simp [trimSlashes, Text.trimEnds, isSlash]

/-- The normal form trims to the same text. -/
theorem trimSlashes_normalize (raw : String) :
    trimSlashes (normalize raw).toList = trimSlashes raw.toList := by
  rw [toList_normalize, trimSlashes_cons]
  exact Text.trimEnds_trimEnds isSlash raw.toList

/-- A normal form is normal. -/
theorem normalize_normalize (raw : String) : normalize (normalize raw) = normalize raw := by
  rw [normalize, trimSlashes_normalize, normalize]

/-- A path is the root exactly if its normal form is. -/
theorem isRoot_normalize (raw : String) : isRoot (normalize raw) = isRoot raw := by
  rw [isRoot, trimSlashes_normalize, isRoot]

/-- A normalized path below the root, where a document can lie. -/
structure IsLocation (path : String) : Prop where
  normalize_eq : normalize path = path
  not_isRoot : isRoot path = false

/-- A normal path that is not the root is a place for a document. -/
theorem isLocation_normalize {raw : String} (h : isRoot raw = false) :
    IsLocation (normalize raw) :=
  ⟨normalize_normalize raw, (isRoot_normalize raw).trans h⟩

/-- A raw path whose normalized form is a location is not the root. -/
theorem IsLocation.isRoot_eq_false {path raw : String} (h : IsLocation path)
    (hraw : normalize raw = path) : isRoot raw = false := by
  rw [← isRoot_normalize, hraw]
  exact h.not_isRoot

/-! ## First segments -/

/-- A text that can stand between two slashes. -/
structure IsSegment (name : String) : Prop where
  ne_nil : name.toList ≠ []
  not_isSlash : ∀ c ∈ name.toList, isSlash c = false

/-- The first piece of a text reaches to its first slash. -/
theorem exists_splitSlashes (cs : List Char) :
    ∃ rest, splitSlashes cs = (cs.takeWhile fun c => !isSlash c) :: rest := by
  induction cs with
  | nil => exact ⟨[], rfl⟩
  | cons c cs ih =>
    obtain ⟨rest, hrest⟩ := ih
    unfold splitSlashes
    cases hc : isSlash c with
    | true => exact ⟨splitSlashes cs, by simp [hc]⟩
    | false => exact ⟨rest, by simp [hc, hrest]⟩

/-- The first segment ends in front of the second slash. -/
theorem first?_eq {raw : String} {c : Char} {cs : List Char} (hraw : raw.toList = '/' :: c :: cs)
    (hc : isSlash c = false) :
    first? raw = some (String.ofList ((c :: cs).takeWhile fun c => !isSlash c)) := by
  obtain ⟨rest, hrest⟩ := exists_splitSlashes (c :: cs)
  have hpieces : splitSlashes raw.toList =
      [] :: ((c :: cs).takeWhile fun c => !isSlash c) :: rest := by
    rw [hraw, ← hrest]
    rfl
  unfold first? components
  rw [hpieces]
  simp [hc]

/-- A document lies below the root, with no slash behind the first one. -/
theorem IsLocation.exists_toList {path : String} (h : IsLocation path) :
    ∃ c cs, path.toList = '/' :: c :: cs ∧ isSlash c = false := by
  have hpath : path.toList = '/' :: trimSlashes path.toList := by
    rw [← toList_normalize, h.normalize_eq]
  have htrim : (trimSlashes path.toList).dropWhile isSlash = trimSlashes path.toList :=
    Text.dropWhile_trimEnds isSlash path.toList
  cases hcs : trimSlashes path.toList with
  | nil =>
    have hroot := h.not_isRoot
    rw [isRoot, hcs] at hroot
    exact absurd hroot (by simp)
  | cons c cs =>
    refine ⟨c, cs, hcs ▸ hpath, ?_⟩
    rw [hcs] at htrim
    cases hc : isSlash c with
    | false => rfl
    | true =>
      have hlength := congrArg List.length htrim
      have hshort := (List.dropWhile_suffix isSlash (l := cs)).length_le
      rw [List.dropWhile_cons_of_pos hc, List.length_cons] at hlength
      omega

/-- A place for a document has a first segment. -/
theorem IsLocation.exists_first? {path : String} (h : IsLocation path) :
    ∃ name, first? path = some name ∧ IsSegment name := by
  obtain ⟨c, cs, hpath, hc⟩ := h.exists_toList
  refine ⟨_, first?_eq hpath hc, ?_, ?_⟩
  · simp [hc]
  · intro d hd
    rw [String.toList_ofList] at hd
    simpa using List.mem_takeWhile_imp hd

namespace IsSegment

variable {name : String} (h : IsSegment name)

include h

/-- A segment begins with a character that is no slash. -/
theorem exists_cons : ∃ c cs, name.toList = c :: cs ∧ isSlash c = false := by
  obtain ⟨c, cs, hname⟩ := List.exists_cons_of_ne_nil h.ne_nil
  exact ⟨c, cs, hname, h.not_isSlash c (by simp [hname])⟩

/-- A segment has no slashes to trim. -/
theorem trimSlashes_eq : trimSlashes name.toList = name.toList := by
  have hdrop : ∀ cs : List Char, (∀ c ∈ cs, isSlash c = false) → cs.dropWhile isSlash = cs := by
    intro cs hcs
    cases cs with
    | nil => rfl
    | cons c cs => rw [List.dropWhile_cons_of_neg (by simp [hcs c List.mem_cons_self])]
  unfold trimSlashes Text.trimEnds
  rw [hdrop _ h.not_isSlash, hdrop _ fun c hc => h.not_isSlash c (List.mem_reverse.1 hc),
    List.reverse_reverse]

/-- A segment is joined to a path of its own. -/
theorem join_eq : join [name] = "/" ++ name := by
  obtain ⟨c, cs, hname, -⟩ := h.exists_cons
  have hsegments : joinSegments ([name].map String.toList) = '/' :: name.toList := by
    have htrim := h.trimSlashes_eq
    rw [hname] at htrim
    unfold joinSegments
    simp only [List.map_cons, List.map_nil, List.flatMap_cons, List.flatMap_nil, hname, htrim,
      List.append_nil]
  unfold join
  rw [hsegments]
  apply String.ext
  simp

/-- This path is a place for a document. -/
theorem isLocation_join : IsLocation ("/" ++ name) := by
  have htrim : trimSlashes ("/" ++ name).toList = name.toList := by
    have hlist : ("/" ++ name).toList = '/' :: name.toList := by simp
    rw [hlist, trimSlashes_cons, h.trimSlashes_eq]
  refine ⟨?_, ?_⟩
  · apply String.ext
    rw [toList_normalize, htrim]
    simp
  · rw [isRoot, htrim]
    simpa using h.ne_nil

/-- A listing below a first segment runs over the paths with a slash behind it. -/
theorem toList_listingRange :
    (listingRange ("/" ++ name) "").toList = '/' :: (name.toList ++ ['/']) := by
  unfold listingRange
  rw [h.isLocation_join.not_isRoot, if_neg Bool.false_ne_true, h.isLocation_join.normalize_eq]
  simp

/-- The first segment of this path is the segment. -/
theorem first?_join : first? ("/" ++ name) = some name := by
  obtain ⟨c, cs, hname, hc⟩ := h.exists_cons
  have hslash := h.not_isSlash
  have hlist : ("/" ++ name).toList = '/' :: c :: cs := by simp [hname]
  rw [first?_eq hlist hc]
  rw [hname] at hslash
  rw [List.takeWhile_eq_self_iff.2 (by simpa using hslash), ← hname, String.ofList_toList]

/-- A path below this one has the same first segment. -/
theorem first?_of_begins {path : String}
    (hpath : Range.begins (listingRange ("/" ++ name) "") path = true) :
    first? path = some name := by
  obtain ⟨c, cs, hname, hc⟩ := h.exists_cons
  have hslash := h.not_isSlash
  obtain ⟨rest, hrest⟩ := List.isPrefixOf_iff_prefix.1 hpath
  rw [h.toList_listingRange, hname] at hrest
  have hlist : path.toList = '/' :: c :: (cs ++ '/' :: rest) := by simp [← hrest]
  rw [first?_eq hlist hc]
  have htake : ((c :: cs) ++ '/' :: rest).takeWhile (fun c => !isSlash c) = c :: cs := by
    rw [List.takeWhile_append_of_pos (by simpa [hname] using hslash)]
    simp [isSlash]
  rw [← List.cons_append, htake, ← hname, String.ofList_toList]

end IsSegment

/-- A document has the first segment of its path with a slash in front as its path, or it lies
below that. -/
theorem IsLocation.first?_eq_some_iff {path name : String} (h : IsLocation path)
    (hname : IsSegment name) :
    first? path = some name ↔
      path = "/" ++ name ∨ Range.begins (listingRange ("/" ++ name) "") path = true := by
  constructor
  · intro hfirst
    obtain ⟨c, cs, hpath, hc⟩ := h.exists_toList
    rw [first?_eq hpath hc] at hfirst
    injection hfirst with hfirst
    have htake : (c :: cs).takeWhile (fun c => !isSlash c) = name.toList := by
      rw [← hfirst, String.toList_ofList]
    have hsplit := List.takeWhile_append_dropWhile (p := fun c => !isSlash c) (l := c :: cs)
    rw [htake] at hsplit
    cases hdrop : (c :: cs).dropWhile fun c => !isSlash c with
    | nil =>
      refine .inl (String.ext ?_)
      rw [hdrop, List.append_nil] at hsplit
      rw [hpath, ← hsplit]
      simp
    | cons d rest =>
      refine .inr (List.isPrefixOf_iff_prefix.2 ⟨rest, ?_⟩)
      have hslash : isSlash d = true := by
        have hne : (c :: cs).dropWhile (fun c => !isSlash c) ≠ [] := by simp [hdrop]
        have hhead := List.head_dropWhile_not (fun c => !isSlash c) hne
        simpa [hdrop] using hhead
      obtain rfl : d = '/' := by simpa [isSlash] using hslash
      rw [hname.toList_listingRange, hpath, ← hsplit, hdrop]
      simp
  · rintro (rfl | hbegins)
    · exact hname.first?_join
    · exact hname.first?_of_begins hbegins

end Path

end Strongbox
