import Strongbox.Proofs.Path

/-!
# Joining and splitting paths

A joined path holds, behind its first slash, what cannot be trimmed any further.  It can
therefore be joined in parts, it is normal, and its components are those of the texts it was
joined from, in their order.  The main statement is `Path.join_laws`.
-/

set_option autoImplicit false

namespace Strongbox

namespace Text

variable {α : Type} (p : α → Bool) (xs : List α)

/-- Nothing is dropped from the front exactly if the first element stays. -/
theorem dropWhile_eq_self_iff_head? :
    xs.dropWhile p = xs ↔ ∀ x, xs.head? = some x → p x = false := by
  cases xs with
  | nil => simp
  | cons x xs => simp [List.dropWhile_eq_self_iff]

/-- Nothing is dropped from the back exactly if the last element stays. -/
theorem rdropWhile_eq_self_iff_getLast? :
    xs.rdropWhile p = xs ↔ ∀ x, xs.getLast? = some x → p x = false := by
  rcases List.eq_nil_or_concat xs with rfl | ⟨ys, y, rfl⟩
  · simp
  · simp [List.rdropWhile_eq_self_iff]

/-- Nothing is trimmed from a list that neither begins nor ends with what is trimmed. -/
theorem trimEnds_eq_self_iff :
    trimEnds p xs = xs ↔
      (∀ x, xs.head? = some x → p x = false) ∧ ∀ x, xs.getLast? = some x → p x = false := by
  rw [← dropWhile_eq_self_iff_head?, ← rdropWhile_eq_self_iff_getLast?]
  have htwo : trimEnds p xs = (xs.dropWhile p).rdropWhile p := rfl
  constructor
  · intro htrim
    have hbegin : xs.dropWhile p = xs := by
      rw [← htrim]
      exact dropWhile_trimEnds p xs
    exact ⟨hbegin, by rw [← htrim, htwo, hbegin, List.rdropWhile_idempotent]⟩
  · rintro ⟨hbegin, hend⟩
    rw [htwo, hbegin, hend]

end Text

namespace Path

/-- Only the slash is one. -/
theorem isSlash_iff {c : Char} : isSlash c = true ↔ c = '/' := by
  simp [isSlash]

/-- Trimmed once, a text is trimmed. -/
theorem trimSlashes_trimSlashes (cs : List Char) :
    trimSlashes (trimSlashes cs) = trimSlashes cs :=
  Text.trimEnds_trimEnds isSlash cs

/-- A text is trimmed exactly if no slash stands at either end. -/
theorem trimSlashes_eq_self_iff (cs : List Char) :
    trimSlashes cs = cs ↔ cs.head? ≠ some '/' ∧ cs.getLast? ≠ some '/' := by
  have hnone : ∀ o : Option Char, (∀ c, o = some c → isSlash c = false) ↔ o ≠ some '/' := by
    intro o
    cases o with
    | none => simp
    | some c => simp [isSlash]
  unfold trimSlashes
  rw [Text.trimEnds_eq_self_iff, hnone, hnone]

/-! ## Joining in parts -/

/-- Segments of two lists are joined one list after the other. -/
theorem joinSegments_append (xs ys : List (List Char)) :
    joinSegments (xs ++ ys) = joinSegments xs ++ joinSegments ys := by
  simp [joinSegments]

/-- A segment of slashes only is left out. -/
theorem joinSegments_singleton_of_nil {s : List Char} (h : trimSlashes s = []) :
    joinSegments [s] = [] := by
  simp [joinSegments, h]

/-- Any other segment is put behind a slash, trimmed. -/
theorem joinSegments_singleton_of_ne_nil {s : List Char} (h : trimSlashes s ≠ []) :
    joinSegments [s] = '/' :: trimSlashes s := by
  cases ht : trimSlashes s with
  | nil => exact absurd ht h
  | cons c cs => simp [joinSegments, ht]

/-- A text that neither begins nor ends with a slash goes on so with a slash and another. -/
theorem trimSlashes_append_eq {cs ds : List Char} (hcs : trimSlashes cs = cs)
    (hds : trimSlashes ds = ds) (hne : cs ≠ []) (hne' : ds ≠ []) :
    trimSlashes (cs ++ '/' :: ds) = cs ++ '/' :: ds := by
  rw [trimSlashes_eq_self_iff] at hcs hds ⊢
  obtain ⟨c, cs, rfl⟩ := List.exists_cons_of_ne_nil hne
  obtain ⟨ds, d, rfl⟩ := (List.eq_nil_or_concat ds).resolve_left hne'
  rw [List.concat_eq_append] at hds ⊢
  have hlast : (c :: cs ++ '/' :: (ds ++ [d])).getLast? = some d := by
    rw [← List.cons_append, ← List.append_assoc, List.getLast?_concat]
  refine ⟨by simpa using hcs.1, ?_⟩
  rw [hlast]
  simpa using hds.2

/-- Texts join to nothing, or to a slash and what cannot be trimmed. -/
theorem joinSegments_eq_nil_or (xs : List (List Char)) :
    joinSegments xs = [] ∨
      ∃ t, joinSegments xs = '/' :: t ∧ t ≠ [] ∧ trimSlashes t = t := by
  -- Each text stands trimmed in front of what the texts behind it join to.
  induction xs with
  | nil => exact .inl rfl
  | cons s xs ih =>
    have hcons : joinSegments (s :: xs) = joinSegments [s] ++ joinSegments xs :=
      joinSegments_append [s] xs
    by_cases hs : trimSlashes s = []
    · rw [hcons, joinSegments_singleton_of_nil hs, List.nil_append]
      exact ih
    · have htrim := trimSlashes_trimSlashes s
      rw [hcons, joinSegments_singleton_of_ne_nil hs]
      rcases ih with hnil | ⟨t, ht, hne, hself⟩
      · exact .inr ⟨trimSlashes s, by rw [hnil, List.append_nil], hs, htrim⟩
      · refine .inr ⟨trimSlashes s ++ '/' :: t, by rw [ht, List.cons_append], by simp, ?_⟩
        exact trimSlashes_append_eq htrim hself hs hne

/-- What was joined is joined once more without a change. -/
theorem joinSegments_joinSegments (xs : List (List Char)) :
    joinSegments [joinSegments xs] = joinSegments xs := by
  rcases joinSegments_eq_nil_or xs with hnil | ⟨t, ht, hne, hself⟩
  · rw [hnil]
    rfl
  · have htrim : trimSlashes ('/' :: t) = t := by rw [trimSlashes_cons, hself]
    rw [ht, joinSegments_singleton_of_ne_nil (by rwa [htrim]), htrim]

/-- The path that was joined, as a text to join. -/
theorem joinSegments_join (xs : List String) :
    joinSegments [(join xs).toList] = joinSegments (xs.map String.toList) := by
  unfold join
  split
  · rename_i hnil
    rw [hnil]
    rfl
  · rw [String.toList_ofList]
    exact joinSegments_joinSegments _

/-- Equal joined texts are equal paths. -/
theorem join_eq_join {xs ys : List String}
    (h : joinSegments (xs.map String.toList) = joinSegments (ys.map String.toList)) :
    join xs = join ys := by
  unfold join
  rw [h]

/-- A join may be made in two parts. -/
theorem join_append (xs ys : List String) : join (xs ++ ys) = join [join xs, join ys] := by
  apply join_eq_join
  have hpair : ([join xs, join ys].map String.toList) =
      [(join xs).toList] ++ [(join ys).toList] := rfl
  rw [List.map_append, hpair, joinSegments_append, joinSegments_append, joinSegments_join,
    joinSegments_join]

/-- A path that was joined is joined to itself. -/
theorem join_join (xs : List String) : join [join xs] = join xs :=
  join_eq_join (joinSegments_join xs)

/-- One segment is joined to its normal form. -/
theorem join_singleton (s : String) : join [s] = normalize s := by
  unfold join normalize
  rw [List.map_singleton]
  by_cases hs : trimSlashes s.toList = []
  · rw [joinSegments_singleton_of_nil hs, hs]
    rfl
  · rw [joinSegments_singleton_of_ne_nil hs]

/-- A path that was joined is normal. -/
theorem normalize_join (xs : List String) : normalize (join xs) = join xs := by
  rw [← join_singleton, join_join]

/-- The normal paths are the root and what has its one outer slash in front. -/
theorem normalize_eq_self_iff (path : String) :
    normalize path = path ↔
      path = "/" ∨ ∃ t : String, path = "/" ++ t ∧ t ≠ "" ∧
        t.toList.head? ≠ some '/' ∧ t.toList.getLast? ≠ some '/' := by
  constructor
  · intro hnormal
    have hlist : path.toList = '/' :: trimSlashes path.toList := by
      rw [← toList_normalize, hnormal]
    by_cases hnil : trimSlashes path.toList = []
    · exact .inl (String.ext (by rw [hlist, hnil]; rfl))
    · refine .inr ⟨String.ofList (trimSlashes path.toList), ?_, ?_, ?_⟩
      · exact String.ext (by rw [hlist]; simp [trimSlashes_cons, trimSlashes_trimSlashes])
      · simpa using hnil
      · rw [String.toList_ofList]
        exact (trimSlashes_eq_self_iff _).1 (trimSlashes_trimSlashes _)
  · rintro (rfl | ⟨t, rfl, -, hends⟩)
    · rfl
    · have htrim : trimSlashes t.toList = t.toList := (trimSlashes_eq_self_iff _).2 hends
      apply String.ext
      rw [toList_normalize]
      simp [trimSlashes_cons, htrim]

/-! ## Components -/

/-- The non-empty pieces of a text between its slashes. -/
def segments (cs : List Char) : List (List Char) :=
  (splitSlashes cs).filter fun s => !s.isEmpty

/-- Components are the segments of the text. -/
theorem components_eq (raw : String) :
    components raw = (segments raw.toList).map String.ofList := rfl

/-- A slash between two texts parts their pieces. -/
theorem splitSlashes_append (cs ds : List Char) :
    splitSlashes (cs ++ '/' :: ds) = splitSlashes cs ++ splitSlashes ds := by
  induction cs with
  | nil => simp [splitSlashes, isSlash]
  | cons c cs ih =>
    obtain ⟨rest, hrest⟩ := exists_splitSlashes cs
    rw [List.cons_append, splitSlashes, splitSlashes, ih]
    cases hc : isSlash c with
    | true => simp
    | false => simp [hrest]

/-- A slash between two texts parts their segments. -/
theorem segments_append (cs ds : List Char) :
    segments (cs ++ '/' :: ds) = segments cs ++ segments ds := by
  simp [segments, splitSlashes_append]

/-- An empty text has no segments. -/
theorem segments_nil : segments [] = [] := rfl

/-- A slash in front begins no segment. -/
theorem segments_cons (cs : List Char) : segments ('/' :: cs) = segments cs :=
  segments_append [] cs

/-- A slash at the end begins none either. -/
theorem segments_concat (cs : List Char) : segments (cs ++ ['/']) = segments cs := by
  rw [segments_append, segments_nil, List.append_nil]

/-- The slashes in front make no difference to the segments. -/
theorem segments_dropWhile (cs : List Char) :
    segments (cs.dropWhile isSlash) = segments cs := by
  induction cs with
  | nil => rfl
  | cons c cs ih =>
    cases hc : isSlash c with
    | true =>
      rw [List.dropWhile_cons_of_pos hc, ih, isSlash_iff.1 hc, segments_cons]
    | false => rw [List.dropWhile_cons_of_neg (by simp [hc])]

/-- Nor do those at the end. -/
theorem segments_rdropWhile (cs : List Char) :
    segments (cs.rdropWhile isSlash) = segments cs := by
  induction cs using List.reverseRecOn with
  | nil => rfl
  | append_singleton cs c ih =>
    cases hc : isSlash c with
    | true =>
      rw [List.rdropWhile_concat_pos _ _ _ hc, ih, isSlash_iff.1 hc, segments_concat]
    | false => rw [List.rdropWhile_concat_neg _ _ _ (by simp [hc])]

/-- No segment is lost with the slashes at either end. -/
theorem segments_trimSlashes (cs : List Char) : segments (trimSlashes cs) = segments cs := by
  have htwo : trimSlashes cs = (cs.dropWhile isSlash).rdropWhile isSlash := rfl
  rw [htwo, segments_rdropWhile, segments_dropWhile]

/-- A segment has the segments that stand in it, joined or not. -/
theorem segments_joinSegments_singleton (s : List Char) :
    segments (joinSegments [s]) = segments s := by
  by_cases hs : trimSlashes s = []
  · rw [joinSegments_singleton_of_nil hs, ← segments_trimSlashes s, hs]
  · rw [joinSegments_singleton_of_ne_nil hs, segments_cons, segments_trimSlashes]

/-- The segments of joined texts are theirs, one text after the other. -/
theorem segments_joinSegments (xs : List (List Char)) :
    segments (joinSegments xs) = xs.flatMap segments := by
  induction xs with
  | nil => rfl
  | cons s xs ih =>
    have hcons : joinSegments (s :: xs) = joinSegments [s] ++ joinSegments xs :=
      joinSegments_append [s] xs
    rw [hcons, List.flatMap_cons, ← ih, ← segments_joinSegments_singleton s]
    -- Unless nothing is left of the rest, it begins with the slash at which the pieces part.
    rcases joinSegments_eq_nil_or xs with hnil | ⟨t, ht, -, -⟩
    · rw [hnil, List.append_nil, segments_nil, List.append_nil]
    · rw [ht, segments_append, segments_cons]

/-- The components of a path that was joined are those of its parts, in order. -/
theorem components_join (xs : List String) : components (join xs) = xs.flatMap components := by
  have hjoin : segments (join xs).toList = segments (joinSegments (xs.map String.toList)) := by
    rw [← segments_joinSegments_singleton, joinSegments_join]
  rw [components_eq, hjoin, segments_joinSegments, List.flatMap_map, List.map_flatMap]
  rfl

/-- Paths join in parts and to normal paths, they keep the components of what is joined, and
one text alone joins to its normal form; the normal paths are the root and the texts that begin
with a slash and have none behind it or at the end. -/
theorem join_laws (xs ys : List String) (s path : String) :
    join (xs ++ ys) = join [join xs, join ys] ∧
    normalize (join xs) = join xs ∧
    components (join xs) = xs.flatMap components ∧
    join [s] = normalize s ∧
    (normalize path = path ↔
      path = "/" ∨ ∃ t : String, path = "/" ++ t ∧ t ≠ "" ∧
        t.toList.head? ≠ some '/' ∧ t.toList.getLast? ≠ some '/') :=
  ⟨join_append xs ys, normalize_join xs, components_join xs, join_singleton s,
    normalize_eq_self_iff path⟩

end Path

end Strongbox
