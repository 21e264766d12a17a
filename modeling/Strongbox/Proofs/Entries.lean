import Strongbox.Proofs.Barrier

/-!
# The entries that an engine hands out

What a walk over the contents of an engine hands out are entries that it holds, and a deletion
leaves no others.  The engine answers what its contents do.
-/

set_option autoImplicit false

namespace Strongbox

/-! ## Entries that are held -/

namespace Contents

/-- A value is bound to a key that can be read as text. -/
def Holds (c : Contents) (key : String) (value : Bytes) : Prop :=
  match c with
  | .volatile t => (key, value) ∈ t.entries
  | .treeFile t => (key, value) ∈ t.entries
  | .logDirectory d => ∃ raw, Utf8.decode raw = .ok key ∧ (raw, value) ∈ d.entries.entries

/-- A value that is bound is held. -/
theorem holds_of_value? {c : Contents} {key : String} {value : Bytes}
    (h : c.value? key = some value) : c.Holds key value := by
  cases c with
  | volatile t => exact Bindings.mem_of_find? h
  | treeFile t => exact Bindings.mem_of_find? h
  | logDirectory d => exact ⟨Utf8.encode key, Utf8.decode_encode key, Bindings.mem_of_find? h⟩

/-- What is held after a write is what was written, or was held before. -/
theorem holds_put {c : Contents} {key other : String} {value new : Bytes}
    (h : (c.put key new).Holds other value) :
    (other = key ∧ value = new) ∨ c.Holds other value := by
  cases c with
  | volatile t =>
    rcases Bindings.mem_of_mem_insert h with hsame | hmem
    · exact .inl ⟨congrArg Prod.fst hsame, congrArg Prod.snd hsame⟩
    · exact .inr hmem
  | treeFile t =>
    rcases Bindings.mem_of_mem_insert h with hsame | hmem
    · exact .inl ⟨congrArg Prod.fst hsame, congrArg Prod.snd hsame⟩
    · exact .inr hmem
  | logDirectory d =>
    obtain ⟨raw, hraw, hmem⟩ := h
    rcases Bindings.mem_of_mem_insert hmem with hsame | hmem
    · have hkey : raw = Utf8.encode key := congrArg Prod.fst hsame
      rw [hkey, Utf8.decode_encode] at hraw
      injection hraw with hraw
      exact .inl ⟨hraw.symm, congrArg Prod.snd hsame⟩
    · exact .inr ⟨raw, hraw, hmem⟩

/-- What is held after a deletion was held before. -/
theorem holds_of_delete {c after : Contents} {key other : String} {found : Bool} {value : Bytes}
    (hdelete : c.delete key = .ok (found, after)) (h : after.Holds other value) :
    c.Holds other value := by
  cases c with
  | volatile t =>
    injection hdelete with hdelete
    injection hdelete with _ hafter
    subst hafter
    exact Bindings.mem_of_mem_erase h
  | treeFile t =>
    injection hdelete with hdelete
    injection hdelete with _ hafter
    subst hafter
    exact Bindings.mem_of_mem_erase h
  | logDirectory d =>
    unfold delete LogDirectory.delete at hdelete
    dsimp only at hdelete
    cases hlookup : d.lookup .deleting key with
    | error e =>
      rw [hlookup] at hdelete
      exact absurd hdelete (by simp [Except.map])
    | ok x =>
      rw [hlookup] at hdelete
      cases x with
      | none =>
        injection hdelete with hdelete
        injection hdelete with _ hafter
        subst hafter
        exact h
      | some old =>
        injection hdelete with hdelete
        injection hdelete with _ hafter
        subst hafter
        obtain ⟨raw, hraw, hmem⟩ := h
        exact ⟨raw, hraw, Bindings.mem_of_mem_erase hmem⟩

/-! ## Walks -/

/-- A cut has no new elements. -/
theorem mem_of_mem_cut {α : Type} {limit : Nat} {x : α} {xs : List α}
    (h : x ∈ Range.cut limit xs) : x ∈ xs := by
  unfold Range.cut at h
  split at h
  · exact h
  · exact List.mem_of_mem_take h

/-- A page has no new entries. -/
theorem mem_of_mem_page {stem : String} {limit taken : Nat} {ahead : List Entry} {e : Entry}
    (h : e ∈ TreeFile.page stem limit taken ahead) : e ∈ ahead := by
  induction ahead generalizing taken with
  | nil => exact h
  | cons f ahead ih =>
    unfold TreeFile.page at h
    split at h
    · exact absurd h List.not_mem_nil
    · split at h
      · rcases List.mem_cons.1 h with hsame | hmem
        · rw [hsame]
          exact List.mem_cons_self
        · exact List.mem_cons_of_mem _ (ih hmem)
      · exact absurd h List.not_mem_nil

/-- An entry of a log is shown under the text of its key. -/
theorem meet_eq_ok {b : Bytes × Bytes} {e : Entry} (h : LogDirectory.meet b = .ok e) :
    Utf8.decode b.1 = .ok e.1 ∧ b.2 = e.2 := by
  unfold LogDirectory.meet at h
  cases hkey : Utf8.decode b.1 with
  | error fault =>
    rw [hkey] at h
    exact absurd h (by simp)
  | ok key =>
    rw [hkey] at h
    injection h with h
    rw [← h]
    exact ⟨rfl, rfl⟩

/-- The entries of a page were met on the walk. -/
theorem exists_of_mem_page {stem : String} {after : Option String} {limit taken : Nat}
    {ahead : List (Bytes × Bytes)} {es : List Entry}
    (h : LogDirectory.page stem after limit taken ahead = .ok es) :
    ∀ e ∈ es, ∃ raw, Utf8.decode raw = .ok e.1 ∧ (raw, e.2) ∈ ahead := by
  induction ahead generalizing taken es with
  | nil =>
    injection h with h
    subst h
    intro e he
    exact absurd he List.not_mem_nil
  | cons b ahead ih =>
    -- The walk goes on behind `b` with or without its entry.
    have hlater : ∀ {taken : Nat} {es : List Entry},
        LogDirectory.page stem after limit taken ahead = .ok es → ∀ e ∈ es,
          ∃ raw, Utf8.decode raw = .ok e.1 ∧ (raw, e.2) ∈ b :: ahead := by
      intro taken es hpage e he
      obtain ⟨raw, hraw, hmem⟩ := ih hpage e he
      exact ⟨raw, hraw, List.mem_cons_of_mem _ hmem⟩
    have hnone : ∀ e ∈ ([] : List Entry), ∃ raw, Utf8.decode raw = .ok e.1 ∧
        (raw, e.2) ∈ b :: ahead := by
      intro e he
      exact absurd he List.not_mem_nil
    unfold LogDirectory.page at h
    split at h
    · injection h with h
      rw [← h]
      exact hnone
    · cases hmeet : LogDirectory.meet b with
      | error error =>
        rw [hmeet] at h
        exact absurd h (by simp)
      | ok f =>
        obtain ⟨key, value⟩ := f
        rw [hmeet] at h
        dsimp only at h
        split at h
        · injection h with h
          rw [← h]
          exact hnone
        · split at h
          · exact hlater h
          · cases hrest : LogDirectory.page stem after limit (taken + 1) ahead with
            | error error =>
              rw [hrest] at h
              exact absurd h (by simp)
            | ok rest =>
              rw [hrest] at h
              injection h with h
              rw [← h]
              intro e he
              rcases List.mem_cons.1 he with hsame | hmem
              · obtain ⟨hkey, hvalue⟩ := meet_eq_ok hmeet
                rw [hsame]
                refine ⟨b.1, hkey, ?_⟩
                rw [← hvalue]
                exact List.mem_cons_self
              · exact hlater hrest e hmem

/-- A downward walk ends at an entry that it met. -/
theorem exists_of_descend {stem : String} {ahead : List (Bytes × Bytes)} {e : Entry}
    (h : LogDirectory.descend stem ahead = .ok (some e)) :
    ∃ raw, Utf8.decode raw = .ok e.1 ∧ (raw, e.2) ∈ ahead := by
  induction ahead with
  | nil => exact absurd h (by simp [LogDirectory.descend])
  | cons b ahead ih =>
    unfold LogDirectory.descend at h
    cases hmeet : LogDirectory.meet b with
    | error error =>
      rw [hmeet] at h
      exact absurd h (by simp)
    | ok f =>
      obtain ⟨key, value⟩ := f
      rw [hmeet] at h
      dsimp only at h
      split at h
      · injection h with h
        injection h with h
        obtain ⟨hkey, hvalue⟩ := meet_eq_ok hmeet
        rw [← h]
        refine ⟨b.1, hkey, ?_⟩
        rw [← hvalue]
        exact List.mem_cons_self
      · split at h
        · exact absurd h (by simp)
        · obtain ⟨raw, hraw, hmem⟩ := ih h
          exact ⟨raw, hraw, List.mem_cons_of_mem _ hmem⟩

/-- A page holds only entries of the contents. -/
theorem holds_of_scan {c : Contents} {stem : String} {after : Option String} {limit : Nat}
    {es : List Entry} (h : c.scan stem after limit = .ok es) :
    ∀ e ∈ es, c.Holds e.1 e.2 := by
  intro e he
  cases c with
  | volatile t =>
    injection h with h
    rw [← h] at he
    have hwhile := mem_of_mem_cut he
    exact (List.dropWhile_suffix _).subset ((List.takeWhile_prefix _).subset hwhile)
  | treeFile t =>
    injection h with h
    rw [← h] at he
    exact (List.dropWhile_suffix _).subset (mem_of_mem_page he)
  | logDirectory d =>
    unfold scan LogDirectory.scan at h
    dsimp only at h
    split at h
    · exact absurd h (by simp)
    · obtain ⟨raw, hraw, hmem⟩ := exists_of_mem_page h e he
      exact ⟨raw, hraw, (List.dropWhile_suffix _).subset hmem⟩

/-- The last entry of a range is one of the contents. -/
theorem holds_of_last {c : Contents} {stem : String} {e : Entry}
    (h : c.last stem = .ok (some e)) : c.Holds e.1 e.2 := by
  cases c with
  | volatile t =>
    injection h with h
    exact (List.mem_filter.1 (List.mem_of_getLast? h)).1
  | treeFile t =>
    injection h with h
    unfold TreeFile.last? at h
    split at h
    · exact absurd h (by simp)
    · rename_i f ahead hahead
      split at h
      · injection h with h
        have hmem : f ∈ t.entries.reverse :=
          (List.dropWhile_suffix _).subset (hahead ▸ List.mem_cons_self)
        rw [← h]
        exact List.mem_reverse.1 hmem
      · exact absurd h (by simp)
  | logDirectory d =>
    unfold last LogDirectory.last? at h
    dsimp only at h
    split at h
    · exact absurd h (by simp)
    · obtain ⟨raw, hraw, hmem⟩ := exists_of_descend h
      refine ⟨raw, hraw, ?_⟩
      unfold LogDirectory.downFrom at hmem
      split at hmem
      · exact List.mem_reverse.1 ((List.dropWhile_suffix _).subset hmem)
      · exact List.mem_reverse.1 hmem

end Contents

/-! ## What an engine answers -/

namespace Engine

/-- A value is bound to a key that can be read as text. -/
def Holds (e : Engine) (key : String) (value : Bytes) : Prop := e.contents.Holds key value

/-- The entries that a scan answers are held. -/
theorem holds_of_scan {stem : String} {after : Option String} {limit : Nat} {e f : Engine}
    {es : List Entry} (h : scan stem after limit e = .ok es f) :
    ∀ x ∈ es, e.Holds x.1 x.2 := by
  obtain ⟨face, ⟨es', contents, ⟨hscan, -⟩, hrun⟩ | ⟨error, hrun⟩⟩ :=
    inspect_outcome .scan stem (·.scan stem after limit) e
  · have hsame : scan stem after limit e = .ok es' { e with face, contents } := hrun
    rw [h] at hsame
    injection hsame with hsame
    rw [hsame]
    exact Contents.holds_of_scan hscan
  · have hsame : scan stem after limit e = .error error { e with face } := hrun
    rw [h] at hsame
    exact absurd hsame (by simp)

/-- The last entry that is answered is that of the contents. -/
theorem last_eq_ok {stem : String} {e f : Engine} {x : Option Entry}
    (h : last stem e = .ok x f) : e.contents.last stem = .ok x := by
  obtain ⟨face, ⟨y, contents, ⟨hlast, -⟩, hrun⟩ | ⟨error, hrun⟩⟩ :=
    inspect_outcome .last stem (·.last stem) e
  · have hsame : last stem e = .ok y { e with face, contents } := hrun
    rw [h] at hsame
    injection hsame with hsame
    rw [hsame]
    exact hlast
  · have hsame : last stem e = .error error { e with face } := hrun
    rw [h] at hsame
    exact absurd hsame (by simp)

end Engine

end Strongbox
