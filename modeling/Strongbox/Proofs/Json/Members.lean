import Strongbox.Proofs.Json.Values

/-!
# Unions of objects

The union of two objects has the members of both, and those of the newer one win.  It is
legible if both are, and no deeper than the deeper of them.
-/

set_option autoImplicit false

namespace Strongbox.Json

namespace Value

/-- Members are legible if all their values are. -/
theorem legibleMembers_iff (ms : List (String × Value)) :
    LegibleMembers ms ↔ ∀ m ∈ ms, m.2.Legible := by
  induction ms with
  | nil => exact ⟨fun _ m hm => absurd hm List.not_mem_nil, fun _ => trivial⟩
  | cons m ms ih =>
    rw [List.forall_mem_cons, ← ih]
    exact Iff.rfl

/-- Members are nested no deeper than all their values are. -/
theorem depthOfMembers_le_iff (ms : List (String × Value)) (d : Nat) :
    depthOfMembers ms ≤ d ↔ ∀ m ∈ ms, m.2.depth ≤ d := by
  induction ms with
  | nil => exact ⟨fun _ m hm => absurd hm List.not_mem_nil, fun _ => Nat.zero_le d⟩
  | cons m ms ih =>
    rw [List.forall_mem_cons, ← ih]
    exact Nat.max_le

end Value

namespace Members

/-- A member of a union comes from one of the objects. -/
theorem mem_of_mem_merge {older newer : Members} {m : String × Value}
    (h : m ∈ merge older newer) : m ∈ older ∨ m ∈ newer := by
  unfold merge at h
  induction newer generalizing older with
  | nil => exact .inl h
  | cons n newer ih =>
    rw [List.foldl_cons] at h
    rcases ih h with h | h
    · rcases Bindings.mem_of_mem_insert h with rfl | h
      · exact .inr List.mem_cons_self
      · exact .inl h
    · exact .inr (List.mem_cons_of_mem n h)

/-- A union keeps the names in order. -/
theorem ascending_merge {older : Members} (newer : Members) (h : Bindings.Ascending older) :
    Bindings.Ascending (merge older newer) := by
  unfold merge
  induction newer generalizing older with
  | nil => exact h
  | cons n newer ih => exact ih (Bindings.ascending_insert n.1 n.2 h)

/-- A member of the union is that of the newer object, and if there is none that of the
older one. -/
theorem find?_merge (name : String) (older : Members) {newer : Members}
    (h : Bindings.Ascending newer) :
    find? name (merge older newer) = (find? name newer).or (find? name older) := by
  unfold merge
  induction newer generalizing older with
  | nil => rfl
  | cons n newer ih =>
    obtain ⟨hfirst, hrest⟩ := List.pairwise_cons.1 h
    obtain ⟨key, v⟩ := n
    rw [List.foldl_cons, ih _ hrest]
    by_cases hname : name = key
    · subst hname
      have hnone : find? name newer = none := Bindings.find?_eq_none_of_lt hfirst
      have hself : find? name (insert name v older) = some v :=
        Bindings.find?_insert_self name v older
      have hcons : find? name ((name, v) :: newer) = some v := by
        unfold find? Bindings.find?
        rw [if_neg (Std.lt_irrefl), if_neg (Std.lt_irrefl)]
      rw [hnone, hself, hcons]
      rfl
    · have hother : find? name (insert key v older) = find? name older :=
        Bindings.find?_insert_of_ne v hname older
      have hcons : find? name ((key, v) :: newer) = find? name newer := by
        unfold find?
        rw [Bindings.find?]
        split
        · rename_i hlt
          exact (Bindings.find?_eq_none_of_lt fun b hb => Std.lt_trans hlt (hfirst b hb)).symm
        · rename_i hnot
          rw [if_pos]
          rcases Std.lt_trichotomy name key with hlt | hsame | hgt
          · exact absurd hlt hnot
          · exact absurd hsame hname
          · exact hgt
      rw [hother, hcons]

end Members

/-- The union of legible objects is legible. -/
theorem Value.Legible.merge {older newer : Members} (hold : (object older).Legible)
    (hnew : (object newer).Legible) : (object (older.merge newer)).Legible := by
  refine ⟨Members.ascending_merge newer hold.1, (legibleMembers_iff _).2 fun m hm => ?_⟩
  rcases Members.mem_of_mem_merge hm with hm | hm
  · exact (legibleMembers_iff older).1 hold.2 m hm
  · exact (legibleMembers_iff newer).1 hnew.2 m hm

/-- The union of two objects is no deeper than they are. -/
theorem Value.depth_merge_le {older newer : Members} {d : Nat}
    (hold : (object older).depth ≤ d + 1) (hnew : (object newer).depth ≤ d + 1) :
    (object (older.merge newer)).depth ≤ d + 1 := by
  refine Nat.succ_le_succ ((depthOfMembers_le_iff _ d).2 fun m hm => ?_)
  rcases Members.mem_of_mem_merge hm with hm | hm
  · exact (depthOfMembers_le_iff older d).1 (Nat.le_of_succ_le_succ hold) m hm
  · exact (depthOfMembers_le_iff newer d).1 (Nat.le_of_succ_le_succ hnew) m hm

end Strongbox.Json
