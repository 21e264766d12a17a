import Strongbox.Proofs.Json.Levels

/-!
# What the parts of a form can be

A part of a form is what its field reads, or what stands for a field that is left out.  So what
holds of all these holds of every part.  In particular the times of a record that was read are
proper instants, whoever wrote it.  The main statement is `Record.isProper_of_parse`.
-/

set_option autoImplicit false

namespace Strongbox

/-- Whatever the field reads, or has stand for it, satisfies `P`. -/
structure FormField.Gives (P : Part → Prop) (f : FormField) : Prop where
  read : ∀ {bs rest : Bytes} {p : Part}, f.read bs = .ok (p, rest) → P p
  absent : ∀ p ∈ f.absent, P p
  short : ∀ p ∈ f.short, P p

namespace Form

variable {P : Part → Prop} {form : Form}

/-- The parts that are read from an array are ones that the form gives. -/
theorem forall_of_ofArray (hform : ∀ f ∈ form, f.Gives P) {first : Bool} {bs rest : Bytes}
    {ps : List Part} (h : ofArray form first bs = .ok (ps, rest)) : ∀ p ∈ ps, P p := by
  induction form generalizing first bs rest ps with
  | nil =>
    injection h with h
    injection h with hps _
    rw [← hps]
    exact fun p hp => absurd hp List.not_mem_nil
  | cons f fs ih =>
    have hf := hform f List.mem_cons_self
    have hcons : ∀ {p : Part} {first : Bool} {bs after : Bytes} {qs : List Part}, P p →
        ofArray fs first bs = .ok (qs, after) →
        (.ok (p :: qs, after) : Except Stop _) = .ok (ps, rest) → ∀ p ∈ ps, P p := by
      intro p first bs after qs hp htail hrun
      injection hrun with hrun
      injection hrun with hps _
      rw [← hps, List.forall_mem_cons]
      exact ⟨hp, ih (fun f hf => hform f (List.mem_cons_of_mem _ hf)) htail⟩
    unfold ofArray at h
    split at h
    · exact absurd h (by simp)
    · split at h
      · exact absurd h (by simp)
      rename_i p hshort
      split at h
      · exact absurd h (by simp)
      · rename_i htail
        exact hcons (hf.short p hshort) htail h
    · split at h
      · exact absurd h (by simp)
      rename_i hread
      split at h
      · exact absurd h (by simp)
      · rename_i htail
        exact hcons (hf.read hread) htail h

/-- So are those that are read from an object, together with those found before. -/
theorem forall_of_membersFrom (hform : ∀ f ∈ form, f.Gives P) {fuel : Nat} {first : Bool}
    {found found' : List (String × Part)} {bs rest : Bytes} (hfound : ∀ x ∈ found, P x.2)
    (h : membersFrom form fuel first found bs = .ok (found', rest)) : ∀ x ∈ found', P x.2 := by
  induction fuel generalizing first found bs with
  | zero => exact absurd h (by simp [membersFrom])
  | succ fuel ih =>
    unfold membersFrom at h
    split at h
    · exact absurd h (by simp)
    · injection h with h
      injection h with hsame _
      exact hsame ▸ hfound
    split at h
    · exact absurd h (by simp)
    split at h
    · split at h
      · exact absurd h (by simp)
      split at h
      · exact absurd h (by simp)
      · exact ih hfound h
    · rename_i f hfind
      have hf := hform f (List.mem_of_find?_eq_some hfind)
      split at h
      · exact absurd h (by simp)
      split at h
      · exact absurd h (by simp)
      split at h
      · exact absurd h (by simp)
      · rename_i hread
        refine ih ?_ h
        rw [List.forall_mem_cons]
        exact ⟨hf.read hread, hfound⟩

/-- Completing what was found adds only parts that the form gives. -/
theorem forall_of_complete (hform : ∀ f ∈ form, f.Gives P) {found : List (String × Part)}
    {ps : List Part} (hfound : ∀ x ∈ found, P x.2) (h : complete form found = some ps) :
    ∀ p ∈ ps, P p := by
  unfold complete at h
  induction form generalizing ps with
  | nil =>
    injection h with h
    rw [← h]
    exact fun p hp => absurd hp List.not_mem_nil
  | cons f fs ih =>
    rw [List.mapM_cons] at h
    obtain ⟨p, hp, h⟩ := Option.bind_eq_some_iff.1 h
    obtain ⟨qs, hqs, h⟩ := Option.bind_eq_some_iff.1 h
    injection h with h
    have hpart : P p := by
      rcases Option.or_eq_some_iff.1 hp with hlookup | ⟨-, habsent⟩
      · obtain ⟨front, back, hfound', -⟩ := List.lookup_eq_some_iff.1 hlookup
        refine hfound (f.name, p) ?_
        rw [hfound']
        exact List.mem_append_right _ List.mem_cons_self
      · exact (hform f List.mem_cons_self).absent p habsent
    rw [← h, List.forall_mem_cons]
    exact ⟨hpart, ih (fun f hf => hform f (List.mem_cons_of_mem _ hf)) hqs⟩

/-- Whatever closes a record, its parts are those that were read. -/
theorem forall_of_settle {close : Bytes → Option Json.Fault × Bytes}
    {r : Except Stop (List Part × Bytes)} {ps : List Part} {rest : Bytes}
    (hr : ∀ {ps rest}, r = .ok (ps, rest) → ∀ p ∈ ps, P p)
    (h : settle close r = .ok (ps, rest)) : ∀ p ∈ ps, P p := by
  unfold settle at h
  split at h
  · split at h
    · injection h with h
      injection h with hps _
      exact hps ▸ hr rfl
    · exact absurd h (by simp)
  · exact absurd h (by simp)
  · exact absurd h (by simp [Json.halt])

/-- What holds of all that the fields give holds of the parts of a text. -/
theorem forall_of_parse (hform : ∀ f ∈ form, f.Gives P) {text : Bytes} {ps : List Part}
    (h : form.parse text = .ok ps) : ∀ p ∈ ps, P p := by
  have hobject : ∀ {bs rest : Bytes} {ps : List Part}, ofObject form bs = .ok (ps, rest) →
      ∀ p ∈ ps, P p := by
    intro bs rest ps hrun
    unfold ofObject at hrun
    split at hrun
    · exact absurd hrun (by simp)
    split at hrun
    · rename_i hmembers _ _ hcomplete
      injection hrun with hrun
      injection hrun with hps _
      rw [← hps]
      exact forall_of_complete hform (forall_of_membersFrom hform (by simp) hmembers) hcomplete
    · exact absurd hrun (by simp)
  have hparts : ∀ {rest : Bytes} {ps : List Part}, form.readParts text = .ok (ps, rest) →
      ∀ p ∈ ps, P p := by
    intro rest ps hrun
    unfold readParts at hrun
    split at hrun
    · exact absurd hrun (by simp [Json.halt])
    split at hrun
    · exact forall_of_settle (forall_of_ofArray hform) hrun
    split at hrun
    · exact forall_of_settle hobject hrun
    · exact absurd hrun (by simp)
  unfold parse at h
  split at h
  · exact absurd h (by simp)
  · rename_i hrun
    obtain ⟨_, -, hps⟩ := Json.exists_of_map_ok h
    exact hps ▸ hparts hrun

end Form

/-! ## Times -/

/-- A time that the part holds is a proper instant. -/
def Part.HasProperTime : Part → Prop
  | .time (some t) => t.IsProper
  | _ => True

/-- A time that is read is proper. -/
theorem Form.hasProperTime_of_readTime {bs rest : Bytes} {p : Part}
    (h : readTime bs = .ok (p, rest)) : p.HasProperTime := by
  unfold readTime at h
  split at h
  · exact absurd h (by simp)
  split at h
  · rename_i hstamp
    injection h with h
    injection h with hp _
    rw [← hp]
    exact Time.Instant.isProper_of_ofStamp? hstamp
  · exact absurd h (by simp [Json.halt])

/-- The form of a record gives proper times only. -/
theorem Record.gives_hasProperTime : ∀ f ∈ Record.form, f.Gives Part.HasProperTime := by
  have hnone : ∀ p ∈ (none : Option Part), p.HasProperTime := fun p hp => absurd hp (by simp)
  have hempty : ∀ p ∈ some (Part.fields []), p.HasProperTime := by
    rintro p ⟨⟩
    trivial
  have htext : ∀ {bs rest : Bytes} {p : Part}, Form.readText bs = .ok (p, rest) →
      p.HasProperTime := by
    intro bs rest p h
    obtain ⟨x, -, hsame⟩ := Json.exists_of_map_ok h
    injection hsame with hp _
    rw [hp]
    trivial
  have hfields : ∀ {bs rest : Bytes} {p : Part}, Form.readFields bs = .ok (p, rest) →
      p.HasProperTime := by
    intro bs rest p h
    unfold Form.readFields at h
    split at h
    · exact absurd h (by simp [Json.halt])
    split at h
    · obtain ⟨x, -, hsame⟩ := Json.exists_of_map_ok h
      injection hsame with hp _
      rw [hp]
      trivial
    · exact absurd h (by simp)
  unfold Record.form
  simp only [List.forall_mem_cons, List.not_mem_nil, false_imp_iff, implies_true, and_true]
  exact ⟨⟨htext, hnone, hnone⟩, ⟨hfields, hempty, hempty⟩,
    ⟨Form.hasProperTime_of_readTime, hnone, hnone⟩, Form.hasProperTime_of_readTime, hnone, hnone⟩

/-- The times of a record that was read are proper instants. -/
theorem Record.isProper_of_parse {bytes : Bytes} {r : Record} (h : parse bytes = .ok r) :
    r.createdAt.IsProper ∧ r.updatedAt.IsProper := by
  unfold parse at h
  split at h
  · exact absurd h (by simp)
  rename_i parts hparts
  have hproper := Form.forall_of_parse gives_hasProperTime hparts
  split at h
  · rename_i r' hrecord
    injection h with h
    rw [← h]
    unfold ofParts? at hrecord
    split at hrecord
    · injection hrecord with hrecord
      rw [← hrecord]
      simp only [List.forall_mem_cons] at hproper
      exact ⟨hproper.2.2.1, hproper.2.2.2.1⟩
    · exact absurd hrecord (by simp)
  · exact absurd h (by simp [Json.halt])

end Strongbox
